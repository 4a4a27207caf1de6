import Mathlib.Dynamics.FixedPoints.Basic
import OperandFlow.Proofs.Term.Reads

/-! Rounds shorten a term until they reach a fixed point. A canonical form is its own canonical form
exactly if its fixed point is reached within the limit on rounds, and there are terms which need one
round more. -/
namespace OperandFlow.Term
open Text

theorem simplifies_iterate_round (n : Nat) (text : List Char) :
    Simplifies text (round^[n] text) := by
  induction n generalizing text with
  | zero => exact .refl text
  | succ n ih => exact (simplifies_round text).trans (ih (round text))

/-- As many rounds as the text has bytes are enough. The induction is on that number. -/
theorem exists_isFixedPt_iterate_round (n : Nat) (text : List Char) (h : byteLength text ≤ n) :
    ∃ k ≤ byteLength text, Function.IsFixedPt round (round^[k] text) := by
  induction n generalizing text with
  | zero =>
    rcases (simplifies_round text).shorter with heq | hlt
    · exact ⟨0, Nat.zero_le _, heq⟩
    · omega
  | succ n ih =>
    rcases (simplifies_round text).shorter with heq | hlt
    · exact ⟨0, Nat.zero_le _, heq⟩
    · obtain ⟨k, hk, hfixed⟩ := ih (round text) (by omega)
      exact ⟨k + 1, by omega, hfixed⟩

/-- A round that changes a text makes it shorter, so that a text of `n` bytes settles within `n`
rounds. -/
theorem round_shortens_until_fixed (text : List Char) :
    (round text = text ∨ byteLength (round text) < byteLength text) ∧
      ∃ k ≤ byteLength text, Function.IsFixedPt round (round^[k] text) :=
  ⟨(simplifies_round text).shorter, exists_isFixedPt_iterate_round _ text (Nat.le_refl _)⟩

theorem settle_fst (n : Nat) (text : List Char) : (settle n text).1 = round^[n] text := by
  induction n generalizing text with
  | zero => rfl
  | succ n ih =>
    rw [settle]
    split
    · next hfixed => exact (Function.IsFixedPt.iterate hfixed (n + 1)).symm
    · exact ih (round text)

theorem toList_canonical (raw : String) :
    (canonical raw).toList = round^[roundLimit] (compact raw.toList) := by
  rw [canonical, String.toList_ofList, settleRaw, settle_fst]

theorem compact_toList_canonical (raw : String) :
    compact (canonical raw).toList = (canonical raw).toList := by
  rw [toList_canonical]
  refine List.filter_eq_self.mpr fun c hc => ?_
  have hblanks := (simplifies_iterate_round roundLimit (compact raw.toList)).blanks c hc
  cases hblank : isBlank c with
  | false => rfl
  | true => simpa [compact, hblank] using hblanks hblank

/-- Further rounds change whatever is no fixed point, since no round makes a text longer. -/
theorem iterate_round_eq_iff {n : Nat} (hn : 0 < n) (text : List Char) :
    round^[n] text = text ↔ Function.IsFixedPt round text := by
  constructor
  · intro h
    obtain ⟨m, rfl⟩ := Nat.exists_eq_succ_of_ne_zero (Nat.ne_of_gt hn)
    rcases (simplifies_round text).shorter with heq | hlt
    · exact heq
    · have hle := (simplifies_iterate_round m (round text)).byteLength_le
      rw [← Function.iterate_succ_apply, h] at hle
      omega
  · intro h
    exact Function.IsFixedPt.iterate h n

/-- The canonical form stays exactly if it is a fixed point, which the limit on rounds may cut
off. -/
theorem canonical_idempotent_iff (raw : String) :
    canonical (canonical raw) = canonical raw ↔
      Function.IsFixedPt round (round^[roundLimit] (compact raw.toList)) := by
  rw [← String.toList_inj, toList_canonical (canonical raw), compact_toList_canonical,
    iterate_round_eq_iff (by decide), toList_canonical]

section Tower

def sizeGuard : List Char := "calldatasize<=0".toList

/-- The arguments of a conditional that gives `value` under a size guard. -/
def branches (value : List Char) : List Char :=
  sizeGuard ++ ',' :: value ++ [',', '0']

/-- Extensions of conditionals around `core`. The conditional of a floor goes away only if its value
is zero, and the extension only if its conditional has gone. -/
def tower (core : List Char) : Nat → List Char
  | 0 => core
  | k + 1 => zeroExtCall.withArgs (ifCall.withArgs (branches (tower core k)) ++ [',', '0'])

/-- An extension of zero by no bits. -/
def extension : List Char := zeroExtCall.withArgs ['0', ',', '0']

/-- A tower on zero with its innermost conditional gone. -/
def opened : Nat → List Char
  | 0 => ['0']
  | k + 1 => tower extension k

variable {core value : List Char}

theorem mem_tower {c : Char} {k : Nat} (h : c ∈ tower core k) : c ∈ core ∨ c ∈ tower [] 1 := by
  induction k with
  | zero => exact Or.inl h
  | succ k ih =>
    simp only [tower, branches, Callee.withArgs, List.mem_append, List.mem_cons] at h ih ⊢
    grind

theorem isArg_sizeGuard : IsArg sizeGuard := .of_all (by decide)

theorem isArg_zero : IsArg ['0'] := .of_all (by decide)

theorem nested_branches (h : IsArg value) : Nested (fun _ => True) (branches value) := by
  have hguard : Nested (fun _ => True) (sizeGuard ++ [',']) := .of_all (by decide)
  have hzero : Nested (fun _ => True) [',', '0'] := .of_all (by decide)
  have hvalue : Nested (fun _ => True) value := h.mono fun _ _ => trivial
  simpa [branches] using (hguard.append hvalue).append hzero

theorem splitArgs_branches (h : IsArg value) :
    splitArgs (branches value) = [sizeGuard, value, ['0']] := by
  rw [branches, List.append_assoc, List.cons_append, isArg_sizeGuard.splitArgs_cons,
    h.splitArgs_cons, isArg_zero.splitArgs]

theorem isArg_conditional (h : IsArg value) : IsArg (ifCall.withArgs (branches value)) :=
  Nested.withArgs (.of_all (by decide)) (nested_branches h)

theorem nested_floor (h : IsArg value) :
    Nested (fun _ => True) (ifCall.withArgs (branches value) ++ [',', '0']) :=
  ((isArg_conditional h).mono fun _ _ => trivial).append (.of_all (by decide))

theorem isArg_tower (hcore : IsArg core) (k : Nat) : IsArg (tower core k) := by
  induction k with
  | zero => exact hcore
  | succ k ih => exact Nested.withArgs (.of_all (by decide)) (nested_floor ih)

theorem isArg_extension : IsArg extension :=
  Nested.withArgs (.of_all (by decide)) (.of_all (by decide))

theorem isArg_opened (k : Nat) : IsArg (opened k) := by
  cases k with
  | zero => exact isArg_zero
  | succ k => exact isArg_tower isArg_extension k

/-- A tower on an extension is no zero. -/
theorem tower_extension_ne_zero (k : Nat) : tower extension k ≠ ['0'] := by
  have hhead : (tower extension k).head? = some 'Z' := by cases k <;> rfl
  intro h
  rw [h] at hhead
  exact absurd hhead (by decide)

theorem text_replaceFrom_conditionals (k : Nat) (before after : List Char) (last : Option Char)
    (hbefore : 'I' ∉ before) (hafter : 'I' ∉ after) :
    (replaceFrom ifCall conditionalValue? last (before ++ tower ['0'] k ++ after)).text =
      before ++ opened k ++ after := by
  induction k generalizing before after last with
  | zero =>
    rw [replaceFrom_of_absent (show 'I' ∈ ifCall.chars by decide)]
    · rfl
    · simp [tower, hbefore, hafter]
  | succ k ih =>
    have htext : before ++ tower ['0'] (k + 1) ++ after =
        (before ++ zeroExtCall.opening) ++ ifCall.withArgs (branches (tower ['0'] k)) ++
          ([',', '0', ')'] ++ after) := by simp [tower, Callee.withArgs]
    have hinside : mapCalls ifCall conditionalValue? (branches (tower ['0'] k)) =
        branches (opened k) := by
      have hinner := ih (sizeGuard ++ [',']) [',', '0'] none (by decide) (by decide)
      simpa [mapCalls, branches] using hinner
    have hname : 'I' ∉ before ++ zeroExtCall.opening := by
      simp [hbefore, show 'I' ∉ zeroExtCall.opening by decide]
    have hlast : ((before ++ zeroExtCall.opening).getLast?.or last).any isNameChar = false := by
      simp [Callee.opening, show isNameChar '(' = false by decide]
    rw [htext, text_replaceFrom_call rfl hname hlast (nested_branches (isArg_tower isArg_zero k)),
      hinside, splitArgs_branches (isArg_opened k),
      replaceFrom_of_absent (show 'I' ∈ ifCall.chars by decide) (by simp [hafter])]
    cases k with
    | zero =>
      have hvalue : conditionalValue? [sizeGuard, opened 0, ['0']] = some ['0'] := by decide
      rw [hvalue]
      simp [opened, tower, extension, Callee.withArgs]
    | succ k =>
      have hvalue : conditionalValue? [sizeGuard, opened (k + 1), ['0']] = none := by
        simp [conditionalValue?, opened, tower_extension_ne_zero]
      rw [hvalue]
      simp [opened, tower, Callee.withArgs]

theorem text_replaceFrom_extensions (k : Nat) (before after : List Char) (last : Option Char)
    (hbefore : 'Z' ∉ before) (hafter : 'Z' ∉ after)
    (hlast : (before.getLast?.or last).any isNameChar = false) :
    (replaceFrom zeroExtCall extended? last (before ++ tower extension k ++ after)).text =
      before ++ tower ['0'] k ++ after := by
  induction k generalizing before after last with
  | zero =>
    have hinside : mapCalls zeroExtCall extended? ['0', ',', '0'] = ['0', ',', '0'] := by
      rw [mapCalls, replaceFrom_of_absent (show 'Z' ∈ zeroExtCall.chars by decide) (by decide)]
    have hvalue : extended? (splitArgs ['0', ',', '0']) = some ['0'] := by decide
    have hnested : Nested (fun _ => True) ['0', ',', '0'] := .of_all (by decide)
    rw [tower, extension, text_replaceFrom_call rfl hbefore hlast hnested, hinside, hvalue,
      replaceFrom_of_absent (show 'Z' ∈ zeroExtCall.chars by decide) hafter]
    rfl
  | succ k ih =>
    have hinside : mapCalls zeroExtCall extended?
        (ifCall.withArgs (branches (tower extension k)) ++ [',', '0']) =
          ifCall.withArgs (branches (tower ['0'] k)) ++ [',', '0'] := by
      have hinner := ih (ifCall.opening ++ sizeGuard ++ [',']) [',', '0', ')', ',', '0'] none
        (by decide) (by decide) (by decide)
      simpa [mapCalls, branches, Callee.withArgs] using hinner
    have hvalue : extended? (splitArgs (ifCall.withArgs (branches (tower ['0'] k)) ++ [',', '0'])) =
        none := by
      rw [(isArg_conditional (isArg_tower isArg_zero k)).splitArgs_cons, isArg_zero.splitArgs]
      simp [extended?, Callee.withArgs, Callee.opening, ifCall]
    rw [tower, text_replaceFrom_call rfl hbefore hlast
      (nested_floor (isArg_tower isArg_extension k)), hinside, hvalue,
      replaceFrom_of_absent (show 'Z' ∈ zeroExtCall.chars by decide) hafter]
    rfl

theorem not_mem_tower {c : Char} (hcore : c ∉ core) (hfloor : c ∉ tower [] 1) (k : Nat) :
    c ∉ tower core k :=
  fun hc => (mem_tower hc).elim hcore hfloor

/-- One round takes one floor off. -/
theorem round_tower (k : Nat) : round (tower ['0'] (k + 1)) = tower ['0'] k := by
  have hguards : unwrapGuards (tower ['0'] (k + 1)) = tower extension k := by
    have hopened := text_replaceFrom_conditionals (k + 1) [] [] none (by simp) (by simp)
    rw [unwrapGuards, mapCalls_of_absent (show 'O' ∈ orCall.chars by decide)
      (not_mem_tower (by decide) (by decide) _)]
    simpa [mapCalls, opened] using hopened
  have hvalues : unwrapValues (tower extension k) = tower ['0'] k := by
    have hextended := text_replaceFrom_extensions k [] [] none (by simp) (by simp) rfl
    have hzero : mapCalls zeroExtCall extended? (tower extension k) = tower ['0'] k := by
      simpa [mapCalls] using hextended
    rw [unwrapValues, mapCalls_of_absent (show 'S' ∈ selectCall.chars by decide)
      (not_mem_tower (by decide) (by decide) _),
      mapCalls_of_absent (show 'S' ∈ storeCall.chars by decide)
      (not_mem_tower (by decide) (by decide) _), hzero,
      mapCalls_of_absent (show 'C' ∈ concatCall.chars by decide)
      (not_mem_tower (by decide) (by decide) _)]
  rw [round, hguards, hvalues, mergeReads_of_absent (not_mem_tower (by decide) (by decide) _)]
  cases k with
  | zero => rfl
  | succ k => rfl

theorem iterate_round_tower (n k : Nat) : round^[n] (tower ['0'] (k + n)) = tower ['0'] k := by
  induction n with
  | zero => rfl
  | succ n ih => rw [Function.iterate_succ_apply, ← Nat.add_assoc, round_tower, ih]

theorem compact_tower (k : Nat) : compact (tower ['0'] k) = tower ['0'] k := by
  refine List.filter_eq_self.mpr fun c hc => ?_
  rcases mem_tower hc with hzero | hfloor
  · exact List.all_eq_true.mp (by decide : ['0'].all (!isBlank ·) = true) c hzero
  · exact List.all_eq_true.mp (by decide : (tower [] 1).all (!isBlank ·) = true) c hfloor

/-- With one floor more than there are rounds, the canonical form is a tower with one floor, and
its canonical form is zero. -/
theorem canonical_not_idempotent_tower :
    canonical (canonical (String.ofList (tower ['0'] (roundLimit + 1)))) ≠
      canonical (String.ofList (tower ['0'] (roundLimit + 1))) := by
  have hfirst : (canonical (String.ofList (tower ['0'] (roundLimit + 1)))).toList =
      tower ['0'] 1 := by
    rw [toList_canonical, String.toList_ofList, compact_tower, Nat.add_comm, iterate_round_tower]
  rw [Ne, ← String.toList_inj, toList_canonical (canonical _), compact_toList_canonical,
    iterate_round_eq_iff (by decide), hfirst]
  intro hfixed
  have hone : tower ['0'] 0 = tower ['0'] 1 := (round_tower 0).symm.trans hfixed
  exact absurd hone (by decide)

end Tower

end OperandFlow.Term
