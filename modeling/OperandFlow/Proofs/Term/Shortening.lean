import Mathlib.Algebra.Group.Nat.Defs
import Mathlib.Data.Option.Basic
import OperandFlow.Proofs.Term.Replacing
import OperandFlow.Term.Canonical

/-! Simplifying a term shortens it: every rewriting step gives back the text as it stands or a
shorter one, and it brings in no blanks. -/
namespace OperandFlow

namespace Text

@[simp] theorem byteLength_nil : byteLength [] = 0 := rfl

@[simp] theorem byteLength_cons (c : Char) (cs : List Char) :
    byteLength (c :: cs) = c.utf8Size + byteLength cs := rfl

@[simp] theorem byteLength_append (a b : List Char) :
    byteLength (a ++ b) = byteLength a + byteLength b := by
  induction a with
  | nil => simp
  | cons c a ih => rw [List.cons_append, byteLength_cons, byteLength_cons, ih, Nat.add_assoc]

theorem length_le_byteLength (cs : List Char) : cs.length ≤ byteLength cs := by
  induction cs with
  | nil => simp
  | cons c cs ih =>
    have hc := c.utf8Size_pos
    rw [List.length_cons, byteLength_cons]
    omega

/-- Digits take one byte each and are no blanks. -/
theorem of_isDigit {c : Char} (h : c.isDigit = true) : c.utf8Size = 1 ∧ isBlank c = false := by
  have hval : 48 ≤ c.val ∧ c.val ≤ 57 := by simpa [Char.isDigit] using h
  have hlow : 48 ≤ c.toNat := hval.1
  have hhigh : c.toNat ≤ 57 := hval.2
  constructor
  · exact Char.utf8Size_eq_one_iff.mpr (UInt32.le_trans hval.2 (by decide))
  · unfold isBlank
    simp
    omega

theorem digit?_lt {base : Nat} {c : Char} {d : Nat} (h : digit? base c = some d) : d < base := by
  unfold digit? at h
  simpa using (Option.filter_eq_some_iff.mp h).2

/-- So many digits spell a number of so many digits at most. -/
theorem digitsFrom?_lt {base acc n : Nat} {cs : List Char} (h : digitsFrom? base acc cs = some n) :
    n < (acc + 1) * base ^ cs.length := by
  induction cs generalizing acc with
  | nil =>
    simp only [digitsFrom?, Option.some.injEq] at h
    simp [h]
  | cons c cs ih =>
    simp only [digitsFrom?, Option.bind_eq_bind, Option.bind_eq_some_iff] at h
    obtain ⟨d, hd, h⟩ := h
    have hdigit := digit?_lt hd
    calc n < (acc * base + d + 1) * base ^ cs.length := ih h
      _ ≤ ((acc + 1) * base) * base ^ cs.length := by
        apply Nat.mul_le_mul_right
        rw [Nat.add_mul]
        omega
      _ = (acc + 1) * base ^ (c :: cs).length := by
        rw [List.length_cons, Nat.pow_succ, Nat.mul_assoc, Nat.mul_comm base]

theorem byteLength_decimal_le {n : Nat} {cs : List Char} (h : digits? 10 cs = some n) :
    byteLength (decimal n) ≤ byteLength cs := by
  have hbytes : ∀ ds : List Char, (∀ c ∈ ds, c.isDigit = true) → byteLength ds = ds.length := by
    intro ds hds
    induction ds with
    | nil => rfl
    | cons c ds ih =>
      rw [byteLength_cons, (of_isDigit (hds c (by simp))).1,
        ih fun x hx => hds x (List.mem_cons_of_mem c hx), List.length_cons, Nat.add_comm]
  have hdigits : ∀ c ∈ decimal n, c.isDigit = true := fun c hc =>
    Nat.isDigit_of_mem_toDigits (by decide) (by decide) hc
  cases cs with
  | nil => cases h
  | cons c cs =>
    have hlt := digitsFrom?_lt h
    have hlen : (decimal n).length ≤ (c :: cs).length :=
      (Nat.length_toDigits_le_iff (by decide) (by simp)).mpr (by simpa using hlt)
    rw [hbytes _ hdigits]
    exact Nat.le_trans hlen (length_le_byteLength _)

end Text

namespace Term
open Text

theorem joined_cons {a : List Char} {args : List (List Char)} (h : args ≠ []) :
    joined (a :: args) = a ++ ',' :: joined args := by
  cases args with
  | nil => exact absurd rfl h
  | cons b args => simp [joined, List.intercalate]

theorem splitFrom_ne_nil (depth : Int) (part cs : List Char) : splitFrom depth part cs ≠ [] := by
  fun_induction splitFrom depth part cs <;> simp_all

theorem joined_splitFrom (depth : Int) (part cs : List Char) :
    joined (splitFrom depth part cs) = part.reverse ++ cs := by
  fun_induction splitFrom depth part cs with
  | case1 depth part => simp [joined, List.intercalate]
  | case2 depth part c cs h ih => simp [joined_cons (splitFrom_ne_nil 0 [] cs), ih, h.1]
  | case3 depth part c cs h ih => simp [ih]

/-- The arguments of a call put together again. -/
theorem joined_splitArgs (cs : List Char) : joined (splitArgs cs) = cs :=
  joined_splitFrom 0 [] cs

theorem eq_append_of_closeFrom_getLast? {awaited seen text inside rest : List Char} {closing : Char}
    (hlast : awaited.getLast? = some closing)
    (h : closeFrom awaited seen text = some (inside, rest)) :
    seen.reverse ++ text = inside ++ closing :: rest := by
  fun_induction closeFrom awaited seen text with
  | case6 seen cs d outer houter hopen hclose ih =>
    cases outer with
    | nil => exact absurd rfl houter
    | cons e outer => simpa using ih (by simpa using hlast) h
  | _ => simp_all [List.getLast?_cons]

/-- A group is its inside, its closing bracket and what follows. -/
theorem eq_append_of_group? {closing : Char} {text inside rest : List Char}
    (h : group? closing text = some (inside, rest)) : text = inside ++ closing :: rest :=
  eq_append_of_closeFrom_getLast? rfl h

/-- `b` is `a` itself or shorter, and its blanks are those of `a`. -/
structure Simplifies (a b : List Char) : Prop where
  shorter : b = a ∨ byteLength b < byteLength a
  blanks : ∀ c ∈ b, isBlank c = true → c ∈ a

namespace Simplifies

variable {a a' b b' : List Char}

theorem refl (a : List Char) : Simplifies a a := ⟨Or.inl rfl, fun _ hc _ => hc⟩

theorem byteLength_le (h : Simplifies a b) : byteLength b ≤ byteLength a := by
  rcases h.shorter with rfl | hlt
  · exact Nat.le_refl _
  · exact Nat.le_of_lt hlt

theorem trans {c : List Char} (hab : Simplifies a b) (hbc : Simplifies b c) : Simplifies a c where
  shorter := by
    rcases hbc.shorter with rfl | hlt
    · exact hab.shorter
    · exact Or.inr (Nat.lt_of_lt_of_le hlt hab.byteLength_le)
  blanks := fun x hx hblank => hab.blanks x (hbc.blanks x hx hblank) hblank

theorem append (h : Simplifies a b) (h' : Simplifies a' b') : Simplifies (a ++ a') (b ++ b') where
  shorter := by
    have hle := h.byteLength_le
    have hle' := h'.byteLength_le
    rcases h.shorter with rfl | hlt
    · rcases h'.shorter with rfl | hlt'
      · exact Or.inl rfl
      · right
        rw [byteLength_append, byteLength_append]
        omega
    · right
      rw [byteLength_append, byteLength_append]
      omega
  blanks := by
    intro c hc hblank
    rw [List.mem_append] at hc ⊢
    exact hc.imp (h.blanks c · hblank) (h'.blanks c · hblank)

/-- Text around a call stays. -/
theorem around (h : Simplifies a b) (before after : List Char) :
    Simplifies (before ++ a ++ after) (before ++ b ++ after) :=
  ((refl before).append h).append (refl after)

/-- A part of a text is simpler than the text. -/
theorem of_append (before b after : List Char) : Simplifies (before ++ b ++ after) b where
  shorter := by
    have hbefore := length_le_byteLength before
    have hafter := length_le_byteLength after
    rw [byteLength_append, byteLength_append]
    by_cases hlen : before.length + after.length = 0
    · left
      have hnil : before = [] := List.eq_nil_of_length_eq_zero (by omega)
      have hnil' : after = [] := List.eq_nil_of_length_eq_zero (by omega)
      simp [hnil, hnil']
    · omega
  blanks := by
    intro c hc _
    simp [hc]

end Simplifies

section Calls

variable {callee : Callee} {args : List (List Char)}
  {replace : List (List Char) → Option (List Char)}

theorem Simplifies.withArgs {a b : List Char} (h : Simplifies a b) :
    Simplifies (callee.withArgs a) (callee.withArgs b) :=
  h.around callee.opening [')']

theorem simplifies_joined (args : List (List Char)) :
    Simplifies (callee.withArgs (joined args)) (joined args) :=
  .of_append callee.opening (joined args) [')']

theorem simplifies_joined_of_mem {a : List Char} (h : a ∈ args) : Simplifies (joined args) a := by
  induction args with
  | nil => cases h
  | cons b args ih =>
    by_cases hargs : args = []
    · subst hargs
      rw [List.mem_singleton] at h
      subst h
      simpa [joined, List.intercalate] using Simplifies.refl a
    · rw [joined_cons hargs]
      rcases List.mem_cons.mp h with rfl | h
      · simpa using Simplifies.of_append [] a (',' :: joined args)
      · exact (by simpa using Simplifies.of_append (b ++ [',']) (joined args) [] :
          Simplifies (b ++ ',' :: joined args) (joined args)).trans (ih h)

/-- An argument is simpler than its call. -/
theorem simplifies_arg {a : List Char} (h : a ∈ args) :
    Simplifies (callee.withArgs (joined args)) a :=
  (simplifies_joined args).trans (simplifies_joined_of_mem h)

/-- Replacing calls simplifies a text if it simplifies every call. The induction is that of the
replacing: the arguments of the first call, then what stands behind it. -/
theorem simplifies_replaceFrom
    (h : ∀ args out, replace args = some out → Simplifies (callee.withArgs (joined args)) out)
    (last : Option Char) (text : List Char) :
    Simplifies text (replaceFrom callee replace last text).text := by
  induction last, text using replaceWith.induct callee with
  | case1 last text hnone =>
    rw [replaceFrom_of_none hnone]
    exact .refl _
  | case2 last text before after hbreak _ _ _ inside rest hgroup hlast _ ihInner ihTail =>
    have htext : text = before ++ (callee.withArgs inside ++ rest) := by
      rw [eq_append_of_breakOn hbreak, eq_append_of_group? hgroup]
      simp [Callee.withArgs]
    have hcall : ∀ args, args = splitArgs (replaceFrom callee replace none inside).text →
        Simplifies (callee.withArgs inside)
          ((replace args).getD (callee.withArgs (replaceFrom callee replace none inside).text)) := by
      rintro args rfl
      refine ihInner.withArgs.trans ?_
      cases hout : replace (splitArgs (replaceFrom callee replace none inside).text) with
      | none => exact .refl _
      | some out =>
        have hargs := h _ out hout
        rwa [joined_splitArgs] at hargs
    rw [replaceFrom_of_call hbreak hlast hgroup, htext]
    exact (Simplifies.refl before).append ((hcall _ rfl).append ihTail)
  | case3 last text before after hbreak _ _ _ hskip ihTail =>
    have htext : text = before ++ callee.chars ++ '(' :: after := by
      rw [eq_append_of_breakOn hbreak]
      simp [Callee.opening]
    rw [replaceFrom_of_skip hbreak (skip_of_not_call hskip), htext]
    exact (Simplifies.refl (before ++ callee.chars)).append ihTail

theorem simplifies_mapCalls
    (h : ∀ args out, replace args = some out → Simplifies (callee.withArgs (joined args)) out)
    (text : List Char) : Simplifies text (mapCalls callee replace text) :=
  simplifies_replaceFrom h none text

end Calls

section Rules

variable (args : List (List Char)) (out : List Char)

theorem simplifies_zeroTest? {cs out : List Char} (h : zeroTest? cs = some out) :
    Simplifies cs out := by
  obtain ⟨front, hfront, rfl⟩ := Option.map_eq_some_iff.mp h
  have hcs : cs = front.reverse ++ ['=', '=', '0'] := by
    simpa using congrArg List.reverse (eq_append_of_stripFront? hfront)
  rw [hcs]
  exact .of_append [] front.reverse ['=', '=', '0']

theorem simplifies_disjunctionValue? (h : disjunctionValue? args = some out) :
    Simplifies (orCall.withArgs (joined args)) out := by
  unfold disjunctionValue? at h
  split at h
  · split at h
    · exact (simplifies_arg (by simp)).trans (simplifies_zeroTest? h)
    · split at h
      · exact (simplifies_arg (by simp)).trans (simplifies_zeroTest? h)
      · cases h
  · cases h

theorem simplifies_conditionalValue? (h : conditionalValue? args = some out) :
    Simplifies (ifCall.withArgs (joined args)) out := by
  unfold conditionalValue? at h
  split at h
  · split at h
    · obtain rfl := Option.some.inj h
      exact simplifies_arg (by simp)
    · cases h
  · cases h

theorem simplifies_unwrapGuards (text : List Char) : Simplifies text (unwrapGuards text) :=
  (simplifies_mapCalls simplifies_disjunctionValue? text).trans
    (simplifies_mapCalls simplifies_conditionalValue? _)

/-- An update is a call with the map, the key and the value as arguments. -/
theorem eq_withArgs_of_update? {cs : List Char} {u : Update} (h : update? cs = some u) :
    cs = storeCall.withArgs (joined [u.base, u.key, u.value]) := by
  simp only [update?, Option.bind_eq_bind, Option.bind_eq_some_iff] at h
  obtain ⟨behind, hbehind, ⟨inside, rest⟩, hgroup, h⟩ := h
  have hcs := eq_append_of_stripFront? hbehind
  rw [eq_append_of_group? hgroup] at hcs
  split at h
  · next hrest =>
    split at h
    · next hargs =>
      obtain rfl := Option.some.inj h
      obtain ⟨rfl, rfl⟩ := Prod.mk.inj hrest
      rw [← hargs, joined_splitArgs, hcs]
      simp [Callee.withArgs]
    · cases h
  · cases h

theorem simplifies_lookUp (key array : List Char) :
    Simplifies array ((lookUp key array).elim id id) := by
  fun_induction lookUp key array with
  | case1 => exact .refl _
  | case2 array u hupdate _ _ =>
    rw [eq_withArgs_of_update? hupdate]
    exact simplifies_arg (by simp)
  | case3 array u hupdate _ _ ih =>
    refine .trans ?_ ih
    rw [eq_withArgs_of_update? hupdate]
    exact simplifies_arg (by simp)

theorem simplifies_selection? (h : selection? args = some out) :
    Simplifies (selectCall.withArgs (joined args)) out := by
  unfold selection? at h
  split at h
  · next array key =>
    have hlook := simplifies_lookUp key array
    split at h
    · next value hvalue =>
      obtain rfl := Option.some.inj h
      rw [hvalue] at hlook
      exact (simplifies_arg (by simp)).trans hlook
    · next base hbase =>
      rw [hbase] at hlook
      split at h
      · cases h
      · obtain rfl := Option.some.inj h
        simpa [joined, List.intercalate] using (hlook.append (.refl (',' :: key))).withArgs
  · cases h

theorem simplifies_written? (h : written? args = some out) :
    Simplifies (storeCall.withArgs (joined args)) out := by
  unfold written? at h
  split at h
  · obtain rfl := Option.some.inj h
    refine simplifies_arg ?_
    split <;> simp
  · cases h

theorem simplifies_extended? (h : extended? args = some out) :
    Simplifies (zeroExtCall.withArgs (joined args)) out := by
  unfold extended? at h
  split at h
  · split at h
    · obtain rfl := Option.some.inj h
      exact simplifies_arg (by simp)
    · cases h
  · cases h

theorem simplifies_unwrapValues (text : List Char) : Simplifies text (unwrapValues text) := by
  refine (simplifies_mapCalls simplifies_selection? text).trans <|
    (simplifies_mapCalls simplifies_written? _).trans <|
    (simplifies_mapCalls simplifies_extended? _).trans <| simplifies_mapCalls ?_ _
  intro args out h
  obtain rfl := Option.some.inj h
  exact simplifies_joined args

end Rules

theorem isBlank_of_mem_decimal {n : Nat} {c : Char} (h : c ∈ decimal n) : isBlank c = false :=
  (of_isDigit (Nat.isDigit_of_mem_toDigits (by decide) (by decide) h)).2

/-- A place written out is at most one character longer than its index, which may be empty, and
brings no blanks of its own. -/
structure Fits (index : List Char) (p : Place) : Prop where
  length_le : byteLength p.render ≤ byteLength index + 1
  blanks : ∀ c ∈ p.render, isBlank c = true → c ∈ index

theorem fits_numeral {index : List Char} {n : Nat} (h : numeral? 10 wordBound index = some n) :
    Fits index ⟨[], n⟩ where
  length_le := by
    obtain ⟨hdigits, _⟩ := Option.filter_eq_some_iff.mp h
    have hle := byteLength_decimal_le hdigits
    change byteLength (decimal n) ≤ byteLength index + 1
    split at hle
    · rw [byteLength_cons]
      omega
    · omega
  blanks := by
    intro c hc hblank
    rw [isBlank_of_mem_decimal (show c ∈ decimal n from hc)] at hblank
    cases hblank

theorem fits_sum {index base offset : List Char} {n : Nat} (hbase : isLine base = true)
    (hoffset : digits? 10 offset = some n)
    (hindex : index = base ++ '+' :: offset ∨ index = offset ++ '+' :: base) :
    Fits index ⟨base, n⟩ := by
  have hnil : base.isEmpty = false := by
    simp only [isLine, Bool.and_eq_true, Bool.not_eq_true'] at hbase
    exact hbase.1
  have hlen : byteLength index = byteLength base + 1 + byteLength offset := by
    rcases hindex with rfl | rfl
    all_goals
      rw [byteLength_append, byteLength_cons, show '+'.utf8Size = 1 from rfl]
      omega
  have hmem : ∀ c ∈ '+' :: base, c ∈ index := by
    rcases hindex with rfl | rfl <;> simp +contextual [or_imp]
  have hle := byteLength_decimal_le hoffset
  constructor
  · simp only [Place.render, hnil, Bool.false_eq_true, if_false]
    split
    · omega
    · rw [byteLength_append, byteLength_cons, show '+'.utf8Size = 1 from rfl]
      omega
  · intro c hc hblank
    simp only [Place.render, hnil, Bool.false_eq_true, if_false] at hc
    split at hc
    · exact hmem c (List.mem_cons_of_mem _ hc)
    · rcases List.mem_append.mp hc with hc | hc
      · exact hmem c (List.mem_cons_of_mem _ hc)
      · rcases List.mem_cons.mp hc with rfl | hc
        · exact hmem '+' List.mem_cons_self
        · rw [isBlank_of_mem_decimal hc] at hblank
          cases hblank

theorem eq_append_of_lastSum? {cs before after : List Char}
    (h : lastSum? cs = some (before, after)) : cs = before ++ '+' :: after := by
  obtain ⟨⟨front, back⟩, hbreak, heq⟩ := Option.map_eq_some_iff.mp h
  obtain ⟨rfl, rfl⟩ := Prod.mk.inj heq
  simpa using congrArg List.reverse (eq_append_of_breakOn hbreak)

theorem exists_of_baseFirst? {index : List Char} {p : Place} (h : baseFirst? index = some p) :
    ∃ offset, isLine p.base = true ∧ digits? 10 offset = some p.offset ∧
      index = p.base ++ '+' :: offset := by
  simp only [baseFirst?, Option.bind_eq_bind, Option.bind_eq_some_iff, Option.filter_eq_some_iff,
    Option.guard_eq_some', Option.pure_def, Option.some.injEq] at h
  obtain ⟨⟨base, offset⟩, hsum, _, hbase, n, ⟨hoffset, _⟩, rfl⟩ := h
  exact ⟨offset, hbase, hoffset, eq_append_of_lastSum? hsum⟩

theorem exists_of_baseLast? {index : List Char} {p : Place} (h : baseLast? index = some p) :
    ∃ offset, isLine p.base = true ∧ digits? 10 offset = some p.offset ∧
      index = offset ++ '+' :: p.base := by
  simp only [baseLast?, Option.bind_eq_bind, Option.bind_eq_some_iff, Option.filter_eq_some_iff,
    Option.guard_eq_some', Option.pure_def, Option.some.injEq] at h
  obtain ⟨⟨offset, base⟩, hsum, _, hbase, n, ⟨hoffset, _⟩, rfl⟩ := h
  exact ⟨offset, hbase, hoffset, by simpa using eq_append_of_breakOn hsum⟩

/-- A place is a number, a base on either side of a number, or the whole index. -/
theorem place?_cases {index : List Char} {p : Place} (h : place? index = some p) :
    (∃ n, numeral? 10 wordBound index = some n ∧ p = ⟨[], n⟩) ∨
      (∃ offset, isLine p.base = true ∧ digits? 10 offset = some p.offset ∧
        (index = p.base ++ '+' :: offset ∨ index = offset ++ '+' :: p.base)) ∨
      p = ⟨index, 0⟩ := by
  unfold place? at h
  split at h
  · cases h
  · simp only [Option.orElse_eq_orElse, Option.orElse_eq_or, Option.or_eq_some_iff,
      Option.map_eq_some_iff] at h
    rcases h with ⟨n, hn, rfl⟩ | ⟨_, h | ⟨_, h | ⟨_, h⟩⟩⟩
    · exact .inl ⟨n, hn, rfl⟩
    · obtain ⟨offset, hbase, hoffset, hindex⟩ := exists_of_baseFirst? h
      exact .inr (.inl ⟨offset, hbase, hoffset, .inl hindex⟩)
    · obtain ⟨offset, hbase, hoffset, hindex⟩ := exists_of_baseLast? h
      exact .inr (.inl ⟨offset, hbase, hoffset, .inr hindex⟩)
    · exact .inr (.inr (Option.some.inj h).symm)

theorem fits_index (index : List Char) : Fits index ⟨index, 0⟩ := by
  cases index with
  | nil =>
    refine ⟨by decide, ?_⟩
    intro c (hc : c ∈ decimal 0) hblank
    rw [isBlank_of_mem_decimal hc] at hblank
    cases hblank
  | cons c cs => exact ⟨Nat.le_succ _, fun _ hc _ => hc⟩

theorem fits_place? {index : List Char} {p : Place} (h : place? index = some p) : Fits index p := by
  obtain ⟨n, hn, rfl⟩ | ⟨offset, hbase, hoffset, hindex⟩ | rfl := place?_cases h
  · exact fits_numeral hn
  · exact fits_sum hbase hoffset hindex
  · exact fits_index index

/-- An end of a range: the place of its read, or the index where that is no place. -/
def Read.bound (r : Read) : List Char :=
  ((place? r.index).map Place.render).getD r.index

theorem Run.render_single (gap : List Char) (r : Read) :
    Run.render ⟨gap, r, none⟩ = gap ++ r.renderAt r.index := rfl

theorem Run.render_range (gap : List Char) (first last : Read) :
    Run.render ⟨gap, first, some last⟩ =
      gap ++ first.renderAt (first.bound ++ ':' :: last.bound) := rfl

theorem Read.bound_le (r : Read) : byteLength r.bound ≤ byteLength r.index + 1 := by
  cases hplace : place? r.index with
  | none => simp [Read.bound, hplace]
  | some p => simpa [Read.bound, hplace] using (fits_place? hplace).length_le

theorem Read.blanks_bound (r : Read) {c : Char} (hc : c ∈ r.bound) (hblank : isBlank c = true) :
    c ∈ r.index := by
  cases hplace : place? r.index with
  | none => simpa [Read.bound, hplace] using hc
  | some p =>
    refine (fits_place? hplace).blanks c ?_ hblank
    simpa [Read.bound, hplace] using hc

theorem byteLength_renderAt (r : Read) (index : List Char) :
    byteLength (r.renderAt index) = byteLength r.owner + byteLength index + 11 := by
  have hopening : byteLength readOpening = 10 := rfl
  have hclosing : byteLength [']'] = 1 := rfl
  simp only [Read.renderAt, byteLength_append, hopening, hclosing]
  omega

/-- The last place of a run stands in its text, be it a single read or a range. -/
theorem Run.bound_le (run : Run) :
    byteLength (run.last.getD run.first).bound + 10 ≤ byteLength run.render := by
  obtain ⟨gap, first, last⟩ := run
  cases last with
  | none =>
    have hbound := first.bound_le
    rw [Run.render_single, byteLength_append, byteLength_renderAt]
    change byteLength first.bound + 10 ≤ _
    omega
  | some last =>
    rw [Run.render_range, byteLength_append, byteLength_renderAt, byteLength_append,
      byteLength_cons, Option.getD_some]
    omega

theorem Run.blanks_bound (run : Run) {c : Char} (hc : c ∈ (run.last.getD run.first).bound)
    (hblank : isBlank c = true) : c ∈ run.render := by
  obtain ⟨gap, first, last⟩ := run
  cases last with
  | none =>
    have hindex := first.blanks_bound hc hblank
    simp [Run.render_single, Read.renderAt, hindex]
  | some last =>
    rw [Option.getD_some] at hc
    simp [Run.render_range, Read.renderAt, hc]

/-- A read and the run behind it become one range. -/
theorem simplifies_join (r : Read) (next : Run) :
    Simplifies (r.renderAt r.index ++ next.render)
      (r.renderAt (r.bound ++ ':' :: (next.last.getD next.first).bound)) where
  shorter := by
    right
    have hfirst := r.bound_le
    have hlast := next.bound_le
    rw [byteLength_append, byteLength_renderAt, byteLength_renderAt, byteLength_append,
      byteLength_cons, show ':'.utf8Size = 1 from rfl]
    omega
  blanks := by
    intro c hc hblank
    have hfirst := fun h => r.blanks_bound (c := c) h hblank
    have hlast := fun h => next.blanks_bound (c := c) h hblank
    have hcolon : c ≠ ':' := by
      rintro rfl
      exact absurd hblank (by decide)
    simp only [Read.renderAt, List.mem_append, List.mem_cons, hcolon, false_or] at hc ⊢
    grind

namespace Reads

/-- The text with every read by itself. -/
def apart (s : Reads) : List Char :=
  s.reads.flatMap (fun (gap, r) => Run.render ⟨gap, r, none⟩) ++ s.tail

theorem apart_prepend (cs : List Char) (s : Reads) : (s.prepend cs).apart = cs ++ s.apart := by
  obtain ⟨reads, tail⟩ := s
  cases reads with
  | nil => simp [prepend, apart]
  | cons r reads => simp [prepend, apart, Run.render_single]

theorem simplifies_runs (reads : List (List Char × Read)) :
    Simplifies (reads.flatMap fun (gap, r) => Run.render ⟨gap, r, none⟩)
      ((runs reads).flatMap Run.render) := by
  fun_induction runs reads with
  | case1 => exact .refl _
  | case2 gap r rest hruns ih =>
    rw [hruns] at ih
    rw [List.flatMap_cons, List.flatMap_cons]
    exact (Simplifies.refl _).append ih
  | case3 gap r rest next more hruns _ ih =>
    rw [hruns] at ih
    have hjoin := (simplifies_join r next).around gap (more.flatMap Run.render)
    refine .trans ((Simplifies.refl (gap ++ r.renderAt r.index)).append ih) ?_
    simpa [Run.render_range] using hjoin
  | case4 gap r rest next more hruns _ ih =>
    rw [hruns] at ih
    rw [List.flatMap_cons, List.flatMap_cons]
    exact (Simplifies.refl _).append ih

theorem simplifies_render (s : Reads) : Simplifies s.apart s.render :=
  (simplifies_runs s.reads).append (.refl s.tail)

theorem splitOwner_append (cs : List Char) : (splitOwner cs).1 ++ (splitOwner cs).2 = cs := by
  rw [splitOwner, ← List.reverse_append, List.takeWhile_append_dropWhile, List.reverse_reverse]

/-- The induction is that of the scan, where an index is a text of its own. -/
theorem simplifies_scan (text : List Char) : Simplifies text (scan text).apart := by
  fun_induction scan text with
  | case1 => exact .refl _
  | case2 text before after hbreak _ gap owner howner inside rest hgroup _ _ tail ihRest ihInside =>
    have hbefore := splitOwner_append before
    rw [howner] at hbefore
    have htext : text = gap ++ (owner ++ readOpening ++ inside ++ [']']) ++ rest := by
      rw [eq_append_of_breakOn hbreak, eq_append_of_group? hgroup, ← hbefore]
      simp
    have hindex := (ihInside.trans (scan inside).simplifies_render).around
      (owner ++ readOpening) [']']
    have hall := ((Simplifies.refl gap).append hindex).append ihRest
    rw [htext]
    simpa [apart, Run.render_single, Read.renderAt] using hall
  | case3 text before after hbreak _ _ _ _ _ ih =>
    rw [apart_prepend, eq_append_of_breakOn hbreak]
    exact (Simplifies.refl _).append ih

end Reads

theorem simplifies_mergeReads (text : List Char) : Simplifies text (mergeReads text) :=
  (Reads.simplifies_scan text).trans (Reads.scan text).simplifies_render

theorem simplifies_dropPadding (text : List Char) : Simplifies text (dropPadding text) := by
  fun_induction dropPadding text with
  | case1 cs ih =>
    have hcs := Simplifies.of_append ['0', ','] cs []
    rw [List.append_nil] at hcs
    exact hcs.trans ih
  | case2 => exact .refl _

theorem simplifies_round (text : List Char) : Simplifies text (round text) :=
  (simplifies_unwrapGuards text).trans <| (simplifies_unwrapValues _).trans <|
    (simplifies_mergeReads _).trans <| simplifies_dropPadding _

end Term
end OperandFlow
