import OperandFlow.Proofs.Term.Convergence
import OperandFlow.Proofs.Term.Guards
import OperandFlow.Proofs.Term.Updates

/-! Words decoded from calldata: however the bytes of a word are checked, and however it is padded,
its canonical form is one read of a range. -/
namespace OperandFlow

namespace Text

theorem isBlank_of_isAlphanum {c : Char} (h : c.isAlphanum = true) : isBlank c = false := by
  rcases Bool.or_eq_true_iff.mp h with hletter | hdigit
  · have hrange : 65 ≤ c.toNat ∧ c.toNat ≤ 122 := by
      rcases Bool.or_eq_true_iff.mp hletter with hupper | hlower
      · have hcode : 65 ≤ c.toNat ∧ c.toNat ≤ 90 := of_decide_eq_true hupper
        omega
      · obtain ⟨ha, hz⟩ := Bool.and_eq_true_iff.mp hlower
        have hlow : 97 ≤ c.toNat := of_decide_eq_true ha
        have hhigh : c.toNat ≤ 122 := of_decide_eq_true hz
        omega
    unfold isBlank
    simp
    omega
  · exact (of_isDigit hdigit).2

@[simp] theorem compact_append (a b : List Char) : compact (a ++ b) = compact a ++ compact b :=
  List.filter_append a b

theorem compact_of_isAlphanum {cs : List Char} (h : ∀ c ∈ cs, c.isAlphanum = true) :
    compact cs = cs :=
  List.filter_eq_self.mpr fun c hc => by rw [isBlank_of_isAlphanum (h c hc)]; rfl

@[simp] theorem compact_decimal (n : Nat) : compact (decimal n) = decimal n :=
  compact_of_isAlphanum fun _ hc => by simp [Char.isAlphanum, isDigit_of_mem_decimal hc]

end Text

namespace Term
open Text

/-- How one byte of calldata is read: as it is, or with a bounds check in one of three shapes. -/
inductive ByteRead where
  | bare
  | conditional
  | checkLast
  | checkFirst

/-- The byte `i` of the calldata of `owner`. -/
def byteAt (owner : List Char) (i : Nat) : Read := ⟨owner, decimal i⟩

/-- The check that byte `i` of the calldata is there. -/
def byteCheck (owner : List Char) (i : Nat) : List Char :=
  sizeCheck (owner ++ ['_']) (decimal i)

def ByteRead.render (owner : List Char) (i : Nat) : ByteRead → List Char
  | bare => (byteAt owner i).render
  | conditional => ifCall.withArgs (joined [byteCheck owner i, ['0'], (byteAt owner i).render])
  | checkLast => orCall.withArgs (joined [zeroTest (byteAt owner i).render, byteCheck owner i])
  | checkFirst => orCall.withArgs (joined [byteCheck owner i, zeroTest (byteAt owner i).render])

/-- Bytes from `first` on, put together behind `padding` zeros. -/
def word (owner : List Char) (padding first : Nat) (bytes : List ByteRead) : List Char :=
  concatCall.withArgs (joined (List.replicate padding ['0'] ++
    bytes.mapIdx fun k byte => byte.render owner (first + k)))

/-- The index of one read of all bytes from `first` to `last`. -/
def spanIndex (first last : Nat) : List Char :=
  if first = last then decimal first else decimal first ++ ':' :: decimal last

theorem isNameChar_of_isAlphanum {c : Char} (h : c.isAlphanum = true) : isNameChar c = true := by
  simp [isNameChar, h]

theorem isArg_decimal (i : Nat) : IsArg (decimal i) :=
  .of_word fun c hc => isNameChar_of_isAlphanum (by
    simp [Char.isAlphanum, isDigit_of_mem_decimal hc])

theorem isBound_decimal (i : Nat) : IsBound (decimal i) where
  isArg := isArg_decimal i
  isLine := by
    have hne : decimal i ≠ [] := Nat.toDigits_ne_nil
    simp [isLine, hne, not_mem_decimal (c := '\n') rfl i]
  orFree := callFree_of_absent (by decide : '(' ∈ _) (not_mem_decimal rfl i)
  ifFree := callFree_of_absent (by decide : '(' ∈ _) (not_mem_decimal rfl i)

theorem isArg_spanIndex (first last : Nat) : IsArg (spanIndex first last) := by
  rw [spanIndex]
  split
  · exact isArg_decimal first
  · exact (isArg_decimal first).append (.plain rfl rfl (by decide) (isArg_decimal last))

theorem not_mem_spanIndex {c : Char} (hdigit : c.isDigit = false) (hcolon : c ≠ ':')
    (first last : Nat) : c ∉ spanIndex first last := by
  rw [spanIndex]
  split
  · exact not_mem_decimal hdigit first
  · simp [not_mem_decimal hdigit, hcolon]

section Owner

variable {owner : List Char} (howner : IsOwner owner)
include howner

theorem IsOwner.isNameChar {c : Char} (hc : c ∈ owner) : isNameChar c = true :=
  isNameChar_of_isAlphanum (howner.isAlphanum c hc)

theorem IsOwner.not_mem {c : Char} (hc : c.isAlphanum = false) : c ∉ owner := by
  intro hmem
  rw [howner.isAlphanum c hmem] at hc
  cases hc

/-- The names of calldata and of its size start with the owner. -/
theorem IsOwner.isNameChar_append {more : List Char} (h : more.all Term.isNameChar = true) :
    ∀ c ∈ owner ++ more, Term.isNameChar c = true := by
  intro c hc
  rcases List.mem_append.mp hc with hc | hc
  · exact howner.isNameChar hc
  · exact List.all_eq_true.mp h c hc

/-! ### Reads -/

omit howner in
theorem render_eq_append (index : List Char) :
    Read.render ⟨owner, index⟩ = owner ++ "_calldata".toList ++ ('[' :: index ++ ']' :: []) := by
  have hopening : readOpening = "_calldata".toList ++ ['['] := rfl
  rw [Read.render, Read.renderAt, hopening]
  simp only [List.append_assoc, List.cons_append, List.nil_append]

/-- A read is an argument of its own, whatever its index. -/
theorem isArg_render {index : List Char} (hindex : Nested (fun _ => True) index) :
    IsArg (Read.render ⟨owner, index⟩) := by
  have hgroup : IsArg ('[' :: index ++ ']' :: []) := .group rfl hindex .nil
  rw [render_eq_append]
  exact (Nested.of_word (howner.isNameChar_append (by decide))).append hgroup

theorem not_mem_render {index : List Char} (hindex : '(' ∉ index) :
    '(' ∉ Read.render ⟨owner, index⟩ := by
  have hopening : '(' ∉ readOpening := by decide
  simp [Read.render, Read.renderAt, howner.not_mem (c := '(') rfl, hopening, hindex]

theorem isArg_byteAt (i : Nat) : IsArg (byteAt owner i).render :=
  isArg_render howner ((isArg_decimal i).mono fun _ _ => trivial)

theorem not_mem_byteAt (i : Nat) : '(' ∉ (byteAt owner i).render :=
  not_mem_render howner (not_mem_decimal rfl i)

/-- The name in front of a bracket is no size that is compared. -/
theorem isSizeGuard_zeroTest_byteAt (i : Nat) :
    isSizeGuard (zeroTest (byteAt owner i).render) = false := by
  have hdrop : (zeroTest (byteAt owner i).render).dropWhile isNameChar =
      '[' :: decimal i ++ ']' :: [] ++ ['=', '=', '0'] := by
    rw [zeroTest, byteAt, render_eq_append, List.append_assoc,
      List.dropWhile_append_of_pos (howner.isNameChar_append (by decide))]
    exact List.dropWhile_cons_of_neg (by decide)
  rw [isSizeGuard, hdrop]
  exact Bool.and_false _

/-! ### Bytes without their checks -/

theorem isArg_byteCheck (i : Nat) : IsArg (byteCheck owner i) :=
  isArg_sizeCheck (howner.isNameChar_append (by decide)) (isArg_decimal i)

theorem isArg_byteRead (i : Nat) (byte : ByteRead) : IsArg (byte.render owner i) := by
  have hread := isArg_byteAt howner i
  have hcheck := isArg_byteCheck howner i
  have hcall : ∀ {callee : Callee} {args : List (List Char)},
      (∀ c ∈ callee.chars, isNameChar c = true) → (∀ a ∈ args, IsArg a) →
      IsArg (callee.withArgs (joined args)) :=
    fun hname hargs => .withArgs (.of_word hname) (nested_joined hargs)
  cases byte with
  | bare => exact hread
  | conditional => exact hcall isNameChar_ifCall (by simpa using ⟨hcheck, isArg_zero, hread⟩)
  | checkLast => exact hcall isNameChar_orCall (by simpa using ⟨isArg_zeroTest hread, hcheck⟩)
  | checkFirst => exact hcall isNameChar_orCall (by simpa using ⟨hcheck, isArg_zeroTest hread⟩)

/-- Each shape of a checked read becomes the read. -/
theorem unwrapGuards_byteRead (i : Nat) (byte : ByteRead) :
    unwrapGuards (byte.render owner i) = (byteAt owner i).render := by
  have hread := isArg_byteAt howner i
  have hname : ∀ c ∈ owner ++ ['_'], isNameChar c = true := howner.isNameChar_append (by decide)
  have hround := not_mem_byteAt howner i
  have hstays := unwrapGuards_of_absent hround
  cases byte with
  | bare => exact hstays
  | conditional => exact (unwrapGuards_conditional hread hname (isBound_decimal i)).trans hstays
  | checkLast => exact (unwrapGuards_checkLast hread hname (isBound_decimal i)).trans hstays
  | checkFirst =>
    refine (unwrapGuards_checkFirst hread hname (isBound_decimal i) ?_).trans hstays
    rw [mapCalls_of_callFree (callFree_of_absent (by decide : '(' ∈ _) hround)]
    exact isSizeGuard_zeroTest_byteAt howner i

end Owner

/-! ### A concatenation of plain parts -/

/-- A concatenation without calls in its parts becomes the row of its parts. -/
theorem unwrapValues_concat {args : List (List Char)} (hargs : ∀ a ∈ args, IsArg a)
    (hround : ∀ a ∈ args, '(' ∉ a) :
    unwrapValues (concatCall.withArgs (joined args)) = joined args := by
  have hstays : ∀ callee replace, args.map (mapCalls callee replace) = args := by
    intro callee replace
    refine (List.map_congr_left fun a ha => ?_).trans (List.map_id args)
    exact mapCalls_of_callFree (callFree_of_absent (by simp [Callee.opening]) (hround a ha))
  have hname := isNameChar_valueCalls concatCall (by simp [valueCalls])
  have hother : ∀ callee ∈ valueCalls, concatCall.chars ≠ callee.chars → ∀ replace,
      mapCalls callee replace (concatCall.withArgs (joined args)) =
        concatCall.withArgs (joined args) := by
    intro callee hcallee hne replace
    rw [mapCalls_other_joined (isNameChar_valueCalls callee hcallee) hname hne hargs, hstays]
  rw [unwrapValues, hother selectCall (by simp [valueCalls]) (by decide),
    hother storeCall (by simp [valueCalls]) (by decide),
    hother zeroExtCall (by simp [valueCalls]) (by decide), mapCalls_withArgs (nested_joined hargs),
    mapCalls_joined hname hargs, hstays]
  exact joined_splitArgs _

theorem unwrapValues_of_absent {text : List Char} (h : '(' ∉ text) : unwrapValues text = text := by
  have hstays : ∀ callee replace, mapCalls callee replace text = text := fun callee replace =>
    mapCalls_of_callFree (callFree_of_absent (by simp [Callee.opening]) h)
  rw [unwrapValues, hstays, hstays, hstays, hstays]

/-! ### Padding -/

theorem forall_mem_padded {P : List Char → Prop} (padding : Nat) {args : List (List Char)}
    (hzero : P ['0']) (hargs : ∀ a ∈ args, P a) :
    ∀ a ∈ List.replicate padding ['0'] ++ args, P a := by
  intro a ha
  rcases List.mem_append.mp ha with ha | ha
  · rwa [List.eq_of_mem_replicate ha]
  · exact hargs a ha

/-- Zeros, each with a comma behind it. -/
def zeros (n : Nat) : List Char := (List.replicate n ['0', ',']).flatten

theorem zeros_succ (n : Nat) : zeros (n + 1) = '0' :: ',' :: zeros n := rfl

theorem joined_padded (n : Nat) {args : List (List Char)} (hne : args ≠ []) :
    joined (List.replicate n ['0'] ++ args) = zeros n ++ joined args := by
  induction n with
  | zero => rfl
  | succ n ih =>
    rw [List.replicate_succ, List.cons_append, joined_cons (by simp [hne]), ih, zeros_succ]
    rfl

theorem getLast?_zeros (n : Nat) : (zeros n).getLast?.any Char.isAlphanum = false := by
  induction n with
  | zero => rfl
  | succ n ih =>
    rw [zeros_succ, List.getLast?_cons, List.getLast?_cons]
    cases hlast : (zeros n).getLast? with
    | none => rfl
    | some c => simpa [hlast] using ih

theorem not_mem_zeros {c : Char} (hzero : c ≠ '0') (hcomma : c ≠ ',') (n : Nat) : c ∉ zeros n := by
  simp [zeros, hzero, hcomma]

theorem dropPadding_zeros (n : Nat) (cs : List Char) :
    dropPadding (zeros n ++ cs) = dropPadding cs := by
  induction n with
  | zero => rfl
  | succ n ih =>
    rw [zeros_succ, List.cons_append, List.cons_append, dropPadding]
    exact ih

section Owner

variable {owner : List Char} (howner : IsOwner owner)
include howner

theorem dropPadding_render (index : List Char) :
    dropPadding (Read.render ⟨owner, index⟩) = Read.render ⟨owner, index⟩ := by
  rw [dropPadding]
  intro cs htext
  have hopening : readOpening = '_' :: "calldata[".toList := rfl
  rw [Read.render, Read.renderAt, hopening] at htext
  have hcomma := howner.not_mem (c := ',') rfl
  -- Behind a single zero stands the underscore, and in a longer name there is no comma.
  rcases owner with _ | ⟨c, _ | ⟨d, more⟩⟩
  · exact howner.nonempty rfl
  · simp at htext
  · simp only [List.cons_append, List.cons.injEq] at htext
    simp [htext.2.1] at hcomma

/-! ### Merging the bytes -/

theorem isPlain_byteAt (i : Nat) : (byteAt owner i).IsPlain where
  owner := howner
  nested := (isArg_decimal i).mono fun _ _ => trivial
  flat := not_mem_decimal rfl i

omit howner in
theorem bound_byteAt {i : Nat} (h : i < wordBound) : (byteAt owner i).bound = decimal i := by
  rw [Read.bound, byteAt, place?_decimal h]
  rfl

omit howner in
/-- Bytes that follow each other in the calldata are read one after the other. -/
theorem isChain_bytes (first n : Nat) (h : first + n < wordBound) :
    ((List.range' first (n + 1)).map (byteAt owner)).IsChain
      fun r s => r.precedes s = true := by
  induction n generalizing first with
  | zero => exact .singleton _
  | succ n ih =>
    have hrest := ih (first + 1) (by omega)
    rw [List.range'_succ, List.map_cons] at hrest ⊢
    rw [List.range'_succ, List.map_cons]
    refine List.isChain_cons_cons.mpr ⟨?_, hrest⟩
    rw [Read.precedes, byteAt, byteAt, place?_decimal (by omega), place?_decimal (by omega)]
    simp [Place.next]

/-- A row of bytes becomes one read from the first to the last. -/
theorem mergeReads_bytes {gap : List Char} (hgap : '_' ∉ gap)
    (hlast : gap.getLast?.any Char.isAlphanum = false) (first n : Nat)
    (h : first + n < wordBound) :
    mergeReads (gap ++ joined ((List.range' first (n + 1)).map fun i => (byteAt owner i).render)) =
      gap ++ Read.render ⟨owner, spanIndex first (first + n)⟩ := by
  have hplain : ∀ r ∈ byteAt owner first :: (List.range' (first + 1) n).map (byteAt owner),
      r.IsPlain := by
    intro r hr
    rcases List.mem_cons.mp hr with rfl | hr
    · exact isPlain_byteAt howner first
    · obtain ⟨i, -, rfl⟩ := List.mem_map.mp hr
      exact isPlain_byteAt howner i
  have hrow : (List.range' first (n + 1)).map (fun i => (byteAt owner i).render) =
      (byteAt owner first :: (List.range' (first + 1) n).map (byteAt owner)).map Read.render := by
    simp [List.range'_succ]
  have hchain : (byteAt owner first :: (List.range' (first + 1) n).map (byteAt owner)).IsChain
      fun r s => r.precedes s = true := isChain_bytes first n h
  rw [hrow, mergeReads_row hplain hchain hgap hlast, List.getLast?_map, List.getLast?_range']
  cases n with
  | zero => simp [Run.render_single, spanIndex, byteAt, Read.render]
  | succ n =>
    have hne : first ≠ first + (n + 1) := by omega
    have hend : first + 1 + (n + 1) - 1 = first + (n + 1) := by omega
    simp only [if_false, Option.map_some, Nat.add_one_ne_zero]
    rw [hend, Run.render_range, bound_byteAt (by omega), bound_byteAt (by omega), Read.render,
      spanIndex, if_neg hne]
    rfl

/-! ### Words -/

theorem unwrapGuards_word (padding first : Nat) (bytes : List ByteRead) :
    unwrapGuards (word owner padding first bytes) =
      concatCall.withArgs (joined (List.replicate padding ['0'] ++
        (List.range' first bytes.length).map fun i => (byteAt owner i).render)) := by
  have hargs : ∀ a ∈ List.replicate padding ['0'] ++
      bytes.mapIdx (fun k byte => byte.render owner (first + k)), IsArg a := by
    refine forall_mem_padded padding isArg_zero fun a ha => ?_
    obtain ⟨k, hk, rfl⟩ := List.mem_mapIdx.mp ha
    exact isArg_byteRead howner _ _
  have hzero : unwrapGuards ['0'] = ['0'] := unwrapGuards_of_absent (by decide)
  have hbytes : (bytes.mapIdx fun k byte => byte.render owner (first + k)).map unwrapGuards =
      (List.range' first bytes.length).map fun i => (byteAt owner i).render := by
    refine List.ext_getElem (by simp) fun k _ _ => ?_
    simp [unwrapGuards_byteRead howner]
  have hname := isNameChar_valueCalls concatCall (by simp [valueCalls])
  rw [word, unwrapGuards_withArgs hname (by decide) (by decide) hargs, List.map_append,
    List.map_replicate, hzero, hbytes]

/-- One round is enough for a word. -/
theorem round_word (padding first n : Nat) {bytes : List ByteRead} (hlength : bytes.length = n + 1)
    (hbound : first + n < wordBound) :
    round (word owner padding first bytes) =
      Read.render ⟨owner, spanIndex first (first + n)⟩ := by
  have hparts : ∀ a ∈ List.replicate padding ['0'] ++
      (List.range' first (n + 1)).map (fun i => (byteAt owner i).render), IsArg a ∧ '(' ∉ a := by
    refine forall_mem_padded padding ⟨isArg_zero, by decide⟩ fun a ha => ?_
    obtain ⟨i, -, rfl⟩ := List.mem_map.mp ha
    exact ⟨isArg_byteAt howner i, not_mem_byteAt howner i⟩
  rw [round, unwrapGuards_word howner, hlength,
    unwrapValues_concat (fun a ha => (hparts a ha).1) (fun a ha => (hparts a ha).2),
    joined_padded padding (by simp), mergeReads_bytes howner
      (not_mem_zeros (by decide) (by decide) padding) (getLast?_zeros padding) first n hbound,
    dropPadding_zeros, dropPadding_render howner]

/-- A read with no reads and no calls in its index is as simple as it can be. -/
theorem isFixedPt_round_render {index : List Char} (hnested : Nested (fun _ => True) index)
    (hsquare : '[' ∉ index) (hround : '(' ∉ index) :
    Function.IsFixedPt round (Read.render ⟨owner, index⟩) := by
  have hcalls := not_mem_render howner hround
  have hmerge : mergeReads (Read.render ⟨owner, index⟩) = Read.render ⟨owner, index⟩ := by
    have hplain : ∀ r ∈ [(⟨owner, index⟩ : Read)], r.IsPlain := by
      simpa using (⟨howner, hnested, hsquare⟩ : Read.IsPlain ⟨owner, index⟩)
    have hrow := mergeReads_row hplain (.singleton _) (List.not_mem_nil (a := '_')) rfl
    simpa [joined, List.intercalate, Run.render_single, Read.render] using hrow
  change round _ = _
  rw [round, unwrapGuards_of_absent hcalls, unwrapValues_of_absent hcalls,
    hmerge, dropPadding_render howner]

/-! ### Blanks -/

omit howner in
@[simp] theorem compact_joined (args : List (List Char)) :
    compact (joined args) = joined (args.map compact) := by
  have hcomma : compact [','] = [','] := by decide
  induction args with
  | nil => rfl
  | cons a args ih =>
    by_cases hne : args = []
    · simp [hne, joined, List.intercalate]
    · rw [joined_cons hne, List.map_cons, joined_cons (by simpa using hne), ← ih,
        ← List.singleton_append, compact_append, compact_append, hcomma]
      rfl

omit howner in
theorem compact_withArgs {callee : Callee} (h : compact callee.opening = callee.opening)
    (inside : List Char) : compact (callee.withArgs inside) = callee.withArgs (compact inside) := by
  have hclose : compact [')'] = [')'] := by decide
  simp [Callee.withArgs, h, hclose]

theorem compact_byteRead (i : Nat) (byte : ByteRead) :
    compact (byte.render owner i) = byte.render owner i := by
  have howner' : compact owner = owner := compact_of_isAlphanum howner.isAlphanum
  have hopening : compact readOpening = readOpening := by decide
  have hread : compact (byteAt owner i).render = (byteAt owner i).render := by
    have hclose : compact [']'] = [']'] := by decide
    simp [byteAt, Read.render, Read.renderAt, howner', hopening, hclose]
  have hcheck : compact (byteCheck owner i) = byteCheck owner i := by
    have hmark : compact ['_'] = ['_'] := by decide
    have hless : compact "calldatasize<=".toList = "calldatasize<=".toList := by decide
    simp only [byteCheck, sizeCheck, compact_append, howner', hmark, hless, compact_decimal]
  have htest : compact (zeroTest (byteAt owner i).render) = zeroTest (byteAt owner i).render := by
    rw [zeroTest, compact_append, hread]
    rfl
  have hzero : compact ['0'] = ['0'] := by decide
  cases byte with
  | bare => exact hread
  | conditional =>
    rw [ByteRead.render, compact_withArgs (by decide), compact_joined]
    simp [hcheck, hzero, hread]
  | checkLast =>
    rw [ByteRead.render, compact_withArgs (by decide), compact_joined]
    simp [hcheck, htest]
  | checkFirst =>
    rw [ByteRead.render, compact_withArgs (by decide), compact_joined]
    simp [hcheck, htest]

theorem compact_word (padding first : Nat) (bytes : List ByteRead) :
    compact (word owner padding first bytes) = word owner padding first bytes := by
  have hzero : compact ['0'] = ['0'] := by decide
  have hbytes : (bytes.mapIdx fun k byte => byte.render owner (first + k)).map compact =
      bytes.mapIdx fun k byte => byte.render owner (first + k) := by
    refine List.ext_getElem (by simp) fun k _ _ => ?_
    simp [compact_byteRead howner]
  rw [word, compact_withArgs (by decide), compact_joined, List.map_append, List.map_replicate,
    hzero, hbytes]

/-- Whichever way each of its bytes is checked, and whatever its padding, a word from the calldata
is a read of its bytes. -/
theorem canonical_word (padding first : Nat) {bytes : List ByteRead} (hne : bytes ≠ [])
    (hbound : first + bytes.length - 1 < wordBound) :
    canonical (String.ofList (word owner padding first bytes)) =
      String.ofList (Read.render ⟨owner,
        if bytes.length = 1 then decimal first
        else decimal first ++ ':' :: decimal (first + bytes.length - 1)⟩) := by
  obtain ⟨n, hlength⟩ := Nat.exists_eq_succ_of_ne_zero (List.length_pos_iff.mpr hne).ne'
  have hlast : first + bytes.length - 1 = first + n := by omega
  have hindex : (if bytes.length = 1 then decimal first
      else decimal first ++ ':' :: decimal (first + n)) = spanIndex first (first + n) := by
    rw [spanIndex]
    exact if_congr (by omega) rfl rfl
  have hfixed := isFixedPt_round_render howner
    ((isArg_spanIndex first (first + n)).mono fun _ _ => trivial)
    (not_mem_spanIndex (by decide) (by decide) first (first + n))
    (not_mem_spanIndex (by decide) (by decide) first (first + n))
  rw [hlast] at hbound ⊢
  rw [← String.toList_inj, toList_canonical, String.toList_ofList, String.toList_ofList,
    compact_word howner, hindex, roundLimit, Function.iterate_succ_apply,
    round_word howner padding first n hlength hbound]
  exact Function.IsFixedPt.iterate hfixed 63

end Owner

/-- The last four bytes that have a number, each read in its own way. -/
theorem canonical_word_lastBytes :
    let bytes : List ByteRead := [.checkFirst, .bare, .conditional, .checkLast]
    IsOwner ['t', '1'] ∧ bytes ≠ [] ∧ 18446744073709551612 + bytes.length - 1 < wordBound ∧
      canonical (String.ofList (word ['t', '1'] 28 18446744073709551612 bytes)) =
        "t1_calldata[18446744073709551612:18446744073709551615]" := by
  have howner : IsOwner ['t', '1'] := ⟨by decide, List.all_eq_true.mp (by decide)⟩
  exact ⟨howner, by decide, by decide,
    (canonical_word howner 28 18446744073709551612 (by decide) (by decide)).trans (by decide)⟩

end Term

end OperandFlow
