import OperandFlow.Proofs.Term.Calls

/-! A bounds check around a value goes away in each of its shapes, and what is left is what the
value alone becomes, whatever checks it holds itself. -/
namespace OperandFlow

namespace Text

theorem stripBack?_append (front back : List Char) :
    stripBack? back (front ++ back) = some front := by
  rw [stripBack?, List.reverse_append, stripFront?_append]
  simp

theorem eq_append_of_stripBack? {back text front : List Char}
    (h : stripBack? back text = some front) : text = front ++ back := by
  obtain ⟨rest, hrest, rfl⟩ := Option.map_eq_some_iff.mp h
  simpa using congrArg List.reverse (eq_append_of_stripFront? hrest)

end Text

namespace Term
open Text

/-- The comparison of a calldata size with `bound`, where `owner` is the front of the size's
name. -/
def sizeCheck (owner bound : List Char) : List Char :=
  owner ++ "calldatasize<=".toList ++ bound

/-- The comparison of `x` with zero. -/
def zeroTest (x : List Char) : List Char :=
  x ++ ['=', '=', '0']

/-- A bound that no rewriting of checks touches. -/
structure IsBound (bound : List Char) : Prop where
  isArg : IsArg bound
  isLine : isLine bound = true
  orFree : CallFree orCall bound
  ifFree : CallFree ifCall bound

theorem isNameChar_orCall : ∀ c ∈ orCall.chars, isNameChar c = true :=
  List.all_eq_true.mp (by decide)

theorem isNameChar_ifCall : ∀ c ∈ ifCall.chars, isNameChar c = true :=
  List.all_eq_true.mp (by decide)

/-! ### Size checks and comparisons with zero -/

theorem zeroTest?_zeroTest (x : List Char) : zeroTest? (zeroTest x) = some x :=
  stripBack?_append x _

theorem isArg_zeroTest {x : List Char} (hx : IsArg x) : IsArg (zeroTest x) :=
  hx.append (.of_all (by decide))

theorem isArg_of_zeroTest? {a x : List Char} (ha : IsArg a) (h : zeroTest? a = some x) :
    IsArg x := by
  rw [eq_append_of_stripBack? h] at ha
  exact ha.of_append_plain (by simp [isCloser])

theorem isSizeGuard_sizeCheck {owner bound : List Char}
    (howner : ∀ c ∈ owner, isNameChar c = true) (hbound : isLine bound = true) :
    isSizeGuard (sizeCheck owner bound) = true := by
  have hname : ∀ c ∈ owner ++ "calldatasize".toList, isNameChar c = true := by
    intro c hc
    rcases List.mem_append.mp hc with hc | hc
    · exact howner c hc
    · exact List.all_eq_true.mp (by decide : "calldatasize".toList.all isNameChar = true) c hc
  have htext : sizeCheck owner bound =
      (owner ++ "calldatasize".toList) ++ '<' :: '=' :: bound := by simp [sizeCheck]
  have hdrop : (sizeCheck owner bound).dropWhile isNameChar = '<' :: '=' :: bound := by
    rw [htext, List.dropWhile_append_of_pos hname, List.dropWhile_cons_of_neg (by decide)]
  rw [isSizeGuard, hdrop, htext, takeWhile_word hname rfl, stripBack?_append]
  exact hbound

theorem exists_eq_sizeCheck {cs : List Char} (h : isSizeGuard cs = true) :
    ∃ owner bound, (∀ c ∈ owner, isNameChar c = true) ∧ isLine bound = true ∧
      cs = sizeCheck owner bound := by
  rw [isSizeGuard, Bool.and_eq_true] at h
  obtain ⟨owner, howner⟩ := Option.isSome_iff_exists.mp h.1
  have hword := eq_append_of_stripBack? howner
  have hname : ∀ c ∈ owner, isNameChar c = true := fun c hc =>
    List.all_eq_true.mp List.all_takeWhile c (hword ▸ List.mem_append_left _ hc)
  have hline := h.2
  split at hline
  · next bound hdrop =>
    refine ⟨owner, bound, hname, hline, ?_⟩
    rw [← List.takeWhile_append_dropWhile (p := isNameChar) (l := cs), hword, hdrop]
    simp [sizeCheck]
  · cases hline

/-- A check that breaks off before its bound. -/
def IsCutCheck (x : List Char) : Prop :=
  ∃ owner, (∀ c ∈ owner, isNameChar c = true) ∧
    (x = owner ++ "calldatasize<".toList ∨ x = owner ++ "calldatasize<=".toList)

/-- A comparison with zero reads as a check only if what is compared does, or if it is a check whose
bound the comparison makes up. -/
theorem isSizeGuard_or_isCutCheck {x : List Char} (h : isSizeGuard (zeroTest x) = true) :
    isSizeGuard x = true ∨ IsCutCheck x := by
  obtain ⟨owner, bound, howner, hbound, htext⟩ := exists_eq_sizeCheck h
  rcases List.append_eq_append_iff.mp htext with ⟨back, hcheck, hback⟩ | ⟨front, hx, hfront⟩
  · -- The comparison reaches into the check, by its first sign at most.
    have hsign : owner ++ "calldatasize<=".toList = owner ++ "calldatasize<".toList ++ ['='] := by
      rw [List.append_assoc]
      rfl
    rcases back with _ | ⟨c, _ | ⟨d, _ | ⟨e, back⟩⟩⟩
    · exact Or.inr ⟨owner, howner, Or.inr (by simpa using hcheck.symm)⟩
    · obtain ⟨rfl, -⟩ : '=' = c ∧ _ := by simpa using hback
      rw [hsign] at hcheck
      exact Or.inr ⟨owner, howner, Or.inl (List.append_cancel_right hcheck).symm⟩
    · obtain ⟨rfl, rfl, -⟩ : '=' = c ∧ '=' = d ∧ _ := by simpa using hback
      rw [hsign, List.append_cons x '=' ['=']] at hcheck
      have hlast := congrArg List.getLast? (List.append_cancel_right hcheck)
      simp at hlast
    · obtain ⟨-, -, -, -, rfl⟩ : '=' = c ∧ '=' = d ∧ '0' = e ∧ back = [] ∧ bound = [] := by
        simpa using hback
      cases hbound
  · rw [hfront] at hbound
    by_cases hempty : front = []
    · exact Or.inr ⟨owner, howner, Or.inr (by simpa [hempty] using hx)⟩
    · have hline : isLine front = true := by
        simp only [isLine] at hbound ⊢
        simpa [hempty] using hbound
      rw [hx]
      exact Or.inl (isSizeGuard_sizeCheck howner hline)

theorem isArg_sizeCheck {owner bound : List Char} (howner : ∀ c ∈ owner, isNameChar c = true)
    (hbound : IsArg bound) : IsArg (sizeCheck owner bound) :=
  ((Nested.of_word howner).append (.of_all (by decide))).append hbound

section Calls

variable {callee : Callee} {replace : List (List Char) → Option (List Char)}
  (hname : ∀ c ∈ callee.chars, isNameChar c = true)
include hname

theorem mapCalls_zeroTest {x : List Char} (hx : IsArg x) :
    mapCalls callee replace (zeroTest x) = zeroTest (mapCalls callee replace x) := by
  have hrest : mapCalls callee replace ['=', '0'] = ['=', '0'] :=
    mapCalls_of_callFree (callFree_of_absent (by simp [Callee.opening]) (by decide : '(' ∉ _))
  rw [zeroTest, mapCalls_append_cons hname hx rfl (by decide), hrest]
  rfl

/-- A size check stays if its bound has no calls. -/
theorem mapCalls_sizeCheck {owner bound : List Char} (howner : ∀ c ∈ owner, isNameChar c = true)
    (hbound : CallFree callee bound) :
    mapCalls callee replace (sizeCheck owner bound) = sizeCheck owner bound := by
  have htext : sizeCheck owner bound = (owner ++ "calldatasize<".toList) ++ '=' :: bound := by
    simp [sizeCheck]
  have hfront : IsArg (owner ++ "calldatasize<".toList) :=
    (Nested.of_word howner).append (.of_all (by decide))
  have hround : '(' ∉ owner ++ "calldatasize<".toList := by
    intro hmem
    rcases List.mem_append.mp hmem with hmem | hmem
    · exact absurd (howner _ hmem) (by decide)
    · exact absurd hmem (by decide)
  have hfree : CallFree callee (owner ++ "calldatasize<".toList) :=
    callFree_of_absent (by simp [Callee.opening]) hround
  rw [htext, mapCalls_append_cons hname hfront rfl (by decide), mapCalls_of_callFree hfree,
    mapCalls_of_callFree hbound]

end Calls

/-! ### The two rewritings keep texts nested -/

theorem isArg_disjunctionValue? (args : List (List Char)) (out : List Char)
    (hargs : ∀ a ∈ args, IsArg a) (h : disjunctionValue? args = some out) : IsArg out := by
  unfold disjunctionValue? at h
  split at h
  · next a b =>
    split at h
    · exact isArg_of_zeroTest? (hargs a (by simp)) h
    · split at h
      · exact isArg_of_zeroTest? (hargs b (by simp)) h
      · cases h
  · cases h

theorem isArg_conditionalValue? (args : List (List Char)) (out : List Char)
    (hargs : ∀ a ∈ args, IsArg a) (h : conditionalValue? args = some out) : IsArg out := by
  unfold conditionalValue? at h
  split at h
  · next guard zero value =>
    split at h
    · obtain rfl := Option.some.inj h
      exact hargs value (by simp)
    · cases h
  · cases h

/-- The arguments of a call that is no check lose their checks one by one. -/
theorem unwrapGuards_withArgs {other : Callee} (hother : ∀ c ∈ other.chars, isNameChar c = true)
    (hor : other.chars ≠ orCall.chars) (hif : other.chars ≠ ifCall.chars)
    {args : List (List Char)} (hargs : ∀ a ∈ args, IsArg a) :
    unwrapGuards (other.withArgs (joined args)) =
      other.withArgs (joined (args.map unwrapGuards)) := by
  rw [unwrapGuards, mapCalls_other_joined isNameChar_orCall hother hor hargs,
    mapCalls_other_joined isNameChar_ifCall hother hif
      (isArg_of_mem_map_mapCalls isNameChar_orCall isArg_disjunctionValue? hargs), List.map_map]
  rfl

theorem unwrapGuards_of_absent {text : List Char} (h : '(' ∉ text) : unwrapGuards text = text := by
  have hfree : ∀ callee, CallFree callee text := fun callee =>
    callFree_of_absent (by simp [Callee.opening]) h
  rw [unwrapGuards, mapCalls_of_callFree (hfree orCall), mapCalls_of_callFree (hfree ifCall)]

/-! ### Checked values -/

section Checked

variable {x owner bound : List Char} (hx : IsArg x)
  (howner : ∀ c ∈ owner, isNameChar c = true) (hbound : IsBound bound)
include hx howner hbound

/-- In a disjunction that ends with the check, it goes away. -/
theorem mapCalls_or_checkLast :
    mapCalls orCall disjunctionValue?
        (orCall.withArgs (joined [zeroTest x, sizeCheck owner bound])) =
      mapCalls orCall disjunctionValue? x := by
  have hargs : ∀ a ∈ [zeroTest x, sizeCheck owner bound], IsArg a := by
    simpa using ⟨isArg_zeroTest hx, isArg_sizeCheck howner hbound.isArg⟩
  have hvalue : disjunctionValue? [zeroTest (mapCalls orCall disjunctionValue? x),
      sizeCheck owner bound] = some (mapCalls orCall disjunctionValue? x) := by
    rw [disjunctionValue?, if_pos (isSizeGuard_sizeCheck howner hbound.isLine), zeroTest?_zeroTest]
  rw [mapCalls_withArgs_joined isNameChar_orCall (by simp) hargs
    (isArg_of_mem_map_mapCalls isNameChar_orCall isArg_disjunctionValue? hargs)]
  simp only [List.map_cons, List.map_nil]
  rw [mapCalls_zeroTest isNameChar_orCall hx,
    mapCalls_sizeCheck isNameChar_orCall howner hbound.orFree, hvalue]
  rfl

/-- The end of a disjunction is looked at first, so that a check at its start goes away only if the
comparison does not read as a check too. -/
theorem mapCalls_or_checkFirst
    (hguard : isSizeGuard (zeroTest (mapCalls orCall disjunctionValue? x)) = false) :
    mapCalls orCall disjunctionValue?
        (orCall.withArgs (joined [sizeCheck owner bound, zeroTest x])) =
      mapCalls orCall disjunctionValue? x := by
  have hargs : ∀ a ∈ [sizeCheck owner bound, zeroTest x], IsArg a := by
    simpa using ⟨isArg_sizeCheck howner hbound.isArg, isArg_zeroTest hx⟩
  have hvalue : disjunctionValue? [sizeCheck owner bound,
      zeroTest (mapCalls orCall disjunctionValue? x)] =
        some (mapCalls orCall disjunctionValue? x) := by
    rw [disjunctionValue?, if_neg (by simp [hguard]),
      if_pos (isSizeGuard_sizeCheck howner hbound.isLine), zeroTest?_zeroTest]
  rw [mapCalls_withArgs_joined isNameChar_orCall (by simp) hargs
    (isArg_of_mem_map_mapCalls isNameChar_orCall isArg_disjunctionValue? hargs)]
  simp only [List.map_cons, List.map_nil]
  rw [mapCalls_zeroTest isNameChar_orCall hx,
    mapCalls_sizeCheck isNameChar_orCall howner hbound.orFree, hvalue]
  rfl

theorem unwrapGuards_conditional :
    unwrapGuards (ifCall.withArgs (joined [sizeCheck owner bound, ['0'], x])) =
      unwrapGuards x := by
  have hcheck : IsArg (sizeCheck owner bound) := isArg_sizeCheck howner hbound.isArg
  have hzero : IsArg ['0'] := .of_all (by decide)
  have hstays : ∀ callee replace, mapCalls callee replace ['0'] = ['0'] := fun callee replace =>
    mapCalls_of_callFree (callFree_of_absent (by simp [Callee.opening]) (by decide : '(' ∉ _))
  have hvalue : ∀ value, conditionalValue? [sizeCheck owner bound, ['0'], value] = some value :=
    fun value => by
      rw [conditionalValue?, if_pos ⟨rfl, isSizeGuard_sizeCheck howner hbound.isLine⟩]
  have hor : mapCalls orCall disjunctionValue?
      (ifCall.withArgs (joined [sizeCheck owner bound, ['0'], x])) =
        ifCall.withArgs (joined [sizeCheck owner bound, ['0'],
          mapCalls orCall disjunctionValue? x]) := by
    rw [mapCalls_other_joined isNameChar_orCall isNameChar_ifCall (by decide)
      (by simpa using ⟨hcheck, hzero, hx⟩)]
    simp only [List.map_cons, List.map_nil]
    rw [hstays, mapCalls_sizeCheck isNameChar_orCall howner hbound.orFree]
  have hargs : ∀ a ∈ [sizeCheck owner bound, ['0'], mapCalls orCall disjunctionValue? x],
      IsArg a := by
    simpa using ⟨hcheck, hzero, isArg_mapCalls isNameChar_orCall isArg_disjunctionValue? hx⟩
  rw [unwrapGuards, hor, mapCalls_withArgs_joined isNameChar_ifCall (by simp) hargs
    (isArg_of_mem_map_mapCalls isNameChar_ifCall isArg_conditionalValue? hargs)]
  simp only [List.map_cons, List.map_nil]
  rw [hstays, mapCalls_sizeCheck isNameChar_ifCall howner hbound.ifFree, hvalue]
  rfl

end Checked

theorem unwrapGuards_checkLast {x owner bound : List Char} (hx : IsArg x)
    (howner : ∀ c ∈ owner, isNameChar c = true) (hbound : IsBound bound) :
    unwrapGuards (orCall.withArgs (joined [zeroTest x, sizeCheck owner bound])) =
      unwrapGuards x := by
  rw [unwrapGuards, mapCalls_or_checkLast hx howner hbound]
  rfl

theorem unwrapGuards_checkFirst {x owner bound : List Char} (hx : IsArg x)
    (howner : ∀ c ∈ owner, isNameChar c = true) (hbound : IsBound bound)
    (hguard : isSizeGuard (zeroTest (mapCalls orCall disjunctionValue? x)) = false) :
    unwrapGuards (orCall.withArgs (joined [sizeCheck owner bound, zeroTest x])) =
      unwrapGuards x := by
  rw [unwrapGuards, mapCalls_or_checkFirst hx howner hbound hguard]
  rfl

/-- A bounds check around `x` goes away in each of its three shapes, and what is left is what `x`
alone becomes. Where the check stands first, `x` must neither be a check itself nor become one by
the comparison behind it. -/
theorem unwrapGuards_checked {x owner bound : List Char} (hx : IsArg x)
    (howner : ∀ c ∈ owner, isNameChar c = true) (hbound : IsBound bound) :
    let check := sizeCheck owner bound
    let value := mapCalls orCall disjunctionValue? x
    unwrapGuards (orCall.withArgs (joined [zeroTest x, check])) = unwrapGuards x ∧
      unwrapGuards (ifCall.withArgs (joined [check, ['0'], x])) = unwrapGuards x ∧
      (isSizeGuard value = false → ¬ IsCutCheck value →
        unwrapGuards (orCall.withArgs (joined [check, zeroTest x])) = unwrapGuards x) := by
  refine ⟨unwrapGuards_checkLast hx howner hbound, unwrapGuards_conditional hx howner hbound,
    fun hguard hcut => unwrapGuards_checkFirst hx howner hbound ?_⟩
  rw [← Bool.not_eq_true]
  intro htest
  rcases isSizeGuard_or_isCutCheck htest with h | h
  · rw [hguard] at h
    cases h
  · exact hcut h

theorem isBound_four : IsBound ['4'] where
  isArg := .of_all (by decide)
  isLine := by decide
  orFree := callFree_of_absent (by decide : '(' ∈ _) (by decide)
  ifFree := callFree_of_absent (by decide : '(' ∈ _) (by decide)

/-- A checked read. -/
def checkedRead : List Char :=
  orCall.withArgs (joined [zeroTest "3_calldata[4]".toList, sizeCheck "3_".toList ['4']])

theorem unwrapGuards_checked_twice :
    let check := sizeCheck "3_".toList ['4']
    let value := mapCalls orCall disjunctionValue? checkedRead
    isSizeGuard value = false ∧ ¬ IsCutCheck value ∧
      unwrapGuards (orCall.withArgs (joined [zeroTest checkedRead, check])) =
        unwrapGuards checkedRead ∧
      unwrapGuards (ifCall.withArgs (joined [check, ['0'], checkedRead])) =
        unwrapGuards checkedRead ∧
      unwrapGuards (orCall.withArgs (joined [check, zeroTest checkedRead])) =
        unwrapGuards checkedRead := by
  intro check value
  have howner : ∀ c ∈ "3_".toList, isNameChar c = true := List.all_eq_true.mp (by decide)
  have hread : IsArg "3_calldata[4]".toList :=
    (Nested.of_all (by decide) : IsArg "3_calldata".toList).append
      (.group rfl (.of_all (by decide) : Nested (fun _ => True) ['4']) .nil)
  have hchecked : IsArg checkedRead :=
    .withArgs (.of_all (by decide)) (nested_joined
      (by simpa using ⟨isArg_zeroTest hread, isArg_sizeCheck howner isBound_four.isArg⟩))
  have hvalue : value = "3_calldata[4]".toList := by
    rw [show value = mapCalls orCall disjunctionValue? checkedRead from rfl, checkedRead,
      mapCalls_or_checkLast hread howner isBound_four,
      mapCalls_of_callFree (callFree_of_absent (by decide : '(' ∈ _) (by decide))]
  have hguard : isSizeGuard value = false := by
    rw [hvalue]
    decide
  have hcut : ¬ IsCutCheck value := by
    rw [hvalue]
    rintro ⟨owner, -, h | h⟩
    · exact absurd (congrArg List.getLast? h) (by simp)
    · exact absurd (congrArg List.getLast? h) (by simp)
  obtain ⟨hlast, hconditional, hfirst⟩ := unwrapGuards_checked hchecked howner isBound_four
  exact ⟨hguard, hcut, hlast, hconditional, hfirst hguard hcut⟩

/-- A text that reads as a check only with the comparison behind it. The disjunction stays, although
the text alone is no check. -/
theorem unwrapGuards_unfinished_check :
    let x := "calldatasize<".toList
    IsArg x ∧ IsBound ['4'] ∧ isSizeGuard (mapCalls orCall disjunctionValue? x) = false ∧
      unwrapGuards (orCall.withArgs (joined [sizeCheck [] ['4'], zeroTest x])) ≠
        unwrapGuards x := by
  intro x
  have hx : IsArg x := .of_all (by decide)
  have hstays : ∀ callee replace, mapCalls callee replace x = x := fun callee replace =>
    mapCalls_of_callFree (callFree_of_absent (by simp [Callee.opening]) (by decide : '(' ∉ x))
  have hargs : ∀ a ∈ [sizeCheck [] ['4'], zeroTest x], IsArg a := by
    simpa using ⟨isArg_sizeCheck (by simp) isBound_four.isArg, isArg_zeroTest hx⟩
  have hmap : ∀ callee replace, (∀ c ∈ callee.chars, isNameChar c = true) →
      CallFree callee ['4'] → [sizeCheck [] ['4'], zeroTest x].map (mapCalls callee replace) =
        [sizeCheck [] ['4'], zeroTest x] := by
    intro callee replace hname hfree
    simp only [List.map_cons, List.map_nil]
    rw [mapCalls_sizeCheck hname (by simp) hfree, mapCalls_zeroTest hname hx, hstays]
  have hkept : unwrapGuards (orCall.withArgs (joined [sizeCheck [] ['4'], zeroTest x])) =
      orCall.withArgs (joined [sizeCheck [] ['4'], zeroTest x]) := by
    have hnone : disjunctionValue? [sizeCheck [] ['4'], zeroTest x] = none := by decide
    have hor := hmap orCall disjunctionValue? isNameChar_orCall isBound_four.orFree
    rw [unwrapGuards, mapCalls_withArgs_joined isNameChar_orCall (by simp) hargs (by rwa [hor]),
      hor, hnone, Option.getD_none,
      mapCalls_other_joined isNameChar_ifCall isNameChar_orCall (by decide) hargs,
      hmap _ _ isNameChar_ifCall isBound_four.ifFree]
  refine ⟨hx, isBound_four, by rw [hstays]; decide, ?_⟩
  rw [hkept, unwrapGuards, hstays, hstays]
  decide

end Term
end OperandFlow
