import OperandFlow.Proofs.Term.Words

/-! Keys of updates. A read passes an update by if their keys differ as texts at the moment of the
read, when bounds checks and reads inside the keys are gone but extensions and concatenations are
not. -/
namespace OperandFlow.Term
open Text

/-- A text as it stands when the keys of updates are compared. -/
def compared (text : List Char) : List Char :=
  mapCalls selectCall selection? (unwrapGuards text)

/-- The map `base` with `value` under `key`. -/
def store (base key value : List Char) : List Char :=
  storeCall.withArgs (joined [base, key, value])

/-- A read of the map `base` under `key`. -/
def select (base key : List Char) : List Char :=
  selectCall.withArgs (joined [base, key])

theorem select_eq (base key : List Char) :
    select base key = selectCall.withArgs (base ++ ',' :: key) := by
  simp [select, joined, List.intercalate]

/-- The rest of a round sees of a text only the form in which keys are compared. -/
theorem round_congr {a b : List Char} (h : compared a = compared b) : round a = round b := by
  rw [compared, compared] at h
  rw [round, unwrapValues, h, round, unwrapValues]

theorem canonical_congr_round {a b : List Char} (h : round (compact a) = round (compact b)) :
    canonical (String.ofList a) = canonical (String.ofList b) := by
  rw [← String.toList_inj, toList_canonical, toList_canonical, String.toList_ofList,
    String.toList_ofList, roundLimit, Function.iterate_succ_apply, h,
    ← Function.iterate_succ_apply]

/-! ### Nested texts stay nested -/

theorem Nested.compact {p : Char → Prop} {cs : List Char} (h : Nested p cs) :
    Nested p (compact cs) := by
  induction h with
  | nil => exact .nil
  | @plain p c cs hopen hclose hp _ ih =>
    rw [← List.singleton_append, compact_append]
    by_cases hblank : isBlank c = true
    · simpa [Text.compact, hblank] using ih
    · simpa [Text.compact, hblank] using Nested.plain hopen hclose hp ih
  | @group p c d inside cs hopen _ _ ihInside ihRest =>
    have hkept : Text.compact [c] = [c] ∧ Text.compact [d] = [d] := by
      unfold closer? at hopen
      split at hopen <;> cases hopen <;> decide
    rw [← List.singleton_append, List.append_assoc, compact_append, compact_append,
      ← List.singleton_append (l := cs), compact_append, hkept.1, hkept.2]
    exact .group hopen ihInside ihRest

/-- The parts of an update that is an argument are arguments. -/
theorem isArg_of_update? {cs : List Char} {u : Update} (hcs : IsArg cs) (h : update? cs = some u) :
    IsArg u.base ∧ IsArg u.key ∧ IsArg u.value := by
  simp only [update?, Option.bind_eq_bind, Option.bind_eq_some_iff] at h
  obtain ⟨behind, hbehind, ⟨inside, rest⟩, hgroup, h⟩ := h
  have hword : IsArg (storeCall.chars ++ '(' :: behind) := by
    rw [eq_append_of_stripFront? hbehind] at hcs
    simpa [Callee.opening] using hcs
  obtain ⟨-, hopened⟩ :=
    hword.of_word_append (isNameChar_valueCalls storeCall (by simp [valueCalls]))
  obtain ⟨inside', rest', rfl, hinside, -⟩ := hopened.of_cons_opener rfl
  obtain ⟨rfl, rfl⟩ :=
    Prod.mk.inj (Option.some.inj ((hinside.group?_append ')' rfl rest').symm.trans hgroup))
  split at h
  · next hrest =>
    split at h
    · next hargs =>
      obtain rfl := Option.some.inj h
      obtain ⟨rfl, -⟩ := Prod.mk.inj hrest
      have hparts := hinside.isArg_of_mem_splitArgs
      rw [hargs] at hparts
      simpa using hparts
    · cases h
  · cases h

theorem isArg_lookUp (key : List Char) {array : List Char} (harray : IsArg array) :
    IsArg ((lookUp key array).elim id id) := by
  fun_induction lookUp key array with
  | case1 => exact harray
  | case2 array u hupdate => exact (isArg_of_update? harray hupdate).2.2
  | case3 array u hupdate _ _ ih => exact ih (isArg_of_update? harray hupdate).1

theorem isArg_store {base key value : List Char} (hbase : IsArg base) (hkey : IsArg key)
    (hvalue : IsArg value) : IsArg (store base key value) :=
  .withArgs (.of_all (by decide)) (nested_joined (by simpa using ⟨hbase, hkey, hvalue⟩))

theorem isArg_select {base key : List Char} (hbase : IsArg base) (hkey : IsArg key) :
    IsArg (select base key) :=
  .withArgs (.of_all (by decide)) (nested_joined (by simpa using ⟨hbase, hkey⟩))

theorem isArg_selection? (args : List (List Char)) (out : List Char)
    (hargs : ∀ a ∈ args, IsArg a) (h : selection? args = some out) : IsArg out := by
  unfold selection? at h
  split at h
  · next array key =>
    have hlook := isArg_lookUp key (hargs array (by simp))
    split at h
    · next value hvalue =>
      obtain rfl := Option.some.inj h
      rwa [hvalue] at hlook
    · next base hbase =>
      rw [hbase] at hlook
      split at h
      · cases h
      · obtain rfl := Option.some.inj h
        rw [← select_eq]
        exact isArg_select hlook (hargs key (by simp))
  · cases h

theorem isArg_unwrapGuards {text : List Char} (h : IsArg text) : IsArg (unwrapGuards text) :=
  isArg_mapCalls isNameChar_ifCall isArg_conditionalValue?
    (isArg_mapCalls isNameChar_orCall isArg_disjunctionValue? h)

theorem isNameChar_selectCall : ∀ c ∈ selectCall.chars, isNameChar c = true :=
  isNameChar_valueCalls selectCall (by simp [valueCalls])

theorem isNameChar_storeCall : ∀ c ∈ storeCall.chars, isNameChar c = true :=
  isNameChar_valueCalls storeCall (by simp [valueCalls])

theorem isArg_compared {text : List Char} (h : IsArg text) : IsArg (compared text) :=
  isArg_mapCalls isNameChar_selectCall isArg_selection? (isArg_unwrapGuards h)

/-! ### The comparison -/

/-- What a read of a map becomes whose parts are in the form in which they are compared. -/
def readThrough (array key : List Char) : List Char :=
  (selection? [array, key]).getD (select array key)

theorem readThrough_of_inl {array key value : List Char} (h : lookUp key array = .inl value) :
    readThrough array key = value := by
  rw [readThrough, selection?, h]
  rfl

/-- Also a read that finds no update reads the map that is left. -/
theorem readThrough_of_inr {array key base : List Char} (h : lookUp key array = .inr base) :
    readThrough array key = select base key := by
  rw [readThrough, selection?, h]
  dsimp only
  split
  · next heq => rw [heq]; rfl
  · exact (select_eq base key).symm

theorem readThrough_store {base key value query : List Char} (hbase : IsArg base)
    (hkey : IsArg key) (hvalue : IsArg value) :
    readThrough (store base key value) query =
      if key = query then value else readThrough base query := by
  have hlook : lookUp query (store base key value) =
      if key = query then .inl value else lookUp query base :=
    lookUp_of_some (update?_withArgs hbase hkey hvalue)
  split_ifs at hlook ⊢ with heq
  · exact readThrough_of_inl hlook
  · cases hrest : lookUp query base with
    | inl found => rw [readThrough_of_inl hrest, readThrough_of_inl (hlook.trans hrest)]
    | inr left => rw [readThrough_of_inr hrest, readThrough_of_inr (hlook.trans hrest)]

theorem compared_store {base key value : List Char} (hbase : IsArg base) (hkey : IsArg key)
    (hvalue : IsArg value) :
    compared (store base key value) = store (compared base) (compared key) (compared value) := by
  have hargs : ∀ a ∈ [base, key, value], IsArg a := by simpa using ⟨hbase, hkey, hvalue⟩
  rw [compared, store, unwrapGuards_withArgs isNameChar_storeCall (by decide) (by decide) hargs,
    mapCalls_other_joined isNameChar_selectCall isNameChar_storeCall (by decide)
      (by simpa using ⟨isArg_unwrapGuards hbase, isArg_unwrapGuards hkey,
        isArg_unwrapGuards hvalue⟩)]
  rfl

theorem compared_select {base key : List Char} (hbase : IsArg base) (hkey : IsArg key) :
    compared (select base key) = readThrough (compared base) (compared key) := by
  have hargs : ∀ a ∈ [base, key], IsArg a := by simpa using ⟨hbase, hkey⟩
  have hguards : ∀ a ∈ [base, key].map unwrapGuards, IsArg a := by
    simpa using ⟨isArg_unwrapGuards hbase, isArg_unwrapGuards hkey⟩
  rw [compared, select, unwrapGuards_withArgs isNameChar_selectCall (by decide) (by decide) hargs,
    mapCalls_withArgs_joined isNameChar_selectCall (by simp) hguards
      (isArg_of_mem_map_mapCalls isNameChar_selectCall isArg_selection? hguards)]
  rfl

/-- A read behind an update takes the value if the keys are equal when they are compared, and
passes the update by otherwise. -/
theorem compared_select_store {base key value query : List Char} (hbase : IsArg base)
    (hkey : IsArg key) (hvalue : IsArg value) (hquery : IsArg query) :
    compared (select (store base key value) query) =
      if compared key = compared query then compared value else compared (select base query) := by
  rw [compared_select (isArg_store hbase hkey hvalue) hquery, compared_store hbase hkey hvalue,
    readThrough_store (isArg_compared hbase) (isArg_compared hkey) (isArg_compared hvalue),
    compared_select hbase hquery]

theorem compact_store (base key value : List Char) :
    compact (store base key value) = store (compact base) (compact key) (compact value) := by
  rw [store, compact_withArgs (by decide), compact_joined]
  rfl

theorem compact_select (base key : List Char) :
    compact (select base key) = select (compact base) (compact key) := by
  rw [select, compact_withArgs (by decide), compact_joined]
  rfl

/-- A read behind an update has the canonical form of the value exactly as long as the keys agree
once bounds checks and reads in them are gone. Where they do not, the update is passed by, also if
the keys have one canonical form. -/
theorem canonical_select_store {base key value query : List Char} (hbase : IsArg base)
    (hkey : IsArg key) (hvalue : IsArg value) (hquery : IsArg query) :
    canonical (String.ofList (select (store base key value) query)) =
        (if compared (compact key) = compared (compact query) then
          canonical (String.ofList value)
        else canonical (String.ofList (select base query))) ∧
      (compared (compact key) = compared (compact query) →
        canonical (String.ofList key) = canonical (String.ofList query)) := by
  have hread := compared_select_store hbase.compact hkey.compact hvalue.compact hquery.compact
  refine ⟨?_, fun heq => canonical_congr_round (round_congr heq)⟩
  split_ifs at hread ⊢ with heq
  · refine canonical_congr_round (round_congr ?_)
    rw [compact_select, compact_store, hread]
  · refine canonical_congr_round (round_congr ?_)
    rw [compact_select, compact_store, compact_select, hread]

/-- The key `k` behind a bounds check. -/
def checkedKey : List Char := ifCall.withArgs (joined [sizeCheck [] ['4'], ['0'], ['k']])

/-- The key `k` extended by no bits. -/
def extendedKey : List Char := zeroExtCall.withArgs (joined [['0'], ['k']])

theorem isArg_checkedKey : IsArg checkedKey :=
  .withArgs (.of_all (by decide)) (.of_all (by decide))

theorem isArg_extendedKey : IsArg extendedKey :=
  .withArgs (.of_all (by decide)) (.of_all (by decide))

/-- A check around the key is gone when the keys are compared, and an extension is not. -/
theorem canonical_select_store_spellings :
    IsArg checkedKey ∧ IsArg extendedKey ∧
      canonical (String.ofList (select (store ['b'] checkedKey ['v']) ['k'])) = canonical "v" ∧
      canonical (String.ofList (select (store ['b'] extendedKey ['v']) ['k'])) =
        canonical "Select(b,k)" := by
  have hbase : IsArg ['b'] := .of_all (by decide)
  have hvalue : IsArg ['v'] := .of_all (by decide)
  have hquery : IsArg ['k'] := .of_all (by decide)
  have hchecked := (canonical_select_store hbase isArg_checkedKey hvalue hquery).1
  have hextended := (canonical_select_store hbase isArg_extendedKey hvalue hquery).1
  rw [if_pos (by decide +kernel)] at hchecked
  rw [if_neg (by decide +kernel)] at hextended
  exact ⟨isArg_checkedKey, isArg_extendedKey, hchecked, hextended⟩

/-- Two keys with one canonical form, and an update that is passed by all the same. -/
theorem canonical_select_store_not_equal :
    (∀ a ∈ [['b'], extendedKey, ['v'], ['k']], IsArg a) ∧
      canonical (String.ofList extendedKey) = canonical "k" ∧
      canonical (String.ofList (select (store ['b'] extendedKey ['v']) ['k'])) ≠
        canonical "v" := by
  refine ⟨?_, by decide +kernel⟩
  simp only [List.forall_mem_cons]
  exact ⟨.of_all (by decide), isArg_extendedKey, .of_all (by decide), .of_all (by decide), nofun⟩

end OperandFlow.Term
