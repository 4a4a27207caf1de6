import Mathlib.Data.List.Induction
import OperandFlow.Proofs.Term.Calls

/-! Reading a map behind a chain of updates: the last write under the key counts, and without one
the read goes to the map that the chain starts from. -/
namespace OperandFlow.Term
open Text

/-- What an update puts into a map. -/
structure Write where
  key : List Char
  value : List Char

/-- The map `base` behind the writes, of which the first is the innermost. -/
def updated (base : List Char) (writes : List Write) : List Char :=
  writes.foldl (fun map w => storeCall.withArgs (joined [map, w.key, w.value])) base

/-- The calls that unwrapping values looks at. -/
def valueCalls : List Callee := [selectCall, storeCall, zeroExtCall, concatCall]

/-- An argument that unwrapping values leaves alone. -/
structure IsAtom (text : List Char) : Prop where
  isArg : IsArg text
  callFree : ∀ callee ∈ valueCalls, CallFree callee text

theorem isNameChar_valueCalls :
    ∀ callee ∈ valueCalls, ∀ c ∈ callee.chars, isNameChar c = true := by
  intro callee hcallee
  have hall : valueCalls.all (·.chars.all isNameChar) = true := by decide
  exact List.all_eq_true.mp (List.all_eq_true.mp hall callee hcallee)

theorem isAtom_of_absent {text : List Char} (h : IsArg text) (hround : '(' ∉ text) :
    IsAtom text where
  isArg := h
  callFree callee _ := callFree_of_absent (by simp [Callee.opening]) hround

/-! ### Looking up a key -/

theorem update?_withArgs {base key value : List Char} (hbase : IsArg base) (hkey : IsArg key)
    (hvalue : IsArg value) :
    update? (storeCall.withArgs (joined [base, key, value])) = some ⟨base, key, value⟩ := by
  have hargs : ∀ a ∈ [base, key, value], IsArg a := by simpa using ⟨hbase, hkey, hvalue⟩
  have hgroup := (nested_joined hargs).group?_append ')' rfl []
  rw [update?, Callee.withArgs, List.append_assoc, stripFront?_append]
  simp only [Option.bind_eq_bind, Option.bind_some]
  rw [hgroup]
  simp only [Option.bind_some]
  rw [splitArgs_joined (by simp) hargs]

/-- An update is a call at the front of its text. -/
theorem update?_of_callFree {text : List Char} (h : CallFree storeCall text) :
    update? text = none := by
  cases hupdate : update? text with
  | none => rfl
  | some u =>
    have hfront := h [] (joined [u.base, u.key, u.value] ++ [')'])
      (by rw [eq_withArgs_of_update? hupdate]; simp [Callee.withArgs])
    cases hfront

theorem lookUp_of_none {key array : List Char} (h : update? array = none) :
    lookUp key array = .inr array := by
  rw [lookUp]
  split
  · rfl
  · next hsome =>
    rw [h] at hsome
    cases hsome

theorem lookUp_of_some {key array : List Char} {u : Update} (h : update? array = some u) :
    lookUp key array = if u.key = key then .inl u.value else lookUp key u.base := by
  rw [lookUp]
  split
  · next hnone =>
    rw [h] at hnone
    cases hnone
  · next u' hsome =>
    obtain rfl := Option.some.inj (h.symm.trans hsome)
    rfl

theorem updated_concat (base : List Char) (writes : List Write) (w : Write) :
    updated base (writes ++ [w]) =
      storeCall.withArgs (joined [updated base writes, w.key, w.value]) := by
  rw [updated, List.foldl_append]
  rfl

section Writes

variable {base key : List Char} {writes : List Write}

theorem isArg_updated (hbase : IsArg base)
    (hwrites : ∀ w ∈ writes, IsArg w.key ∧ IsArg w.value) : IsArg (updated base writes) := by
  induction writes using List.reverseRecOn with
  | nil => exact hbase
  | append_singleton writes w ih =>
    have hmap := ih fun v hv => hwrites v (List.mem_append_left _ hv)
    have hw := hwrites w (by simp)
    rw [updated_concat]
    exact .withArgs (.of_all (by decide))
      (nested_joined (by simpa using ⟨hmap, hw.1, hw.2⟩))

/-- The induction goes from the last write to the first, as the looking up does. -/
theorem lookUp_updated (hbase : IsArg base) (hfree : CallFree storeCall base)
    (hwrites : ∀ w ∈ writes, IsArg w.key ∧ IsArg w.value) :
    lookUp key (updated base writes) =
      (writes.findRev? (·.key = key)).elim (.inr base) (fun w => .inl w.value) := by
  induction writes using List.reverseRecOn with
  | nil => exact lookUp_of_none (update?_of_callFree hfree)
  | append_singleton writes w ih =>
    have hearlier : ∀ v ∈ writes, IsArg v.key ∧ IsArg v.value :=
      fun v hv => hwrites v (List.mem_append_left _ hv)
    have hw := hwrites w (by simp)
    have hupdate := update?_withArgs (isArg_updated hbase hearlier) hw.1 hw.2
    rw [updated_concat, lookUp_of_some hupdate, List.findRev?_eq_find?_reverse,
      List.reverse_concat, List.find?_cons]
    by_cases hkey : w.key = key
    · simp [hkey]
    · simp only [hkey, if_false, decide_false]
      rw [ih hearlier, List.findRev?_eq_find?_reverse]

/-- A chain of updates stays as it is where nothing in it is called by the name. -/
theorem mapCalls_updated {callee : Callee} {replace : List (List Char) → Option (List Char)}
    (hname : ∀ c ∈ callee.chars, isNameChar c = true) (hstore : storeCall.chars ≠ callee.chars)
    (hbase : IsArg base) (hfree : CallFree callee base)
    (hwrites : ∀ w ∈ writes, IsArg w.key ∧ IsArg w.value)
    (hkeys : ∀ w ∈ writes, CallFree callee w.key ∧ CallFree callee w.value) :
    mapCalls callee replace (updated base writes) = updated base writes := by
  induction writes using List.reverseRecOn with
  | nil => exact mapCalls_of_callFree hfree
  | append_singleton writes w ih =>
    have hearlier : ∀ v ∈ writes, IsArg v.key ∧ IsArg v.value :=
      fun v hv => hwrites v (List.mem_append_left _ hv)
    have hmap := ih hearlier fun v hv => hkeys v (List.mem_append_left _ hv)
    obtain ⟨hkey, hvalue⟩ := hwrites w (by simp)
    obtain ⟨hkeyFree, hvalueFree⟩ := hkeys w (by simp)
    rw [updated_concat, mapCalls_other_joined hname
      (isNameChar_valueCalls storeCall (by simp [valueCalls])) hstore
      (by simpa using ⟨isArg_updated hbase hearlier, hkey, hvalue⟩)]
    simp only [List.map_cons, List.map_nil]
    rw [hmap, mapCalls_of_callFree hkeyFree, mapCalls_of_callFree hvalueFree]

end Writes

/-! ### The read as a whole -/

/-- What a read of `key` sees behind the writes. -/
def visible (base : List Char) (writes : List Write) (key : List Char) : List Char :=
  match writes.findRev? (·.key = key) with
  | some w => w.value
  | none => selectCall.withArgs (joined [base, key])

section Read

variable {base key : List Char} {writes : List Write} (hbase : IsAtom base) (hkey : IsAtom key)
  (hwrites : ∀ w ∈ writes, IsAtom w.key ∧ IsAtom w.value)
include hbase hkey hwrites

theorem mapCalls_select_updated :
    mapCalls selectCall selection? (selectCall.withArgs (joined [updated base writes, key])) =
      visible base writes key := by
  have hselect : selectCall ∈ valueCalls := by simp [valueCalls]
  have hargs : ∀ w ∈ writes, IsArg w.key ∧ IsArg w.value :=
    fun w hw => (hwrites w hw).imp IsAtom.isArg IsAtom.isArg
  have hfree : ∀ w ∈ writes, CallFree selectCall w.key ∧ CallFree selectCall w.value :=
    fun w hw => (hwrites w hw).imp (·.callFree _ hselect) (·.callFree _ hselect)
  have hname := isNameChar_valueCalls selectCall hselect
  have hboth : ∀ a ∈ [updated base writes, key], IsArg a := by
    simpa using ⟨isArg_updated hbase.isArg hargs, hkey.isArg⟩
  have hstays : [updated base writes, key].map (mapCalls selectCall selection?) =
      [updated base writes, key] := by
    simp only [List.map_cons, List.map_nil]
    rw [mapCalls_updated hname (by decide) hbase.isArg (hbase.callFree _ hselect) hargs hfree,
      mapCalls_of_callFree (hkey.callFree _ hselect)]
  rw [mapCalls_withArgs_joined hname (by simp) hboth (by rwa [hstays]), hstays, selection?,
    lookUp_updated hbase.isArg (hbase.callFree _ (by simp [valueCalls])) hargs, visible]
  cases writes.findRev? (·.key = key) with
  | some w => rfl
  | none =>
    dsimp only [Option.elim_none]
    split
    · next heq => rw [← heq]; rfl
    · simp [joined, List.intercalate]

/-- The calls that are looked at later do not occur in what the read sees. -/
theorem mapCalls_visible {callee : Callee} (hcallee : callee ∈ valueCalls)
    (hne : selectCall.chars ≠ callee.chars) (replace : List (List Char) → Option (List Char)) :
    mapCalls callee replace (visible base writes key) = visible base writes key := by
  rw [visible]
  split
  · next w hw =>
    have hmem : w ∈ writes := by
      rw [List.findRev?_eq_find?_reverse] at hw
      simpa using List.mem_of_find?_eq_some hw
    exact mapCalls_of_callFree ((hwrites w hmem).2.callFree callee hcallee)
  · rw [mapCalls_other_joined (isNameChar_valueCalls callee hcallee)
      (isNameChar_valueCalls selectCall (by simp [valueCalls])) hne
      (by simpa using ⟨hbase.isArg, hkey.isArg⟩)]
    simp only [List.map_cons, List.map_nil]
    rw [mapCalls_of_callFree (hbase.callFree callee hcallee),
      mapCalls_of_callFree (hkey.callFree callee hcallee)]

end Read

/-- A read behind any number of updates becomes the value written last under its key, or a read of
the map before all of them if none writes under it. -/
theorem unwrapValues_select_updated {base key : List Char} {writes : List Write}
    (hbase : IsAtom base) (hkey : IsAtom key)
    (hwrites : ∀ w ∈ writes, IsAtom w.key ∧ IsAtom w.value) :
    unwrapValues (selectCall.withArgs (joined [updated base writes, key])) =
      match writes.findRev? (·.key = key) with
      | some w => w.value
      | none => selectCall.withArgs (joined [base, key]) := by
  have hlater := fun {callee} (h : callee ∈ valueCalls) hne replace =>
    mapCalls_visible hbase hkey hwrites h hne replace
  rw [unwrapValues, mapCalls_select_updated hbase hkey hwrites,
    hlater (by simp [valueCalls]) (by decide), hlater (by simp [valueCalls]) (by decide),
    hlater (by simp [valueCalls]) (by decide)]
  rfl

/-- Two keys written twice each. -/
def alternating : List Write :=
  [⟨['k'], ['v']⟩, ⟨['j'], ['w']⟩, ⟨['k'], "m[1,2]".toList⟩, ⟨['j'], ['u']⟩]

theorem unwrapValues_select_alternating :
    unwrapValues (selectCall.withArgs (joined [updated ['s'] alternating, ['k']])) =
        "m[1,2]".toList ∧
      unwrapValues (selectCall.withArgs (joined [updated ['s'] alternating, ['q']])) =
        "Select(s,q)".toList := by
  have hletter : ∀ c, closer? c = none → isCloser c = false → c ≠ ',' → c ≠ '(' → IsAtom [c] :=
    fun c hopen hclose hcomma hround =>
      isAtom_of_absent (.plain hopen hclose hcomma .nil) (by simpa using hround.symm)
  have hpair : IsAtom ['m', '[', '1', ',', '2', ']'] :=
    isAtom_of_absent (.plain rfl rfl (by decide)
      (.group rfl (.of_all (by decide) : Nested (fun _ => True) ['1', ',', '2']) .nil)) (by decide)
  have hwrites : ∀ w ∈ alternating, IsAtom w.key ∧ IsAtom w.value := by
    simp [alternating, hletter, hpair, closer?, isCloser]
  have hbase := hletter 's' rfl rfl (by decide) (by decide)
  have hwritten := hletter 'k' rfl rfl (by decide) (by decide)
  have hforeign := hletter 'q' rfl rfl (by decide) (by decide)
  exact ⟨unwrapValues_select_updated hbase hwritten hwrites,
    unwrapValues_select_updated hbase hforeign hwrites⟩

end OperandFlow.Term
