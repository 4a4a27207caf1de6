import OperandFlow.Term.Call
import OperandFlow.Term.Literal

/-! Wrappers around the value that matters: map updates, zero extensions, concatenations. -/
namespace OperandFlow.Term
open Text

def selectCall : Callee := ⟨"Select".toList, by decide⟩

def storeCall : Callee := ⟨"Store".toList, by decide⟩

def zeroExtCall : Callee := ⟨"ZeroExt".toList, by decide⟩

def concatCall : Callee := ⟨"Concat".toList, by decide⟩

/-- An updated map: the map before, the key and the value written. -/
structure Update where
  base : List Char
  key : List Char
  value : List Char

/-- Reads a whole text as an update. -/
def update? (cs : List Char) : Option Update := do
  let behind ← stripFront? storeCall.opening cs
  match ← group? ')' behind with
  | (inside, []) =>
    match splitArgs inside with
    | [base, key, value] => some ⟨base, key, value⟩
    | _ => none
  | _ => none

theorem length_le_of_mem_splitFrom {depth : Int} {part cs x : List Char}
    (h : x ∈ splitFrom depth part cs) : x.length ≤ part.length + cs.length := by
  induction cs generalizing depth part with
  | nil => simp_all [splitFrom]
  | cons c cs ih =>
    simp only [splitFrom] at h
    split at h
    · rcases List.mem_cons.1 h with rfl | h
      · simp
      · have := ih h
        simp only [List.length_nil, List.length_cons] at this ⊢
        omega
    · have := ih h
      simp only [List.length_cons] at this ⊢
      omega

theorem length_base_of_update? {cs : List Char} {u : Update} (h : update? cs = some u) :
    u.base.length < cs.length := by
  simp only [update?, Option.bind_eq_bind, Option.bind_eq_some_iff] at h
  obtain ⟨behind, hb, ⟨inside, rest⟩, hg, h⟩ := h
  have hcs := congrArg List.length (eq_append_of_stripFront? hb)
  have hin := length_of_group? hg
  simp only [List.length_append] at hcs
  split at h
  · next heq =>
    split at h
    · next args =>
      simp only [Option.some.injEq] at h
      have hmem : u.base ∈ splitFrom 0 [] inside := by
        simp only [Prod.mk.injEq] at heq
        simp only [splitArgs] at args
        rw [heq.1, args, ← h]
        exact List.mem_cons_self
      have hle := length_le_of_mem_splitFrom hmem
      simp at hle
      omega
    · simp at h
  · simp at h

/-- Looks `key` up behind the updates of `array`: the value written under it, or the map that no
update is left of. -/
def lookUp (key array : List Char) : List Char ⊕ List Char :=
  match h : update? array with
  | none => .inr array
  | some u =>
    have := length_base_of_update? h
    if u.key = key then .inl u.value else lookUp key u.base
termination_by array.length

def selection? : List (List Char) → Option (List Char)
  | [array, key] =>
    match lookUp key array with
    | .inl value => some value
    | .inr base => if base = array then none else some (selectCall.withArgs (base ++ ',' :: key))
  | _ => none

/-- A bare update stands for what was written, or for the key if that is a literal. -/
def written? : List (List Char) → Option (List Char)
  | [_, key, value] => some (if isLiteral value then key else value)
  | _ => none

def extended? : List (List Char) → Option (List Char)
  | [bits, value] => if bits = ['0'] then some value else none
  | _ => none

def joined (args : List (List Char)) : List Char :=
  [','].intercalate args

/-- Reads of updated maps, bare updates, extensions by no bits and concatenations, in this
order. -/
def unwrapValues (text : List Char) : List Char :=
  mapCalls concatCall (some ∘ joined) <|
    mapCalls zeroExtCall extended? <|
      mapCalls storeCall written? <|
        mapCalls selectCall selection? text

end OperandFlow.Term
