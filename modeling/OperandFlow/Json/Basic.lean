/-! JSON values. -/
namespace OperandFlow

/-- The key of an object's member. -/
structure Key where
  text : String
  /-- An escape was used to write it. -/
  escaped : Bool
deriving DecidableEq, Inhabited

instance : Coe String Key := ⟨fun text => ⟨text, false⟩⟩

/-- A JSON value. Numbers that are no integers are kept as they are written. -/
inductive Json where
  | null
  | bool (b : Bool)
  | int (n : Int)
  | decimal (lexeme : List Char)
  | str (s : String)
  | arr (items : List Json)
  | obj (members : List (Key × Json))
  /-- Well formed, but without a value: a string with half a surrogate pair, an object with such a
  key, or a number beyond the range of binary64. -/
  | unreadable
deriving Inhabited

namespace Json

def nat (n : Nat) : Json := .int n

mutual

/-- How deep arrays and objects nest. -/
def depth : Json → Nat
  | .arr items => itemsDepth items + 1
  | .obj members => membersDepth members + 1
  | _ => 0

def itemsDepth : List Json → Nat
  | [] => 0
  | j :: rest => max j.depth (itemsDepth rest)

def membersDepth : List (Key × Json) → Nat
  | [] => 0
  | (_, j) :: rest => max j.depth (membersDepth rest)

end

mutual

/-- Every part of it has a value. -/
def readable : Json → Bool
  | .arr items => itemsReadable items
  | .obj members => membersReadable members
  | .unreadable => false
  | _ => true

def itemsReadable : List Json → Bool
  | [] => true
  | j :: rest => j.readable && itemsReadable rest

def membersReadable : List (Key × Json) → Bool
  | [] => true
  | (_, j) :: rest => j.readable && membersReadable rest

end

/-- The fields `names` of a record. A record is an object, where other keys are passed over and
none of the names may come twice, or an array of its first fields in the order of the names. -/
def fields? (names : List String) : Json → Option (List (Option Json))
  | .obj members => names.mapM fun name =>
    match members.filter (·.1.text = name) with
    | [] => some none
    | [(_, j)] => some (some j)
    | _ => none
  | .arr items =>
    if items.length ≤ names.length then
      some (items.map some ++ List.replicate (names.length - items.length) none)
    else none
  | _ => none

def str? : Json → Option String
  | .str s => some s
  | _ => none

/-- A natural number below `bound`. -/
def natBelow? (bound : Nat) : Json → Option Nat
  | .int (.ofNat n) => if n < bound then some n else none
  | _ => none

end Json
end OperandFlow
