import OperandFlow.Term.Call

/-! Bounds checks around calldata reads. -/
namespace OperandFlow.Term
open Text

/-- A text without line break that is not empty. -/
def isLine (cs : List Char) : Bool :=
  !cs.isEmpty && !cs.contains '\n'

/-- A comparison of a calldata size with some bound. -/
def isSizeGuard (cs : List Char) : Bool :=
  (stripBack? "calldatasize".toList (cs.takeWhile isNameChar)).isSome &&
    match cs.dropWhile isNameChar with
    | '<' :: '=' :: bound => isLine bound
    | _ => false

def orCall : Callee := ⟨['O', 'r'], by simp⟩

def ifCall : Callee := ⟨['I', 'f'], by simp⟩

/-- What is compared with zero. -/
def zeroTest? (cs : List Char) : Option (List Char) :=
  stripBack? ['=', '=', '0'] cs

def disjunctionValue? : List (List Char) → Option (List Char)
  | [a, b] =>
    if isSizeGuard b then zeroTest? a
    else if isSizeGuard a then zeroTest? b
    else none
  | _ => none

def conditionalValue? : List (List Char) → Option (List Char)
  | [guard, zero, value] => if zero = ['0'] ∧ isSizeGuard guard then some value else none
  | _ => none

/-- A disjunction of X==0 with a size guard, on either side, and a conditional that is 0 under a
size guard and X otherwise, both become X. -/
def unwrapGuards (text : List Char) : List Char :=
  mapCalls ifCall conditionalValue? (mapCalls orCall disjunctionValue? text)

end OperandFlow.Term
