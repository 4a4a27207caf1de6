import OperandFlow.Text.Numeral

/-! Literals: plain decimal numerals, and hexadecimal ones behind 0x. -/
namespace OperandFlow.Term
open Text

def isHexDigit (c : Char) : Bool :=
  (digit? 16 c).isSome

/-- One digit or more, or 0x and one hexadecimal digit or more. -/
def isLiteral : List Char → Bool
  | '0' :: 'x' :: hex => !hex.isEmpty && hex.all isHexDigit
  | cs => !cs.isEmpty && cs.all Char.isDigit

/-- The bound of concrete values. -/
def concreteBound : Nat := 340282366920938463463374607431768211456

/-- The number a text spells, if it is below the bound. Behind 0x a plus sign may stand. -/
def concrete? : List Char → Option Nat
  | '0' :: 'x' :: hex => numeral? 16 concreteBound hex
  | cs => if isLiteral cs then numeral? 10 concreteBound cs else none

end OperandFlow.Term
