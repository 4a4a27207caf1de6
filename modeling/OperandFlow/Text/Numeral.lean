/-! Numerals: reading a whole text as a number in a base of at most sixteen. -/
namespace OperandFlow.Text

def digitValue? (c : Char) : Option Nat :=
  if '0' ≤ c ∧ c ≤ '9' then some (c.toNat - '0'.toNat)
  else if 'a' ≤ c ∧ c ≤ 'f' then some (c.toNat - 'a'.toNat + 10)
  else if 'A' ≤ c ∧ c ≤ 'F' then some (c.toNat - 'A'.toNat + 10)
  else none

def digit? (base : Nat) (c : Char) : Option Nat :=
  (digitValue? c).filter (· < base)

/-- The number that the digits spell behind `acc`. -/
def digitsFrom? (base acc : Nat) : List Char → Option Nat
  | [] => some acc
  | c :: cs => do digitsFrom? base (acc * base + (← digit? base c)) cs

/-- One digit or more and nothing else. -/
def digits? (base : Nat) : List Char → Option Nat
  | [] => none
  | cs => digitsFrom? base 0 cs

/-- A numeral below `bound`, where one plus sign may stand in front. -/
def numeral? (base bound : Nat) (cs : List Char) : Option Nat :=
  let digits := match cs with
    | '+' :: ds => ds
    | ds => ds
  (digits? base digits).filter (· < bound)

def decimal (n : Nat) : List Char :=
  Nat.toDigits 10 n

/-- The bound of 64-bit words. -/
def wordBound : Nat := 18446744073709551616

end OperandFlow.Text
