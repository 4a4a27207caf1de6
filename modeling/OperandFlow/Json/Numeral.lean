import OperandFlow.Binary64
import OperandFlow.Json.Basic
import OperandFlow.Text.Numeral

/-! Numbers of a JSON text: how they are written, and which are too large. -/
namespace OperandFlow.Json
open Text

/-- A number as it is written. -/
structure Numeral where
  negative : Bool
  whole : List Char
  fraction : List Char
  exponent : Option Int

/-- Takes digits into a word while it stays below its bound, and gives back the digits that are
left. -/
def fillWord (word : Nat) : List Char → Nat × List Char
  | [] => (word, [])
  | c :: cs =>
    let next := word * 10 + (digit? 10 c).getD 0
    if next < wordBound then fillWord next cs else (word, c :: cs)

/-- A word times a power of ten. -/
structure Scaled where
  word : Nat
  exponent : Int

namespace Scaled

/-- The largest power of ten in the range of binary64. -/
def maxExponent : Int := 308

/-- The number is beyond the range of binary64, where word and power of ten are rounded before
they are multiplied. -/
def overflows (s : Scaled) : Bool :=
  s.word ≠ 0 &&
    (maxExponent < s.exponent ||
      (0 ≤ s.exponent && Binary64.productOverflows s.word (Nat.pow 10 s.exponent.toNat)))

end Scaled

namespace Numeral

/-- Splits off a sign, a whole part without leading zeros, a fraction and an exponent. -/
def ofLexeme? (cs : List Char) : Option Numeral := do
  let (negative, cs) := match cs with
    | '-' :: rest => (true, rest)
    | rest => (false, rest)
  let whole := cs.takeWhile Char.isDigit
  guard (!whole.isEmpty && (whole.length = 1 || whole.head? ≠ some '0'))
  let (fraction, cs) ← match cs.dropWhile Char.isDigit with
    | '.' :: rest =>
      let digits := rest.takeWhile Char.isDigit
      if digits.isEmpty then none else some (digits, rest.dropWhile Char.isDigit)
    | rest => some ([], rest)
  match cs with
  | [] => return ⟨negative, whole, fraction, none⟩
  | e :: rest =>
    guard (e = 'e' || e = 'E')
    match rest with
    | '-' :: digits => return ⟨negative, whole, fraction, some (-(← digits? 10 digits : Nat))⟩
    | '+' :: digits => return ⟨negative, whole, fraction, some (← digits? 10 digits : Nat)⟩
    | digits => return ⟨negative, whole, fraction, some (← digits? 10 digits : Nat)⟩

/-- The leading digits as a word. Digits of the whole part that find no room in it count as powers
of ten; the fraction goes on filling the word, and the rest of it is dropped. -/
def scaled (n : Numeral) : Scaled :=
  let (whole, left) := fillWord 0 n.whole
  let (word, dropped) := fillWord whole n.fraction
  ⟨word, left.length + dropped.length - n.fraction.length + n.exponent.getD 0⟩

def isInteger (n : Numeral) : Bool :=
  n.fraction.isEmpty && n.exponent.isNone

/-- Negative zero is no integer. -/
def value (n : Numeral) (lexeme : List Char) : Json :=
  let magnitude := (digits? 10 n.whole).getD 0
  if n.scaled.overflows then .unreadable
  else if n.isInteger && !n.negative then .int magnitude
  else if n.isInteger && magnitude ≠ 0 then .int (-magnitude)
  else .decimal lexeme

end Numeral
end OperandFlow.Json
