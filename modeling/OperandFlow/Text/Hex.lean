import OperandFlow.Text.Numeral

/-! Bytes as pairs of hexadecimal digits. -/
namespace OperandFlow.Text

def hexPair (b : UInt8) : List Char :=
  [Nat.digitChar (b.toNat / 16), Nat.digitChar (b.toNat % 16)]

def hex (bytes : List UInt8) : String :=
  String.ofList (bytes.flatMap hexPair)

inductive HexError where
  | oddLength
  | invalid (byte : UInt8) (index : Nat)
deriving DecidableEq

namespace HexError

/-- A byte as a character in single quotes; what can not be shown is escaped. -/
def quoteByte (b : UInt8) : String :=
  let shown :=
    if b = 0 then "\\0"
    else if b = 9 then "\\t"
    else if b = 10 then "\\n"
    else if b = 13 then "\\r"
    else if b = 39 then "\\'"
    else if b = 92 then "\\\\"
    else if b < 32 || (127 ≤ b && b ≤ 160) || b = 173 then
      "\\u\x7b" ++ String.ofList (Nat.toDigits 16 b.toNat) ++ "\x7d"
    else String.singleton (Char.ofNat b.toNat)
  "'" ++ shown ++ "'"

def message : HexError → String
  | oddLength => "Odd number of digits"
  | invalid byte index => "Invalid character " ++ quoteByte byte ++ " at position " ++ toString index

end HexError

def hexValue (b : UInt8) (index : Nat) : Except HexError Nat :=
  match digit? 16 (Char.ofNat b.toNat) with
  | some n => .ok n
  | none => .error (.invalid b index)

/-- The bytes that digits from position `index` on stand for. -/
def unhexFrom (index : Nat) : List UInt8 → Except HexError (List UInt8)
  | high :: low :: rest => do
    let byte := 16 * (← hexValue high index) + (← hexValue low (index + 1))
    return UInt8.ofNat byte :: (← unhexFrom (index + 2) rest)
  | _ => .ok []

def unhex (digits : List UInt8) : Except HexError (List UInt8) :=
  if digits.length % 2 = 0 then unhexFrom 0 digits else .error .oddLength

end OperandFlow.Text
