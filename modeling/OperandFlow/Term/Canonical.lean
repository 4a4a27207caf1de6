import OperandFlow.Term.CalldataRange
import OperandFlow.Term.Wrapper
import OperandFlow.Text.Blank

/-! The canonical form of a rendered term: the simplifications in rounds, until nothing
changes. -/
namespace OperandFlow.Term
open Text

def round (text : List Char) : List Char :=
  dropPadding (mergeReads (unwrapValues (unwrapGuards text)))

def roundLimit : Nat := 64

/-- Repeats the rounds until one changes nothing, and says whether that happened. -/
def settle : Nat → List Char → List Char × Bool
  | 0, text => (text, false)
  | n + 1, text =>
    let next := round text
    if next = text then (text, true) else settle n next

/-- Blanks never matter. -/
def settleRaw (raw : String) : List Char × Bool :=
  settle roundLimit (compact raw.toList)

def canonical (raw : String) : String :=
  String.ofList (settleRaw raw).1

/-- Whether time is left to look for a canonical form. -/
inductive Deadline where
  | never
  | passed
deriving DecidableEq

/-- The deadline is looked at before the first round. -/
def canonicalBefore : Deadline → String → Option String
  | .never, raw => some (canonical raw)
  | .passed, _ => none

end OperandFlow.Term
