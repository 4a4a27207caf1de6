import OperandFlow.Value

/-! Equality of values: settled on their texts where that is possible, and by an oracle
otherwise. -/
namespace OperandFlow

inductive OracleError where
  | unknown
  | timeout
  | backend (reason : String)
deriving DecidableEq

namespace OracleError

def message : OracleError → String
  | unknown => "failed to decide equivalence within the given limits"
  | timeout => "could not decide equivalence before timing out"
  | backend reason => s!"oracle backend failed: {reason}"

end OracleError

/-- Decides whether two symbolic values are equal. -/
structure Oracle where
  name : String
  /-- The oracles that each query is handed on to. -/
  relays : List String
  answer : Value → Value → Except OracleError Bool

namespace Oracle

/-- Knows of no equality beyond that of texts. -/
def text : Oracle := ⟨"text", [], fun _ _ => .ok false⟩

/-- Hands every query on to `inner`. -/
def relay (name : String) (inner : Oracle) : Oracle :=
  ⟨name, inner.name :: inner.relays, inner.answer⟩

/-- A failure counts as a no. -/
def holds (o : Oracle) (l r : Value) : Bool :=
  match o.answer l r with
  | .ok b => b
  | .error _ => false

end Oracle

/-- A value and its canonical text, which is empty if it is unknown. -/
structure Operand where
  value : Value
  canonical : String

namespace Operand

/-- Equality as far as texts can settle it. Nothing is said of two different symbolic texts. -/
def textEqual? (l r : Operand) : Option Bool :=
  if l.value.isEmpty || r.value.isEmpty then some false
  else if l.value.size ≠ 0 ∧ r.value.size ≠ 0 ∧ l.value.size ≠ r.value.size then some false
  else if l.value.trimmed = r.value.trimmed then some true
  else
    match l.value.concrete?, r.value.concrete? with
    | some m, some n => some (m = n)
    | _, _ =>
      if l.canonical ≠ "" ∧ l.canonical = r.canonical then some true
      else if l.value.isLiteral || r.value.isLiteral || l.canonical = "" || r.canonical = "" then
        some false
      else none

/-- Asks the oracle only where texts settle nothing. -/
def equal (o : Oracle) (l r : Operand) : Bool :=
  (textEqual? l r).getD (o.holds l.value r.value)

end Operand
end OperandFlow
