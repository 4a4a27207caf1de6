import OperandFlow.Term.Canonical

/-! Values as a host reports them: a rendered term and its width in bits. -/
namespace OperandFlow
open Text

/-- A width of 0 means that the host could not tell. -/
structure Value where
  size : UInt32
  expr : String
deriving DecidableEq, Inhabited

namespace Value

def empty : Value := ⟨0, ""⟩

/-- A machine word. -/
def word (expr : String) : Value := ⟨256, expr⟩

def ofConcrete (n : Nat) (size : UInt32) : Value :=
  ⟨size, String.ofList (decimal n)⟩

def trimmed (v : Value) : List Char :=
  trim v.expr.toList

def isEmpty (v : Value) : Bool :=
  v.trimmed.isEmpty

def isLiteral (v : Value) : Bool :=
  Term.isLiteral v.trimmed

def concrete? (v : Value) : Option Nat :=
  Term.concrete? v.trimmed

/-- A known width is shown behind a colon. -/
def display (v : Value) : String :=
  if v.size = 0 then v.expr else v.expr ++ ":" ++ toString v.size.toNat

end Value

/-- What is known of the canonical form of a value. -/
inductive Rendering where
  | settled (text : String)
  /-- The rounds ran out while the text was still changing. -/
  | unsettled (text : String)
  | tooLong (bytes : Nat)
  | timedOut
deriving DecidableEq, Inhabited

namespace Rendering

/-- The canonical text; an unknown one is empty. -/
def text : Rendering → String
  | .settled text => text
  | .unsettled text => text
  | .tooLong _ => ""
  | .timedOut => ""

/-- Renders an expression of at most `limit` bytes. -/
def ofExpr (limit : Nat) (deadline : Term.Deadline) (expr : String) : Rendering :=
  if limit < expr.utf8ByteSize then .tooLong expr.utf8ByteSize
  else if deadline = .passed then .timedOut
  else
    let (text, done) := Term.settleRaw expr
    if done then .settled (String.ofList text) else .unsettled (String.ofList text)

end Rendering
end OperandFlow
