import OperandFlow.Opcode
import OperandFlow.Text.Hex
import OperandFlow.Value

/-! Nodes of the graph: one for each traced instruction, and two sentinels for each function. -/
namespace OperandFlow

/-- A node's position in the graph. -/
abbrev NodeId := Nat

/-- Which of a node's values is meant. -/
inductive DatumPlace where
  | operand (index : Nat)
  /-- The word a storage read turned out to load. -/
  | loaded
  | result
deriving DecidableEq, Hashable

structure DatumId where
  node : NodeId
  place : DatumPlace
deriving DecidableEq, Hashable

/-- A value at a node, with its canonical rendering. -/
structure Datum where
  id : DatumId
  value : Value
  rendering : Rendering
deriving DecidableEq

/-- An operand and the nodes that supply it. -/
structure Slot where
  datum : Datum
  preds : List NodeId
deriving DecidableEq

namespace Slot

def value (s : Slot) : Value := s.datum.value

/-- Only a symbolic value has a producer to look for. -/
def seeksProducer (s : Slot) : Bool :=
  !s.value.isEmpty && !s.value.isLiteral

def erase (s : Slot) (pred : NodeId) : Slot :=
  { s with preds := s.preds.filter (· ≠ pred) }

end Slot

/-- Call data, split into a selector of four bytes and words of 32 bytes. -/
structure CallFacts where
  selector : Option String
  args : List String
  /-- The attached transfer. -/
  value : Option Value
deriving DecidableEq

namespace CallFacts

/-- The 32-byte words of `bytes`; the last may be short. -/
def words (bytes : List UInt8) : List (List UInt8) :=
  match bytes with
  | [] => []
  | b :: rest => (b :: rest.take 31) :: words (rest.drop 31)
termination_by bytes.length

/-- Data of fewer than four bytes has no selector. -/
def decode (data : List UInt8) (value : Option Value) : CallFacts :=
  if data.length < 4 then ⟨none, (words data).map Text.hex, value⟩
  else ⟨some (Text.hex (data.take 4)), (words (data.drop 4)).map Text.hex, value⟩

end CallFacts

inductive Kind where
  | entry
  | exit
  | environment
  | stateVariable
  | dataFlow
  | log (topic : String)
  | call (info : CallFacts)
  | controlFlow (target : Option Nat)
  | deleted
  | unknown
deriving DecidableEq

namespace Kind

def category : Kind → Category
  | entry | exit => .entryExit
  | environment => .environmentContext
  | stateVariable => .stateVariable
  | dataFlow => .dataFlow
  | log _ => .logInformation
  | call _ | controlFlow _ => .controlFlow
  | deleted => .deleted
  | unknown => .unknown

/-- Nodes of these kinds leave a value that other nodes may use. -/
def carriesData : Kind → Bool
  | environment | stateVariable | dataFlow => true
  | _ => false

end Kind

/-- A traced instruction. -/
structure Instruction where
  tx : UInt64
  opcode : Opcode
  address : UInt64
  /-- The node that leads the enclosing basic block. -/
  leader : NodeId
deriving DecidableEq

structure Node where
  uid : NodeId
  function : String
  /-- Sentinels stand for no instruction. -/
  instruction : Option Instruction
  kind : Kind
  slots : List Slot
  successors : List NodeId
  /-- The result of the instruction may still come. -/
  awaiting : Bool
  output : Option Datum
  /-- What the host attached. -/
  state : Option String
deriving DecidableEq

namespace Node

def opcode? (n : Node) : Option Opcode := n.instruction.map (·.opcode)

def tx? (n : Node) : Option UInt64 := n.instruction.map (·.tx)

def leader? (n : Node) : Option NodeId := n.instruction.map (·.leader)

def address (n : Node) : UInt64 := (n.instruction.map (·.address)).getD 0

def category (n : Node) : Category := n.kind.category

def is (n : Node) (o : Opcode) : Bool := n.opcode? = some o

def isOneOf (n : Node) (os : List Opcode) : Bool := os.any n.is

def isDeleted (n : Node) : Bool := n.kind = .deleted

def isEntry (n : Node) : Bool := n.kind = .entry

def isSentinel (n : Node) : Bool := n.kind = .entry || n.kind = .exit

def destination? (n : Node) : Option Nat :=
  match n.kind with
  | .controlFlow target => target
  | _ => none

/-- The nodes that supply slot `i`. -/
def predsAt (n : Node) (i : Nat) : List NodeId :=
  (n.slots[i]?.map (·.preds)).getD []

/-- All predecessors in slot order, each once. -/
def predecessors (n : Node) : List NodeId :=
  (n.slots.flatMap (·.preds)).eraseDups

/-- Both nodes belong to the same call of a function. -/
def sameTrace (n m : Node) : Bool :=
  n.function = m.function && n.tx? = m.tx?

def addPred (n : Node) (slot : Nat) (pred : NodeId) : Node :=
  { n with slots := n.slots.modify slot fun s => { s with preds := s.preds ++ [pred] } }

/-- No slot is supplied by `pred` any more. -/
def erasePred (n : Node) (pred : NodeId) : Node :=
  { n with slots := n.slots.map (·.erase pred) }

def eraseSuccessor (n : Node) (succ : NodeId) : Node :=
  { n with successors := n.successors.filter (· ≠ succ) }

def addSuccessor (n : Node) (succ : NodeId) : Node :=
  if succ ∈ n.successors then n else { n with successors := n.successors ++ [succ] }

/-- A node that is gone: it keeps its values and no neighbours. -/
def bury (n : Node) : Node :=
  { n with
    slots := n.slots.map fun s => { s with preds := [] }
    successors := []
    kind := .deleted
    awaiting := false }

end Node
end OperandFlow
