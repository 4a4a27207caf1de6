import OperandFlow.Graph.Node

/-! What can go wrong while a graph is built or asked. -/
namespace OperandFlow

inductive GraphError where
  | unknownOpcode (text : String)
  | unknownNode (uid : NodeId)
  | unsupportedCategory (opcode : Opcode) (category : Category)
  | malformedPreimage (uid : NodeId) (parts : Nat)
  | noPendingNode (function : String) (opcode : Opcode)
  | searchExhausted (uid : NodeId) (limit : Nat)
  | missingOperand (uid : NodeId) (opcode : Opcode) (slot : Nat)
deriving DecidableEq

namespace GraphError

def message : GraphError → String
  | unknownOpcode text => s!"unknown opcode {text}"
  | unknownNode uid => s!"no node with id {uid}"
  | unsupportedCategory opcode category =>
    s!"{opcode.name} can not be traced as a node of category {category.name}"
  | malformedPreimage uid parts =>
    s!"preimage of hash node {uid} splits into {parts} parts instead of 2"
  | noPendingNode function opcode =>
    s!"no {opcode.name} node of function {function} awaits its result"
  | searchExhausted uid limit => s!"search from node {uid} stopped after {limit} steps"
  | missingOperand uid opcode slot => s!"{opcode.name} node {uid} lacks operand {slot}"

end GraphError

/-- A problem of one node that was put on record while the trace went on. -/
structure Anomaly where
  uid : NodeId
  error : GraphError
deriving DecidableEq

/-- Reads a mnemonic, or refuses it with the text as given. -/
def Opcode.ofMnemonic (text : String) : Except GraphError Opcode :=
  match Opcode.ofMnemonic? text with
  | some o => .ok o
  | none => .error (.unknownOpcode text)

end OperandFlow
