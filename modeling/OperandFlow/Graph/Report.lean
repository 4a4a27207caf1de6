import OperandFlow.Graph.Linking

/-! Nodes as a client sees them, with canonical texts. -/
namespace OperandFlow

structure NodeReport where
  uid : NodeId
  function : String
  tx : Option UInt64
  category : Category
  opcode : Option Opcode
  address : UInt64
  deleted : Bool
  /-- Canonical text of each slot. -/
  operands : List String
  /-- Producers of each slot. -/
  predecessors : List (List NodeId)
  successors : List NodeId
  output : Option String

namespace Graph

def reportOf (n : Node) : Logged NodeReport := do
  let operands ← Logged.map (fun s : Slot => consult s.datum) n.slots
  let output ← match n.output with
    | some d => do pure (some (← consult d))
    | none => pure none
  return {
    uid := n.uid
    function := n.function
    tx := n.tx?
    category := n.category
    opcode := n.opcode?
    address := n.address
    deleted := n.isDeleted
    operands := operands
    predecessors := n.slots.map (·.preds)
    successors := n.successors
    output := output }

def report (g : Graph) (uid : NodeId) : Logged (Except GraphError NodeReport) :=
  match g.node? uid with
  | none => pure (.error (.unknownNode uid))
  | some n => do return .ok (← reportOf n)

end Graph
end OperandFlow
