import OperandFlow.Graph.Basic

/-! The graph of a function in the dot language. -/
namespace OperandFlow.Graph

def dotName (n : Node) : String :=
  (n.opcode?.map Opcode.name).getD n.category.name

def dotNode (n : Node) (i : Nat) : String :=
  s!"    {i} [ label = \"\\\"{n.uid} {dotName n}\\\"\" ]\n"

/-- One line for each predecessor that is shown, by slots. -/
def dotEdges (ids : List NodeId) (n : Node) (i : Nat) : List String :=
  n.slots.zipIdx.flatMap fun (s, slot) =>
    (s.preds.filterMap fun p => ids.idxOf? p).map fun j =>
      s!"    {j} -> {i} [ label = \"{slot}\" ]\n"

/-- The live nodes of a function, sentinels included, numbered from 0, and then their edges. -/
def dot (g : Graph) (function : String) : String :=
  let nodes := g.nodes.toList.filter fun n => n.function = function && !n.isDeleted
  let ids := nodes.map (·.uid)
  let lines := nodes.zipIdx.map (fun (n, i) => dotNode n i) ++
    nodes.zipIdx.flatMap fun (n, i) => dotEdges ids n i
  "digraph \x7b\n" ++ String.join lines ++ "\x7d\n"

end OperandFlow.Graph
