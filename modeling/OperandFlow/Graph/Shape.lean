import OperandFlow.Graph.Basic
import OperandFlow.Json.Printer
import OperandFlow.Ordered
import OperandFlow.Sha3

/-! The shape of a function: its live nodes and edges, numbered by position, so that equal logic
has equal shapes wherever it was traced. -/
namespace OperandFlow

def labelBefore (a b : Nat × String) : Bool := a.1 < b.1

def edgeBefore (a b : Nat × Nat) : Bool := a.1 < b.1 || (a.1 = b.1 && a.2 < b.2)

theorem isRanking_labelBefore : Ordered.IsRanking labelBefore := by
  constructor <;> intro a b c <;> simp only [labelBefore, decide_eq_true_eq, decide_eq_false_iff_not] <;>
    omega

theorem isRanking_edgeBefore : Ordered.IsRanking edgeBefore := by
  constructor <;> intro a b c <;>
    simp only [edgeBefore, Bool.or_eq_true, Bool.and_eq_true, decide_eq_true_eq,
      Bool.or_eq_false_iff, Bool.and_eq_false_iff, decide_eq_false_iff_not] <;> omega

/-- Labels and edges are in ascending order. -/
structure Shape where
  /-- Numbers of nodes with category and opcode. -/
  labels : List (Nat × String)
  /-- From producer to consumer. -/
  edges : List (Nat × Nat)
  labels_sorted : labels.Pairwise (labelBefore · ·)
  edges_sorted : edges.Pairwise (edgeBefore · ·)

namespace Shape

/-- Of two labels with the same number the last one stays. -/
def ofLists (labels : List (Nat × String)) (edges : List (Nat × Nat)) : Shape where
  labels := Ordered.ofList labelBefore labels
  edges := Ordered.ofList edgeBefore edges
  labels_sorted := Ordered.pairwise_ofList isRanking_labelBefore labels
  edges_sorted := Ordered.pairwise_ofList isRanking_edgeBefore edges

def labelJson (label : Nat × String) : Key × Json :=
  (String.ofList (Text.decimal label.1), .str label.2)

def edgeJson (edge : Nat × Nat) : Json :=
  .arr [.nat edge.1, .nat edge.2]

def toJson (s : Shape) : Json :=
  .obj [("nodes", .obj (s.labels.map labelJson)), ("edges", .arr (s.edges.map edgeJson))]

def render (s : Shape) : String :=
  s.toJson.render

def hash (s : Shape) : String :=
  Text.hex (Sha3.digest s.render.toUTF8.toList)

/-- A number without leading zeros, sign and escapes. -/
def number? (key : Key) : Option Nat :=
  match key.escaped, key.text.toList with
  | false, ['0'] => some 0
  | false, c :: cs =>
    if c = '0' then none else (Text.digits? 10 (c :: cs)).filter (· < Text.wordBound)
  | _, _ => none

def label? (member : Key × Json) : Option (Nat × String) := do
  return (← number? member.1, ← member.2.str?)

def edge? : Json → Option (Nat × Nat)
  | .arr [a, b] => do return (← a.natBelow? Text.wordBound, ← b.natBelow? Text.wordBound)
  | _ => none

def labels? : Json → Option (List (Nat × String))
  | .obj members => members.mapM label?
  | _ => none

def edges? : Json → Option (List (Nat × Nat))
  | .arr items => items.mapM edge?
  | _ => none

def ofJson? (j : Json) : Option Shape := do
  match ← j.fields? ["nodes", "edges"] with
  | [some nodes, some edges] => return ofLists (← labels? nodes) (← edges? edges)
  | _ => none

end Shape

/-- What identifies the logic of a function. -/
structure Fingerprint where
  function : String
  hash : String
  nodes : Nat
  edges : Nat

namespace Fingerprint

def agrees (a b : Fingerprint) : Bool :=
  a.hash = b.hash

end Fingerprint

namespace Graph

/-- The nodes of a function that its shape shows. -/
def shapeNodes (g : Graph) (function : String) : List Node :=
  g.nodes.toList.filter fun n => n.function = function && !n.isSentinel && !n.isDeleted

def labelOf (n : Node) : String :=
  n.category.name ++ ":" ++ ((n.opcode?.map Opcode.name).getD "")

def shape (g : Graph) (function : String) : Shape :=
  let nodes := g.shapeNodes function
  let ids := nodes.map (·.uid)
  .ofLists (nodes.zipIdx.map fun (n, i) => (i, labelOf n))
    (nodes.zipIdx.flatMap fun (n, i) =>
      (n.predecessors.filterMap fun p => ids.idxOf? p).map (·, i))

def fingerprint (g : Graph) (function : String) : Fingerprint :=
  let shape := g.shape function
  ⟨function, shape.hash, shape.labels.length, shape.edges.length⟩

def fingerprints (g : Graph) : List Fingerprint :=
  g.functions.map g.fingerprint

end Graph
end OperandFlow
