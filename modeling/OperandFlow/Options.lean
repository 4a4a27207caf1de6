import OperandFlow.Graph.Node
import OperandFlow.Journal.Event

/-! What a host chooses for an analysis. -/
namespace OperandFlow

structure Options where
  /-- Most dequeues of a search for origins. -/
  originLimit : Nat := 2000
  /-- Most nodes any other backward search looks at. -/
  reach : Nat := 20000
  /-- A jump destination entered more often than this along one path is a loop. -/
  loopThreshold : Nat := 2
  /-- Values are rendered when their node is made and not when they are first looked at. -/
  eager : Bool := false
  deadline : Term.Deadline := .never
  /-- In bytes; the rendering of a longer expression is unknown. -/
  maxExpressionLength : Nat := 65536
  /-- The address of the analysed contract in decimal. -/
  ownAddress : String := "51421440056055728346017419001665401074216449311"

namespace Options

def datum (o : Options) (node : NodeId) (place : DatumPlace) (value : Value) : Datum :=
  ⟨⟨node, place⟩, value, .ofExpr o.maxExpressionLength o.deadline value.expr⟩

def slot (o : Options) (node : NodeId) (place : DatumPlace) (value : Value) : Slot :=
  ⟨o.datum node place value, []⟩

/-- The slots of a node, one for each of the values. -/
def slots (o : Options) (node : NodeId) (values : List Value) : List Slot :=
  values.zipIdx.map fun (value, i) => o.slot node (.operand i) value

end Options

/-- The host's part: its options, its oracle, and what its stopwatch shows for a search. -/
structure Host where
  options : Options
  oracle : Oracle
  reading : Duration

end OperandFlow
