import OperandFlow.Graph.Dot
import OperandFlow.Graph.Growth
import OperandFlow.Graph.Execution
import OperandFlow.Graph.Shape
import OperandFlow.Graph.Origin
import OperandFlow.Graph.Report
import OperandFlow.Journal.Basic

/-! An analysis in progress: the graph of one contract as it grows, and its journal. -/
namespace OperandFlow

structure Analysis where
  host : Host
  graph : Graph
  journal : Journal

namespace Analysis

def start (host : Host) : Analysis := ⟨host, .empty, .empty⟩

/-- Forgets all nodes. -/
def reset (s : Analysis) : Analysis :=
  { s with graph := .empty, journal := s.journal.reset }

def log (s : Analysis) (es : List Event) : Analysis :=
  { s with journal := s.journal.observeAll es }

/-- Answers a question, which never changes the graph. -/
def query {α : Type} (s : Analysis) (question : Host → Graph → Logged α) : α × Analysis :=
  let answer := question s.host s.graph
  (answer.value, s.log answer.events)

/-- Goes on with the graph that an action leaves behind, whether it fails or not. -/
def change {α : Type} (s : Analysis) (action : Host → Graph → Logged (α × Graph)) :
    α × Analysis :=
  let outcome := action s.host s.graph
  (outcome.value.1, { s with graph := outcome.value.2 }.log outcome.events)

def add (s : Analysis) (a : Arrival) : Except GraphError NodeId × Analysis :=
  s.change fun host g => g.add host a

def complete (s : Analysis) (function : String) (opcode : Opcode) (result : Value)
    (state : Option String) : Except GraphError NodeId × Analysis :=
  s.change fun host g => g.complete host function opcode result state

def flush (s : Analysis) (function : Option String) : Analysis :=
  (s.change fun host g => do return ((), ← g.flush host function)).2

def remove (s : Analysis) (uid : NodeId) : Except GraphError Unit × Analysis :=
  s.change fun _ g => g.discard uid

def findEdges (s : Analysis) (uid : NodeId) : Except GraphError Unit × Analysis :=
  s.change fun host g => g.findEdges host uid

def origins (s : Analysis) (seeds : List NodeId) (limit : Nat) : Origins × Analysis :=
  s.query fun host g => g.origins host seeds limit

def originsOfSlot (s : Analysis) (uid : NodeId) (slot : Nat) :
    Except GraphError Origins × Analysis :=
  s.query fun host g => g.originsOfSlot host uid slot

def ancestor? (s : Analysis) (uid : NodeId) (opcode : Opcode) :
    Except GraphError (Option NodeId) × Analysis :=
  s.query fun host g => g.ancestor? host uid opcode

def paths? (s : Analysis) (function : String) :
    Except GraphError (List (NodeId × List NodeId)) × Analysis :=
  s.query fun _ g => g.paths function

/-- The paths of a function, none if one of them can not be followed. -/
def paths (s : Analysis) (function : String) : List (NodeId × List NodeId) × Analysis :=
  let (found, s) := s.paths? function
  (found.toOption.getD [], s)

def report (s : Analysis) (uid : NodeId) : Except GraphError NodeReport × Analysis :=
  s.query fun _ g => g.report uid

def loopBounds? (s : Analysis) (chain : List NodeId) : Option (Option (NodeId × NodeId)) :=
  s.graph.loopBounds? s.host.options.loopThreshold chain

def repetitions? (s : Analysis) : Except GraphError (List Repetition) :=
  s.graph.repetitions s.host.options.loopThreshold

/-- The reports on all terminals, none if one of them can not be reached. -/
def repetitions (s : Analysis) : List Repetition :=
  s.repetitions?.toOption.getD []

/-- The canonical rendering of the value was looked at. -/
def isRendered (s : Analysis) (d : Datum) : Bool :=
  s.journal.rendered.contains d.id

end Analysis
end OperandFlow
