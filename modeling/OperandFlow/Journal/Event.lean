import OperandFlow.Graph.Error
import OperandFlow.Equality

/-! What happens while a graph is built and searched, and how the log puts it. -/
namespace OperandFlow

/-- In nanoseconds. -/
abbrev Duration := Nat

inductive Level where
  | error
  | warn
  | info
  | debug
  | trace
deriving DecidableEq

namespace Level

def name : Level → String
  | error => "ERROR"
  | warn => "WARN"
  | info => "INFO"
  | debug => "DEBUG"
  | trace => "TRACE"

/-- How much is logged at this level. -/
def verbosity : Level → Nat
  | error => 0
  | warn => 1
  | info => 2
  | debug => 3
  | trace => 4

end Level

/-- A line of the log. -/
structure Line where
  level : Level
  message : String

inductive Event where
  | sentinelsAdded (function : String) (entry exit : NodeId)
  | nodeAdded (uid : NodeId) (category : Category) (opcode : Opcode) (address : UInt64)
      (function : String) (tx : UInt64)
  | nodeCompleted (uid : NodeId)
  | resultMissed (uid : NodeId)
  | nodeRemoved (uid : NodeId)
  | nodeCollapsed (uid : NodeId) (kept : Nat)
  | linked (pred uid : NodeId) (slot : Nat)
  | edgeSearchStarted (opcode : Opcode) (uid : NodeId)
  | edgeSearchEnded (opcode : Opcode) (took : Duration)
  | sourceMissed (uid : NodeId) (address : UInt64)
  | anomalyFound (anomaly : Anomaly)
  /-- The canonical rendering of a value was looked at. -/
  | consulted (datum : Datum)
  | oracleAsked (names : List String) (l r : Value)
  | oracleFailed (name : String) (error : OracleError)
  | originSearchExhausted (seeds : List NodeId) (limit depth : Nat)
  | originsFound (seeds ids : List NodeId) (dequeues : Nat)
  | originSearchEnded (took : Duration) (exhausted : Bool)
  | ancestorSearchExhausted (opcode : Opcode) (uid : NodeId) (limit : Nat)
  | pathFound (function : String) (terminal : NodeId) (nodes blocks : Nat)
  | mnemonicRefused (error : GraphError)
  | callDataIgnored (opcode : Opcode) (address : UInt64) (error : Text.HexError)
  | instructionSkipped (opcode : Opcode) (address : UInt64) (function : String)
      (error : GraphError)
  | resultDropped (opcode : Opcode) (error : GraphError)
  | traceReplayed (records nodes : Nat)

namespace Event

def list (ids : List NodeId) : String :=
  ", ".intercalate (ids.map toString)

/-- What the log has on a rendering that is not settled. -/
def renderingLines (d : Datum) : List Line :=
  match d.rendering with
  | .settled _ => []
  | .unsettled _ =>
    [⟨.warn, s!"normalization did not converge within {Term.roundLimit} rounds: {d.value.expr}"⟩]
  | .tooLong bytes =>
    [⟨.warn, s!"expression of {bytes} bytes exceeds rendering limit, treated as unknown"⟩]
  | .timedOut => [⟨.warn, s!"normalization timed out, treated as unknown: {d.value.display}"⟩]

def lines : Event → List Line
  | sentinelsAdded function entry exit =>
    [⟨.debug, s!"sentinels of {function}: entry {entry} exit {exit}"⟩]
  | nodeAdded uid category opcode address function tx =>
    [⟨.trace, s!"node {uid}: {category.name} {opcode.name} at {address} of {function}#{tx}"⟩]
  | nodeCompleted uid => [⟨.trace, s!"node {uid} completed"⟩]
  | resultMissed uid => [⟨.debug, s!"node {uid} never received its result"⟩]
  | nodeRemoved uid => [⟨.debug, s!"removed node {uid}"⟩]
  | nodeCollapsed uid kept => [⟨.debug, s!"collapsed node {uid} to its operand {kept}"⟩]
  | linked pred uid slot => [⟨.trace, s!"link {pred} -> {uid}[{slot}]"⟩]
  | edgeSearchStarted opcode uid => [⟨.debug, s!"find edges of {opcode.name} node {uid}"⟩]
  | edgeSearchEnded _ _ => []
  | sourceMissed uid address =>
    [⟨.warn, s!"jump destination {uid} at {address} has no source, removing it"⟩]
  | anomalyFound a => [⟨.warn, s!"node {a.uid}: {a.error.message}"⟩]
  | consulted d => renderingLines d
  | oracleAsked names l r =>
    names.map fun name => ⟨.trace, s!"ask {name} oracle: {l.display} == {r.display}"⟩
  | oracleFailed name error =>
    [⟨.warn, s!"{name} oracle failed, treating values as distinct: {error.message}"⟩]
  | originSearchExhausted seeds limit depth =>
    [⟨.error, s!"start-node search from [{list seeds}] exhausted its limit of {limit} " ++
      s!"at depth {depth}"⟩]
  | originsFound seeds ids dequeues =>
    [⟨.debug, s!"start nodes of [{list seeds}]: \x7b{list ids}\x7d after {dequeues} dequeues"⟩]
  | originSearchEnded _ _ => []
  | ancestorSearchExhausted opcode uid limit =>
    [⟨.error, s!"search for a {opcode.name} ancestor of {uid} exhausted its limit of {limit}"⟩]
  | pathFound function terminal nodes blocks =>
    [⟨.debug, s!"path of {function} to terminal {terminal}: {nodes} nodes over {blocks} blocks"⟩]
  | mnemonicRefused error => [⟨.warn, error.message⟩]
  | callDataIgnored opcode address error =>
    [⟨.warn, s!"ignoring call data of {opcode.name} at {address}: {error.message}"⟩]
  | instructionSkipped opcode address function error =>
    [⟨.warn, s!"skipping {opcode.name} at {address} of {function}: {error.message}"⟩]
  | resultDropped opcode error =>
    [⟨.warn, s!"dropping result of {opcode.name}: {error.message}"⟩]
  | traceReplayed records nodes =>
    [⟨.debug, s!"replayed {records} records into {nodes} nodes"⟩]

end Event
end OperandFlow
