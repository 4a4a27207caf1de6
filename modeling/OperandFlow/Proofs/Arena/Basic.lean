import Mathlib.Logic.Function.Basic
import OperandFlow.Trace.Replay

/-! The arena of an analysis: nodes that are changed in place, tables of the nodes of each function
and call, and values whose canonical form is worked out when it is first looked at. Every index is
checked. -/
namespace OperandFlow

/-- A value at a node, with its canonical form once it was looked at. -/
structure Cell where
  id : DatumId
  value : Value
  rendering : Option Rendering

namespace Cell

def new (node : NodeId) (place : DatumPlace) (value : Value) : Cell := ⟨⟨node, place⟩, value, none⟩

/-- What a look at the cell gives: what is kept there, or else what is worked out now. -/
def read (o : Options) (c : Cell) : Rendering :=
  c.rendering.getD (.ofExpr o.maxExpressionLength o.deadline c.value.expr)

/-- The cell after a look at it. -/
def fill (o : Options) (c : Cell) : Cell :=
  { c with rendering := some (c.read o) }

/-- The value as a client finds it. -/
def datum (o : Options) (c : Cell) : Datum := ⟨c.id, c.value, c.read o⟩

end Cell

/-- An operand and the nodes that supply it. -/
structure Field where
  cell : Cell
  preds : List NodeId

namespace Field

def new (node : NodeId) (place : DatumPlace) (value : Value) : Field := ⟨.new node place value, []⟩

def value (f : Field) : Value := f.cell.value

def seeksProducer (f : Field) : Bool :=
  !f.value.isEmpty && !f.value.isLiteral

def add (pred : NodeId) (f : Field) : Field :=
  { f with preds := f.preds ++ [pred] }

def erase (pred : NodeId) (f : Field) : Field :=
  { f with preds := f.preds.filter (· ≠ pred) }

def slot (o : Options) (f : Field) : Slot := ⟨f.cell.datum o, f.preds⟩

end Field

/-- Which of the values of a node is meant. -/
inductive Spot where
  | operand (index : Nat)
  | output

/-- A node as it is stored. -/
structure Item where
  uid : NodeId
  function : String
  instruction : Option Instruction
  kind : Kind
  fields : List Field
  successors : List NodeId
  awaiting : Bool
  output : Option Cell
  state : Option String

namespace Item

def opcode? (x : Item) : Option Opcode := x.instruction.map (·.opcode)

def tx? (x : Item) : Option UInt64 := x.instruction.map (·.tx)

def leader? (x : Item) : Option NodeId := x.instruction.map (·.leader)

def address (x : Item) : UInt64 := (x.instruction.map (·.address)).getD 0

def is (x : Item) (o : Opcode) : Bool := x.opcode? = some o

def isOneOf (x : Item) (os : List Opcode) : Bool := os.any x.is

def isDeleted (x : Item) : Bool := x.kind = .deleted

def isEntry (x : Item) : Bool := x.kind = .entry

def isSentinel (x : Item) : Bool := x.kind = .entry || x.kind = .exit

def destination? (x : Item) : Option Nat :=
  match x.kind with
  | .controlFlow target => target
  | _ => none

def predecessors (x : Item) : List NodeId := (x.fields.flatMap (·.preds)).eraseDups

def onField (i : Nat) (f : Field → Field) (x : Item) : Item :=
  { x with fields := x.fields.modify i f }

def erasePred (pred : NodeId) (x : Item) : Item :=
  { x with fields := x.fields.map (·.erase pred) }

def eraseSuccessor (succ : NodeId) (x : Item) : Item :=
  { x with successors := x.successors.filter (· ≠ succ) }

def addSuccessor (succ : NodeId) (x : Item) : Item :=
  if succ ∈ x.successors then x else { x with successors := x.successors ++ [succ] }

/-- The values stay, and the edges go. -/
def bury (x : Item) : Item :=
  { x with
    fields := x.fields.map fun f => { f with preds := [] }
    kind := .deleted
    awaiting := false }

def cell? (x : Item) : Spot → Option Cell
  | .operand i => x.fields[i]?.map (·.cell)
  | .output => x.output

def onCell (f : Cell → Cell) (x : Item) : Spot → Item
  | .operand i => x.onField i fun field => { field with cell := f field.cell }
  | .output => { x with output := x.output.map f }

/-- All operands are looked at. -/
def fill (o : Options) (x : Item) : Item :=
  { x with fields := x.fields.map fun f => { f with cell := f.cell.fill o } }

/-- The node with its operands looked at ahead of time, if the host wants it so. -/
def prepared (o : Options) (x : Item) : Item :=
  if o.eager then x.fill o else x

/-- The node as a client finds it. -/
def node (o : Options) (x : Item) : Node where
  uid := x.uid
  function := x.function
  instruction := x.instruction
  kind := x.kind
  slots := x.fields.map (·.slot o)
  successors := x.successors
  awaiting := x.awaiting
  output := x.output.map (·.datum o)
  state := x.state

/-- A node that begins or ends a function. -/
def sentinel (uid : NodeId) (function : String) (kind : Kind) : Item where
  uid := uid
  function := function
  instruction := none
  kind := kind
  fields := [.new uid (.operand 0) .empty]
  successors := []
  awaiting := false
  output := none
  state := none

end Item

/-- What is kept of the events. -/
structure Ledger where
  anomalies : Array Anomaly
  profile : Profile
  /-- What the oracle was asked, oldest first. -/
  queries : List (Value × Value)

namespace Ledger

def empty : Ledger := ⟨#[], .empty, []⟩

def note (l : Ledger) (e : Event) : Ledger where
  anomalies := match e with
    | .anomalyFound a => l.anomalies.push a
    | _ => l.anomalies
  profile := l.profile.observe e
  queries := match e with
    | .oracleAsked _ lhs rhs => l.queries ++ [(lhs, rhs)]
    | _ => l.queries

def noteAll (l : Ledger) (es : List Event) : Ledger :=
  es.foldl note l

end Ledger

/-- A call of a function: its name and the transaction. -/
abbrev CallKey := String × UInt64

structure Arena where
  host : Host
  items : Array Item
  /-- The sentinels of each function, in the order of their names. -/
  sentinels : List (String × Sentinels)
  /-- The nodes of each call, oldest first. -/
  members : CallKey → Option (List NodeId)
  /-- The nodes of each call that blocks start at, oldest first. -/
  starts : CallKey → Option (List NodeId)
  pending : List NodeId
  ledger : Ledger

/-- Changes an arena in place. Nothing comes out once an index is out of bounds. -/
abbrev InPlace := StateT Arena Option

namespace Arena

def start (host : Host) : Arena := ⟨host, #[], [], fun _ => none, fun _ => none, [], .empty⟩

/-- The graph as a client finds it. -/
def graph (st : Arena) : Graph := ⟨st.items.map (·.node st.host.options), st.pending⟩

/-! ### Single nodes -/

/-- The node at an index, if there is one. -/
def item? (uid : NodeId) : InPlace (Option Item) := do
  return (← get).items[uid]?

/-- The node at an index that has to be there. -/
def item (uid : NodeId) : InPlace Item := do
  (← get).items[uid]?

def field (uid : NodeId) (i : Nat) : InPlace Field := do
  (← item uid).fields[i]?

def write (uid : NodeId) (f : Item → Item) : InPlace Unit := do
  let _ ← item uid
  modify fun st => { st with items := st.items.modify uid f }

def writeField (uid : NodeId) (i : Nat) (f : Field → Field) : InPlace Unit := do
  let _ ← field uid i
  write uid (Item.onField i f)

def push (x : Item) : InPlace Unit :=
  modify fun st => { st with items := st.items.push x }

def note (e : Event) : InPlace Unit :=
  modify fun st => { st with ledger := st.ledger.note e }

/-- The result of what does not need the arena, with its events noted. -/
def logged {α : Type} (x : Logged α) : InPlace α := do
  x.events.forM note
  return x.value

def sentinelsOf (uid : NodeId) : InPlace (Option Sentinels) := do
  let x ← item uid
  return (← get).sentinels.lookup x.function

/-! ### Values -/

/-- Looks at the canonical text of a value, which is kept from then on. -/
def look (uid : NodeId) (spot : Spot) : InPlace Operand := do
  let o := (← get).host.options
  let cell ← (← item uid).cell? spot
  write uid (·.onCell (Cell.fill o) spot)
  return ⟨cell.value, (cell.read o).text⟩

/-- Equality of two values; both are looked at in any case. -/
def sameValue (l r : NodeId × Spot) : InPlace Bool := do
  let left ← look l.1 l.2
  let right ← look r.1 r.2
  match left.textEqual? right with
  | some decided => return decided
  | none => logged (Graph.ask (← get).host.oracle left.value right.value)

/-! ### Edges -/

/-- Makes `pred` supply a slot of `uid` in place of going to the exit. -/
def connect (pred uid : NodeId) (slot : Nat) : InPlace Unit := do
  writeField uid slot (·.add pred)
  match ← sentinelsOf uid with
  | none => write pred (·.addSuccessor uid)
  | some s =>
    write pred fun x => (x.eraseSuccessor s.exit).addSuccessor uid
    writeField s.exit 0 (·.erase pred)

/-- Connects two nodes, unless they are one, the slot is not there or the link is. -/
def link (pred uid : NodeId) (slot : Nat) : InPlace Unit := do
  if pred = uid then return
  if (← item uid).fields.length ≤ slot then return
  if pred ∈ (← field uid slot).preds then return
  connect pred uid slot
  note (.linked pred uid slot)

def linkFound (uid : NodeId) (found : Option NodeId) (slot : Nat) : InPlace Unit :=
  match found with
  | some pred => link pred uid slot
  | none => return

/-- Takes `uid` from the successors of `pred`, which goes to the exit if none is left. -/
def release (exit : Option NodeId) (uid pred : NodeId) : InPlace Unit := do
  write pred (·.eraseSuccessor uid)
  let x ← item pred
  if x.successors.isEmpty && !x.isSentinel then
    match exit with
    | none => return
    | some exit =>
      write pred fun x => { x with successors := x.successors ++ [exit] }
      writeField exit 0 (·.add pred)

/-- Removes a node: its neighbours first, then its own edges. -/
def tombstone (uid : NodeId) : InPlace Unit := do
  let exit := (← sentinelsOf uid).map (·.exit)
  (← item uid).predecessors.forM (release exit uid)
  let successors := (← item uid).successors
  write uid fun x => { x with successors := [] }
  successors.forM fun succ => write succ (·.erasePred uid)
  write uid Item.bury
  modify fun st => { st with pending := st.pending.filter (· ≠ uid) }
  note (.nodeRemoved uid)

/-- Keeps one slot of a node. -/
def collapse (uid : NodeId) (keep : Nat) : InPlace Unit := do
  match (← item uid).fields[keep]? with
  | none => return
  | some kept =>
    write uid fun x => { x with fields := [kept] }
    note (.nodeCollapsed uid keep)

end Arena
end OperandFlow
