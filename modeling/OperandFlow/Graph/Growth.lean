import OperandFlow.Graph.Linking

/-! How a graph grows: instructions arrive, and their results follow or stay away. -/
namespace OperandFlow

/-- All that a host knows of an instruction when it makes its node. -/
structure Arrival where
  function : String
  tx : UInt64
  opcode : Opcode
  address : UInt64
  /-- With `unknown` the opcode decides. -/
  category : Category
  operands : List Value
  callData : Option (List UInt8)
  logData : Option Value
  state : Option String

namespace Arrival

/-- Sentinels and removed nodes can not arrive. -/
def category? (a : Arrival) : Except GraphError Category :=
  match a.category with
  | .unknown => .ok a.opcode.category
  | .entryExit | .deleted => .error (.unsupportedCategory a.opcode a.category)
  | category => .ok category

def operand (a : Arrival) (i : Nat) : Value :=
  a.operands.getD i .empty

def kind (a : Arrival) : Category → Kind
  | .stateVariable => .stateVariable
  | .environmentContext => .environment
  | .dataFlow => .dataFlow
  | .logInformation => .log ((a.operands.head?.map (·.expr)).getD "")
  | .controlFlow =>
    if a.opcode.isCall then
      let transfer := match a.opcode with
        | .call | .callcode => a.operands[2]?
        | _ => none
      .call (.decode (a.callData.getD []) transfer)
    else if a.opcode.isJump then .controlFlow (a.operands.head?.bind Value.concrete?)
    else .controlFlow none
  | .entryExit | .deleted | .unknown => .unknown

/-- There is always one value at least. -/
def orEmpty (values : List Value) : List Value :=
  if values.isEmpty then [.empty] else values

/-- The values in the node's slots. Storage accesses keep key and value apart in any category. -/
def slotValues (a : Arrival) (category : Category) : List Value :=
  if a.opcode.isStorage then [a.operand 0, a.operand 1]
  else
    match category with
    | .stateVariable => [a.operand 0, a.operand 1]
    | .logInformation => orEmpty (a.operands.drop 1 ++ a.logData.toList)
    | .controlFlow => [a.operand (if a.opcode.isCall then 1 else 0)]
    | _ => orEmpty a.operands

/-- The first operand that the opcode needs and that is not there. -/
def missing? (a : Arrival) (uid : NodeId) : Option GraphError :=
  let present := (a.operands.takeWhile fun v => !v.isEmpty).length
  if present < a.opcode.required then some (.missingOperand uid a.opcode present) else none

/-- The result of the instruction is waited for. -/
def isDeferred (a : Arrival) (category : Category) (uid : NodeId) : Bool :=
  a.opcode.reportsResult && a.kind category ≠ .unknown && (a.missing? uid).isNone

end Arrival

namespace Graph

/-- Links a node; a failure is put on record. -/
def runEdgeSearch (host : Host) (g : Graph) (uid : NodeId) : Logged Graph := do
  let (found, linked) ← g.findEdges host uid
  match (g.node? uid).bind (·.opcode?) with
  | some opcode => Logged.emit (.edgeSearchEnded opcode host.reading)
  | none => pure ()
  match found with
  | .ok () => pure ()
  | .error e => Logged.emit (.anomalyFound ⟨uid, e⟩)
  return linked

/-- The node waits no longer. -/
def unpend (g : Graph) (uid : NodeId) : Graph :=
  { g.update uid fun n => { n with awaiting := false } with
    pending := g.pending.filter (· ≠ uid) }

/-- Links a node without its result. -/
def finish (host : Host) (g : Graph) (uid : NodeId) : Logged Graph := do
  Logged.emit (.resultMissed uid)
  (g.unpend uid).runEdgeSearch host uid

/-- The nodes with `p` that wait for their result. -/
def pendingWhere (g : Graph) (p : Node → Bool) : List NodeId :=
  g.pending.filter fun uid => (g.node? uid).any p

def flushWhere (host : Host) (p : Node → Bool) (g : Graph) : Logged Graph :=
  Logged.fold (finish host) g (g.pendingWhere p)

/-- Links the waiting nodes of a function, or of all functions, without their results. -/
def flush (host : Host) (function : Option String) (g : Graph) : Logged Graph :=
  g.flushWhere host fun n => function.all (n.function = ·)

/-- The node of an arrival, which goes to the exit for now. -/
def nodeOf (o : Options) (g : Graph) (s : Sentinels) (a : Arrival) (category : Category) : Node :=
  let uid := g.size
  { uid := uid
    function := a.function
    instruction := some
      { tx := a.tx
        opcode := a.opcode
        address := a.address
        leader :=
          if a.opcode = .jumpdest then uid else g.leaderFor s.entry a.function a.tx a.address }
    kind := a.kind category
    slots := o.slots uid (a.slotValues category)
    successors := [s.exit]
    awaiting := a.isDeferred category uid
    output := none
    state := a.state }

def attach (g : Graph) (n : Node) (exit : NodeId) : Graph :=
  (g.push n).update exit (·.addPred 0 n.uid)

/-- Looks at values ahead of time if the host wants it so. -/
def prepare (o : Options) (data : List Datum) : Logged Unit :=
  ⟨(), if o.eager then data.map .consulted else []⟩

/-- Makes the node of an instruction. A node that waits for its result is linked later, and one
that can not be linked is put on record; waiting nodes of the same call are linked first. -/
def add (host : Host) (g : Graph) (a : Arrival) : Logged (Except GraphError NodeId × Graph) :=
  match a.category? with
  | .error e => pure (.error e, g)
  | .ok category => do
    let g ← g.flushWhere host fun n => n.function = a.function && n.tx? = some a.tx
    let (g, s) ← g.withFunction host.options a.function
    let n := g.nodeOf host.options s a category
    Logged.emit (.nodeAdded n.uid n.category a.opcode a.address a.function a.tx)
    prepare host.options (n.slots.map (·.datum))
    let g := g.attach n s.exit
    if n.kind = .unknown then
      Logged.emit (.anomalyFound ⟨n.uid, .unsupportedCategory a.opcode .unknown⟩)
      return (.ok n.uid, g)
    match a.missing? n.uid with
    | some e =>
      Logged.emit (.anomalyFound ⟨n.uid, e⟩)
      return (.ok n.uid, g)
    | none =>
      if n.awaiting then return (.ok n.uid, { g with pending := g.pending ++ [n.uid] })
      else return (.ok n.uid, ← g.runEdgeSearch host n.uid)

/-- The newest waiting node of a function with an opcode. -/
def awaiting? (g : Graph) (function : String) (opcode : Opcode) : Option NodeId :=
  (g.pendingWhere fun n => n.function = function && n.is opcode).getLast?

/-- A result that arrived. A storage read loaded it. -/
def supply (o : Options) (opcode : Opcode) (result : Value) (state : Option String) (n : Node) :
    Node :=
  { n with
    slots :=
      if opcode = .sload then n.slots.modify 1 fun s =>
        if s.value.isEmpty then o.slot n.uid .loaded result else s
      else n.slots
    output := some (o.datum n.uid .result result)
    state := state.or n.state }

/-- Completes the newest waiting node of a function with an opcode and links it. -/
def complete (host : Host) (g : Graph) (function : String) (opcode : Opcode) (result : Value)
    (state : Option String) : Logged (Except GraphError NodeId × Graph) :=
  match g.awaiting? function opcode with
  | none => pure (.error (.noPendingNode function opcode), g)
  | some uid => do
    prepare host.options [host.options.datum uid .result result]
    Logged.emit (.nodeCompleted uid)
    let g := (g.unpend uid).update uid (supply host.options opcode result state)
    return (.ok uid, ← g.runEdgeSearch host uid)

/-- Removes a node; a sentinel stays, and a removed node stays removed. -/
def discard (g : Graph) (uid : NodeId) : Logged (Except GraphError Unit × Graph) :=
  match g.node? uid with
  | none => pure (.error (.unknownNode uid), g)
  | some n =>
    if n.isSentinel then
      pure (.error (.unsupportedCategory (n.opcode?.getD .invalid) .entryExit), g)
    else if n.isDeleted then pure (.ok (), g)
    else do return (.ok (), ← g.remove uid)

end Graph
end OperandFlow
