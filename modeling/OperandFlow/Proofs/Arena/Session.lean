import OperandFlow.Proofs.Arena.Search
import OperandFlow.Proofs.Calls

/-! Sessions in an arena: how it grows, what it answers, and rows of calls. An operation that fails
answers with its error and leaves the arena as it is by then. -/
namespace OperandFlow.Arena

/-! ### Growth -/

/-- Links a node; a failure is put on record. -/
def runEdgeSearch (uid : NodeId) : InPlace Unit := do
  let opcode := (← item uid).opcode?
  let found ← findEdges uid
  match opcode with
  | some opcode => note (.edgeSearchEnded opcode (← get).host.reading)
  | none => pure ()
  match found with
  | .ok () => pure ()
  | .error e => note (.anomalyFound ⟨uid, e⟩)

/-- The node waits no longer. -/
def unpend (uid : NodeId) : InPlace Unit := do
  modify fun st => { st with pending := st.pending.filter (· ≠ uid) }
  write uid fun x => { x with awaiting := false }

/-- Links a node without its result. -/
def finish (uid : NodeId) : InPlace Unit := do
  note (.resultMissed uid)
  unpend uid
  runEdgeSearch uid

def flushWhere (p : Item → Bool) : InPlace Unit := do
  (← keep p (← get).pending).forM finish

def flush (function : Option String) : InPlace Unit :=
  flushWhere fun x => function.all (x.function = ·)

def byName (a b : String × Sentinels) : Bool := a.1 < b.1

/-- The sentinels of a function, made if they are not there yet. -/
def ensureFunction (function : String) : InPlace Sentinels := do
  let st ← get
  match st.sentinels.lookup function with
  | some s => return s
  | none =>
    let s : Sentinels := ⟨st.items.size, st.items.size + 1⟩
    push (.sentinel s.entry function .entry)
    push (.sentinel s.exit function .exit)
    note (.sentinelsAdded function s.entry s.exit)
    modify fun st => { st with sentinels := Ordered.insert byName (function, s) st.sentinels }
    return s

/-- The blocks of a call start at the entry of its function. -/
def openCall (key : CallKey) (entry : NodeId) : InPlace Unit :=
  modify fun st =>
    { st with starts := Function.update st.starts key (some ((st.starts key).getD [entry])) }

def addStart (key : CallKey) (uid : NodeId) : InPlace Unit :=
  modify fun st =>
    { st with starts := Function.update st.starts key ((st.starts key).map (· ++ [uid])) }

/-- The leader of the block of a new node: the node itself, if a jump leads there. -/
def leaderOf (uid : NodeId) (a : Arrival) : InPlace NodeId :=
  if a.opcode = .jumpdest then return uid else leaderFor (a.function, a.tx) a.address

/-- Blocks start at the targets of jumps and behind conditional jumps. -/
def openBlock (uid : NodeId) (a : Arrival) : InPlace Unit :=
  if a.opcode = .jumpdest ∨ a.opcode = .jumpi then addStart (a.function, a.tx) uid else return

/-- Finds the leader of a new node. -/
def place (uid : NodeId) (s : Sentinels) (a : Arrival) : InPlace NodeId := do
  openCall (a.function, a.tx) s.entry
  let leader ← leaderOf uid a
  openBlock uid a
  return leader

def addMember (key : CallKey) (uid : NodeId) : InPlace Unit :=
  modify fun st =>
    { st with members := Function.update st.members key (some ((st.members key).getD [] ++ [uid])) }

/-- The node of an arrival, which goes to the exit for now. -/
def itemOf (uid leader : NodeId) (s : Sentinels) (a : Arrival) (category : Category) : Item where
  uid := uid
  function := a.function
  instruction := some ⟨a.tx, a.opcode, a.address, leader⟩
  kind := a.kind category
  fields := (a.slotValues category).zipIdx.map fun (value, i) => .new uid (.operand i) value
  successors := [s.exit]
  awaiting := a.isDeferred category uid
  output := none
  state := a.state

/-- Puts a new node behind the others, before the exit and on the list of its call. -/
def enter (uid leader : NodeId) (s : Sentinels) (a : Arrival) (category : Category) :
    InPlace Unit := do
  let x := itemOf uid leader s a category
  note (.nodeAdded uid x.kind.category a.opcode a.address a.function a.tx)
  push (x.prepared (← get).host.options)
  writeField s.exit 0 (·.add uid)
  addMember (a.function, a.tx) uid

/-- Makes the node of an arrival. -/
def store (s : Sentinels) (a : Arrival) (category : Category) : InPlace NodeId := do
  let uid := (← get).items.size
  let leader ← place uid s a
  enter uid leader s a category
  return uid

/-- What becomes of a new node: it is put on record, waits for its result or is linked. -/
def settle (uid : NodeId) (a : Arrival) : InPlace Unit := do
  let x ← item uid
  if x.kind = .unknown then
    note (.anomalyFound ⟨uid, .unsupportedCategory a.opcode .unknown⟩)
  else
    match a.missing? uid with
    | some e => note (.anomalyFound ⟨uid, e⟩)
    | none =>
      if x.awaiting then modify fun st => { st with pending := st.pending ++ [uid] }
      else runEdgeSearch uid

/-- Makes the node of an instruction. Waiting nodes of the same call are linked first, but not
before it is known that the instruction can be taken. -/
def add (a : Arrival) : InPlace (Except GraphError NodeId) :=
  match a.category? with
  | .error e => return .error e
  | .ok category => do
    flushWhere fun x => x.function = a.function && x.tx? = some a.tx
    let s ← ensureFunction a.function
    let uid ← store s a category
    settle uid a
    return .ok uid

/-- A result that arrived. A storage read loaded it. -/
def supply (o : Options) (opcode : Opcode) (result : Value) (state : Option String) (x : Item) :
    Item :=
  let output := Cell.new x.uid .result result
  { x with
    fields :=
      if opcode = .sload then x.fields.modify 1 fun f =>
        if f.value.isEmpty then .new x.uid .loaded result else f
      else x.fields
    output := some (if o.eager then output.fill o else output)
    awaiting := false
    state := state.or x.state }

/-- The newest waiting node of a function with an opcode, and where it is listed. -/
def awaiting? (function : String) (opcode : Opcode) : InPlace (Option (NodeId × Nat)) := do
  (← get).pending.zipIdx.reverse.findM? fun p => do
    let x ← item p.1
    return x.function = function && x.is opcode

/-- Takes a node from the list and gives it its result. -/
def deliver (uid : NodeId) (position : Nat) (opcode : Opcode) (result : Value)
    (state : Option String) : InPlace Unit := do
  modify fun st => { st with pending := st.pending.eraseIdx position }
  write uid (supply (← get).host.options opcode result state)

/-- Completes the newest waiting node of a function with an opcode and links it. -/
def complete (function : String) (opcode : Opcode) (result : Value) (state : Option String) :
    InPlace (Except GraphError NodeId) := do
  match ← awaiting? function opcode with
  | none => return .error (.noPendingNode function opcode)
  | some (uid, position) =>
    deliver uid position opcode result state
    note (.nodeCompleted uid)
    runEdgeSearch uid
    return .ok uid

/-- Removes a node; a sentinel stays, and a removed node stays removed. -/
def discard (uid : NodeId) : InPlace (Except GraphError Unit) := do
  match ← item? uid with
  | none => return .error (.unknownNode uid)
  | some x =>
    if x.isSentinel then
      return .error (.unsupportedCategory (x.opcode?.getD .invalid) .entryExit)
    if !x.isDeleted then tombstone uid
    return .ok ()

def reset : InPlace Unit :=
  modify fun st =>
    { start st.host with ledger := { Ledger.empty with queries := st.ledger.queries } }

/-! ### Hooks -/

def hookedOpcode (mnemonic : String) (hooked : Opcode → Bool) : InPlace (Option Opcode) := do
  match Opcode.ofMnemonic mnemonic with
  | .ok opcode => return if hooked opcode then some opcode else none
  | .error e =>
    note (.mnemonicRefused e)
    return none

def decodeCallData (opcode : Opcode) (address : UInt64) (data : Option String) :
    InPlace (Option (List UInt8)) := do
  match data.map fun text => Text.unhex (dropMarks text.toUTF8.toList) with
  | none => return none
  | some (.ok bytes) => return some bytes
  | some (.error e) =>
    note (.callDataIgnored opcode address e)
    return none

/-- Makes the node of an instruction, if it is traced. -/
def onPre (e : PreEvent) (state : Option String) : InPlace (Option NodeId) := do
  match ← hookedOpcode e.opcode Opcode.reportsOperands with
  | none => return none
  | some opcode =>
    let callData ← decodeCallData opcode e.address e.callData
    match ← add ⟨e.function, e.tx, opcode, e.address, .unknown, e.operands, callData, e.logData,
        state⟩ with
    | .ok uid => return some uid
    | .error error =>
      note (.instructionSkipped opcode e.address e.function error)
      return none

/-- Completes the node of an instruction, if one waits. -/
def onPost (e : PostEvent) (state : Option String) : InPlace (Option NodeId) := do
  match ← hookedOpcode e.opcode Opcode.reportsResult with
  | none => return none
  | some opcode =>
    match ← complete e.function opcode e.result state with
    | .ok uid => return some uid
    | .error error =>
      note (.resultDropped opcode error)
      return none

def apply : HookRecord → InPlace Unit
  | .pre e => do let _ ← onPre e none
  | .post e => do let _ ← onPost e none

def replayLines (line records : Nat) : List (List UInt8) → InPlace (Except ReplayError Nat)
  | [] => return .ok records
  | bytes :: rest => do
    match String.fromUTF8? (ByteArray.mk bytes.toArray) with
    | none => return .error .unreadable
    | some text =>
      if Text.allBlank text.toList then replayLines (line + 1) records rest
      else
        match HookRecord.read? text with
        | none => return .error (.malformed line)
        | some record =>
          apply record
          replayLines (line + 1) (records + 1) rest

def replay (trace : List UInt8) : InPlace (Except ReplayError ReplaySummary) := do
  let before := (← get).items.size
  match ← replayLines 1 0 (Analysis.linesOf [] trace) with
  | .error e => return .error e
  | .ok records =>
    flush none
    let nodes := (← get).items.size - before
    note (.traceReplayed records nodes)
    return .ok ⟨records, nodes⟩

end OperandFlow.Arena
