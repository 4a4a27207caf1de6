import OperandFlow.Graph.Block

/-! Linking operands to the nodes that produced them. A link is only made to the nearest producer,
and where nothing is certain none is made. A search that fails gives the graph it left behind with
its error. -/
namespace OperandFlow.Graph

/-- Looks at the canonical text of a value. -/
def consult (d : Datum) : Logged String :=
  ⟨d.rendering.text, [.consulted d]⟩

def ask (o : Oracle) (l r : Value) : Logged Bool :=
  ⟨o.holds l r, .oracleAsked (o.name :: o.relays) l r ::
    match o.answer l r with
    | .ok _ => []
    | .error e => [.oracleFailed o.name e]⟩

/-- Equality of two values; both texts are looked at in any case. -/
def sameValue (host : Host) (l r : Datum) : Logged Bool := do
  let left : Operand := ⟨l.value, ← consult l⟩
  let right : Operand := ⟨r.value, ← consult r⟩
  match left.textEqual? right with
  | some decided => return decided
  | none => ask host.oracle l.value r.value

/-- Whether a node may have produced a value: by its result, or, without one, by an operand that it
passes on. -/
def produces (host : Host) (d : Datum) (n : Node) : Logged Bool :=
  if !n.kind.carriesData || n.is .sstore then pure false
  else
    match n.output with
    | some output => sameValue host output d
    | none =>
      if n.awaiting then pure false
      else (n.slots.filter fun s => !s.value.isEmpty) |> Logged.any fun s => sameValue host s.datum d

def producer? (host : Host) (candidates : List Node) (d : Datum) : Logged (Option NodeId) := do
  return (← Logged.find? (produces host d) candidates).map (·.uid)

/-- The producer of a slot without one, and whether the slot has one then. -/
def resolve (host : Host) (candidates : List Node) (s : Slot) : Logged (Option NodeId × Bool) :=
  if !s.preds.isEmpty then pure (none, true)
  else if s.seeksProducer then do
    let found ← producer? host candidates s.datum
    return (found, found.isSome)
  else pure (none, false)

/-- Links slot `slot` of `uid` to what was found for it. -/
def linkFound (g : Graph) (uid : NodeId) (found : Option NodeId) (slot : Nat) : Logged Graph :=
  match found with
  | some pred => g.link pred uid slot
  | none => pure g

/-- Links every slot to its nearest producer, and says which slots have one then. -/
def linkSlots (host : Host) (g : Graph) (n : Node) : Logged (Graph × List Bool) := do
  let candidates := g.candidates host.options.reach n
  let found ← Logged.map (resolve host candidates) n.slots
  let g ← Logged.fold (fun g (f, i) => g.linkFound n.uid f i) g (found.map (·.1)).zipIdx
  return (g, found.map (·.2))

def storageKeyProducers : List Opcode := [.sha3, .add, .or]

/-- Links one slot of `n` to the nearest of the candidates that produced it. -/
def linkSlot (host : Host) (g : Graph) (n : Node) (slot : Nat) (candidates : List Node) :
    Logged Graph :=
  match n.slots[slot]? with
  | none => pure g
  | some s => do
    let (found, _) ← resolve host candidates s
    g.linkFound n.uid found slot

/-- The key of a storage access. -/
def linkKey (host : Host) (g : Graph) (n : Node) (candidates : List Node) : Logged Graph :=
  g.linkSlot host n 0 (candidates.filter (·.isOneOf storageKeyProducers))

def linkStore (host : Host) (g : Graph) (n : Node) : Logged Graph := do
  let candidates := g.candidates host.options.reach n
  let g ← g.linkKey host n candidates
  g.linkSlot host n 1 candidates

/-- The node wrote to the key `d`. -/
def writesTo (host : Host) (d : Datum) (n : Node) : Logged Bool :=
  match n.is .sstore, n.slots.head? with
  | true, some key => sameValue host key.datum d
  | _, _ => pure false

/-- The value read comes from the latest write to an equal key. -/
def linkLoad (host : Host) (g : Graph) (n : Node) : Logged Graph := do
  let candidates := g.candidates host.options.reach n
  let g ← g.linkKey host n candidates
  match n.slots with
  | key :: value :: _ =>
    if !value.preds.isEmpty || key.value.isEmpty then return g
    else
      let write ← Logged.find? (writesTo host key.datum) candidates
      g.linkFound n.uid (write.map (·.uid)) 1
  | _ => return g

def preimageProducers : List Opcode := [.sha3, .and, .calldataload, .caller, .address]

/-- The result of the node reads `key`. -/
def yieldsKey (key : List Char) (n : Node) : Logged Bool :=
  match n.isOneOf preimageProducers, n.output with
  | true, some output => do return (← consult output).toList = key
  | _, _ => pure false

/-- The symbolic parts of a preimage; a literal at its end is the number of a storage variable. -/
def hashKeys (parts : List (List Char)) : List (List Char) :=
  let keys := if parts.getLast?.any Term.isLiteral then parts.dropLast else parts
  keys.filter fun k => !Term.isLiteral k

/-- Links a hash to the producers of the parts of its preimage, or to the nearest mask if the
preimage starts with the contract's own address. -/
def linkPreimage (host : Host) (g : Graph) (n : Node) : Logged (Except GraphError Unit × Graph) :=
  match n.slots with
  | [] => pure (.ok (), g)
  | slot :: _ =>
    if !slot.preds.isEmpty then pure (.ok (), g)
    else do
      let preimage ← consult slot.datum
      if preimage = "" then return (.ok (), g)
      let candidates := g.candidates host.options.reach n
      let parts := Term.splitArgs preimage.toList
      if parts.head? = some host.options.ownAddress.toList then
        let mask := candidates.find? (·.is .and)
        return (.ok (), ← g.linkFound n.uid (mask.map (·.uid)) 0)
      if parts.length ≠ 2 then
        return (.error (.malformedPreimage n.uid parts.length), g)
      let found ← Logged.map (fun key => Logged.find? (yieldsKey key) candidates) (hashKeys parts)
      return (.ok (), ← Logged.fold (fun g f => g.linkFound n.uid (f.map (·.uid)) 0) g found)

/-- A mask with no producer is noise and is removed; one with a single producer keeps only that
operand. -/
def settleMask (host : Host) (g : Graph) (n : Node) : Logged Graph := do
  let (g, resolved) ← g.linkSlots host n
  if resolved.length < 2 then return g
  match (resolved.zipIdx.filter (·.1)).map (·.2) with
  | [] => g.remove n.uid
  | [only] => g.collapse n.uid only
  | _ => return g

def linkFromEntry (g : Graph) (uid : NodeId) : Logged Graph :=
  g.linkFound uid ((g.boundaries? uid).map (·.entry)) 0

def linkFromLeader (g : Graph) (n : Node) : Logged Graph :=
  g.linkFound n.uid n.leader? 0

/-- A computed offset has a producer; a constant one, or one of unknown origin, reads a
parameter. -/
def linkParameter (host : Host) (g : Graph) (n : Node) : Logged Graph :=
  match n.slots with
  | [] => pure g
  | offset :: _ =>
    if !offset.preds.isEmpty then pure g
    else if offset.seeksProducer then do
      let (g, resolved) ← g.linkSlots host n
      if resolved.head? = some true then return g else g.linkFromEntry n.uid
    else g.linkFromEntry n.uid

/-- A jump to `target` that can still lead somewhere: a conditional one that was not taken yet, or
an unconditional one that only goes to the exit. -/
def isOpenJump (g : Graph) (exit : Option NodeId) (target : Nat) (n : Node) : Bool :=
  n.destination? = some target &&
    if n.is .jumpi then
      !n.successors.any fun s => (g.node? s).any (·.is .jumpdest)
    else if n.is .jump then exit.any fun e => n.successors = [e]
    else false

/-- A jump destination is entered from the latest open jump to it, or from the entry if no block
started before. One that nothing leads to is removed. -/
def linkDestination (host : Host) (g : Graph) (n : Node) : Logged Graph :=
  if !(n.predsAt 0).isEmpty then pure g
  else
    let earlier := g.liveBefore host.options.reach n
    let exit := (g.boundaries? n.uid).map (·.exit)
    match earlier.find? (g.isOpenJump exit n.address.toNat) with
    | some source => g.link source.uid n.uid 0
    | none =>
      if earlier.any fun m => m.is .jumpdest || m.is .jumpi then do
        Logged.emit (.sourceMissed n.uid n.address)
        g.remove n.uid
      else g.linkFromEntry n.uid

/-- How the operands of a live node are linked hangs on its kind and opcode. -/
def linkNode (host : Host) (g : Graph) (n : Node) (opcode : Opcode) :
    Logged (Except GraphError Unit × Graph) :=
  match n.kind, opcode with
  | .stateVariable, .sstore => do return (.ok (), ← g.linkStore host n)
  | .stateVariable, .sload => do return (.ok (), ← g.linkLoad host n)
  | .dataFlow, .sha3 => g.linkPreimage host n
  | .dataFlow, .and => do return (.ok (), ← g.settleMask host n)
  | .dataFlow, .or => do return (.ok (), ← g.settleMask host n)
  | .environment, .calldataload => do return (.ok (), ← g.linkParameter host n)
  | .environment, _ => do
    if n.slots.all (·.value.isEmpty) then return (.ok (), ← g.linkFromEntry n.uid)
    else return (.ok (), (← g.linkSlots host n).1)
  | .controlFlow _, .jumpdest => do return (.ok (), ← g.linkDestination host n)
  | .controlFlow _, _ => do return (.ok (), ← g.linkFromLeader n)
  | .call _, _ | .dataFlow, _ | .stateVariable, _ | .log _, _ => do
    return (.ok (), (← g.linkSlots host n).1)
  | .entry, _ | .exit, _ | .deleted, _ | .unknown, _ => pure (.ok (), g)

/-- Links the operands of a node to their producers. Slots that have a predecessor are left as
they are. -/
def findEdges (host : Host) (g : Graph) (uid : NodeId) :
    Logged (Except GraphError Unit × Graph) :=
  match g.node? uid with
  | none => pure (.error (.unknownNode uid), g)
  | some n =>
    match n.isDeleted || n.isSentinel, n.opcode? with
    | false, some opcode => do
      Logged.emit (.edgeSearchStarted opcode uid)
      g.linkNode host n opcode
    | _, _ => pure (.ok (), g)

end OperandFlow.Graph
