import OperandFlow.Proofs.Arena.Basic

/-! The search for the edges of a node in an arena. Producers are looked for among the nodes that
the table of a call lists, and each is read where it is stored at that time. -/
namespace OperandFlow.Arena

/-! ### Blocks -/

/-- The leader of the block before the one that `leader` leads, and the conditional jump that was
taken in between. -/
def stepBack (entry : Option NodeId) (leader : NodeId) :
    InPlace (Option NodeId × List NodeId) := do
  let x ← item leader
  if x.isEntry then return (none, [])
  else if x.is .jumpdest then
    match (← field leader 0).preds with
    | [] => return (entry, [])
    | pred :: _ =>
      let y ← item pred
      if y.isEntry then return (some pred, [])
      else return (y.leader?, if y.is .jumpi then [pred] else [])
  else return (x.leader?, [])

def chainTo (entry : Option NodeId) (leader : NodeId) : InPlace (List NodeId) := do
  let (next, taken) ← stepBack entry leader
  let earlier ← match next with
    | some l => if l < leader then chainTo entry l else pure []
    | none => pure []
  return earlier ++ taken ++ [leader]
termination_by leader

def leaderChain (uid : NodeId) : InPlace (Except GraphError (List NodeId)) := do
  match ← item? uid with
  | none => return .error (.unknownNode uid)
  | some x =>
    let entry := (← sentinelsOf uid).map (·.entry)
    match x.leader? with
    | none => return .ok [uid]
    | some leader => return .ok (← chainTo entry leader)

def isTaken (jump next : NodeId) : InPlace Bool := do
  if (← item jump).is .jumpi then
    if (← item next).is .jumpdest then return (← field next 0).preds.contains jump
    else return false
  else return false

def trail : List NodeId → InPlace (List NodeId)
  | [] => return []
  | [uid] => return [uid]
  | uid :: next :: rest => do
    let taken ← isTaken uid next
    let leaders ← trail (next :: rest)
    return if taken then leaders else uid :: leaders

/-- The first of the nodes that can lead the block of an instruction at `address`. -/
def leaderAmong (address : UInt64) : List NodeId → InPlace (Option NodeId)
  | [] => return none
  | uid :: rest => do
    let x ← item uid
    if x.isEntry then return some uid
    else if x.isDeleted then leaderAmong address rest
    else if x.is .jumpdest && x.address ≤ address || x.is .jumpi && x.address < address then
      return some uid
    else leaderAmong address rest

/-- The leader of the block that a new instruction joins: the newest start of a block that can
be. -/
def leaderFor (key : CallKey) (address : UInt64) : InPlace NodeId := do
  let st ← get
  let entry := ((st.sentinels.lookup key.1).map (·.entry)).getD 0
  match st.starts key with
  | none => return entry
  | some starts => return (← leaderAmong address starts.reverse).getD entry

/-- The listed nodes with `p`. -/
def keep (p : Item → Bool) : List NodeId → InPlace (List NodeId)
  | [] => return []
  | uid :: rest => do
    let x ← item uid
    let kept ← keep p rest
    return if p x then uid :: kept else kept

/-- Earlier nodes of the call of a node, newest first, as far as the limit reaches. -/
def membersBefore (uid : NodeId) : InPlace (List NodeId) := do
  let x ← item uid
  let st ← get
  match x.tx? with
  | none => return []
  | some tx =>
    let members := (st.members (x.function, tx)).getD []
    return (members.reverse.filter (· < uid)).take st.host.options.reach

def liveBefore (uid : NodeId) : InPlace (List NodeId) := do
  keep (!·.isDeleted) (← membersBefore uid)

/-- Where producers of the operands of a node are looked for. -/
def candidates (uid : NodeId) : InPlace (List NodeId) := do
  match ← leaderChain uid with
  | .error _ => return []
  | .ok chain =>
    let leaders ← trail chain
    keep (fun x => !x.isDeleted && x.leader?.any leaders.contains) (← membersBefore uid)

/-! ### Producers -/

/-- Whether a node may have produced a value: by its result, or, without one, by an operand that it
passes on. -/
def produces (target : NodeId × Spot) (uid : NodeId) : InPlace Bool := do
  let x ← item uid
  if !x.kind.carriesData || x.is .sstore then return false
  else
    match x.output with
    | some _ => sameValue (uid, .output) target
    | none =>
      if x.awaiting then return false
      else
        let present := x.fields.zipIdx.filter fun f => !f.1.value.isEmpty
        present.anyM fun f => sameValue (uid, .operand f.2) target

/-- The nearest of the candidates with an opcode that `p` allows that produced the value. -/
def producer (p : Item → Bool) (candidates : List NodeId) (target : NodeId × Spot) :
    InPlace (Option NodeId) :=
  candidates.findM? fun uid => do
    if p (← item uid) then produces target uid else return false

/-- The producer of a slot without one, and whether the slot has one then. -/
def resolve (p : Item → Bool) (candidates : List NodeId) (uid : NodeId) (f : Field) (i : Nat) :
    InPlace (Option NodeId × Bool) := do
  if !f.preds.isEmpty then return (none, true)
  else if f.seeksProducer then
    let found ← producer p candidates (uid, .operand i)
    return (found, found.isSome)
  else return (none, false)

/-- Links every slot to its nearest producer, and says which slots have one then. -/
def linkSlots (uid : NodeId) : InPlace (List Bool) := do
  let candidates ← candidates uid
  let found ← (← item uid).fields.zipIdx.mapM fun f =>
    resolve (fun _ => true) candidates uid f.1 f.2
  (found.map (·.1)).zipIdx.forM fun f => linkFound uid f.1 f.2
  return found.map (·.2)

/-- Links one slot to the nearest of the candidates with `p` that produced it. -/
def linkSlot (p : Item → Bool) (candidates : List NodeId) (uid : NodeId) (i : Nat) :
    InPlace Unit := do
  let (found, _) ← resolve p candidates uid (← field uid i) i
  linkFound uid found i

/-- The key of a storage access. -/
def linkKey (candidates : List NodeId) (uid : NodeId) : InPlace Unit :=
  linkSlot (·.isOneOf Graph.storageKeyProducers) candidates uid 0

def linkStore (uid : NodeId) : InPlace Unit := do
  let candidates ← candidates uid
  linkKey candidates uid
  linkSlot (fun _ => true) candidates uid 1

/-- The value read comes from the latest write to an equal key. -/
def linkLoad (uid : NodeId) : InPlace Unit := do
  let candidates ← candidates uid
  linkKey candidates uid
  let value ← field uid 1
  let key ← field uid 0
  if !value.preds.isEmpty || key.value.isEmpty then return
  let write ← candidates.findM? fun c => do
    if (← item c).is .sstore then sameValue (c, .operand 0) (uid, .operand 0) else return false
  linkFound uid write 1

/-- The result of the node reads `key`. -/
def yieldsKey (key : List Char) (uid : NodeId) : InPlace Bool := do
  let x ← item uid
  match x.isOneOf Graph.preimageProducers, x.output with
  | true, some _ => return (← look uid .output).canonical.toList = key
  | _, _ => return false

/-- Links a hash to the producers of the parts of its preimage, or to the nearest mask if the
preimage starts with the contract's own address. -/
def linkPreimage (uid : NodeId) : InPlace (Except GraphError Unit) := do
  if !(← field uid 0).preds.isEmpty then return .ok ()
  let preimage := (← look uid (.operand 0)).canonical
  if preimage = "" then return .ok ()
  let candidates ← candidates uid
  let parts := Term.splitArgs preimage.toList
  if parts.head? = some (← get).host.options.ownAddress.toList then
    let mask ← candidates.findM? fun c => do return (← item c).is .and
    linkFound uid mask 0
    return .ok ()
  if parts.length ≠ 2 then return .error (.malformedPreimage uid parts.length)
  let found ← (Graph.hashKeys parts).mapM fun key => candidates.findM? (yieldsKey key)
  found.forM fun f => linkFound uid f 0
  return .ok ()

/-- A mask with no producer is noise and is removed; one with a single producer keeps only that
operand. -/
def settleMask (uid : NodeId) : InPlace Unit := do
  let resolved ← linkSlots uid
  if resolved.length < 2 then return
  match (resolved.zipIdx.filter (·.1)).map (·.2) with
  | [] => tombstone uid
  | [only] => collapse uid only
  | _ => return

def linkFromEntry (uid : NodeId) : InPlace Unit := do
  linkFound uid ((← sentinelsOf uid).map (·.entry)) 0

def linkFromLeader (uid : NodeId) : InPlace Unit := do
  linkFound uid (← item uid).leader? 0

/-- A computed offset has a producer; a constant one, or one of unknown origin, reads a
parameter. -/
def linkParameter (uid : NodeId) : InPlace Unit := do
  let offset ← field uid 0
  if !offset.preds.isEmpty then return
  if offset.seeksProducer then
    let resolved ← linkSlots uid
    if resolved.head? = some true then return
    linkFromEntry uid
  else linkFromEntry uid

/-- A jump to `target` that can still lead somewhere. -/
def isOpenJump (exit : Option NodeId) (target : Nat) (uid : NodeId) : InPlace Bool := do
  let x ← item uid
  if x.destination? = some target then
    if x.is .jumpi then
      return !(← x.successors.anyM fun s => do return (← item s).is .jumpdest)
    else if x.is .jump then return exit.any fun e => x.successors = [e]
    else return false
  else return false

/-- A jump destination is entered from the latest open jump to it, or from the entry if no block
started before. One that nothing leads to is removed. -/
def linkDestination (uid : NodeId) : InPlace Unit := do
  let address := (← item uid).address
  if !(← field uid 0).preds.isEmpty then return
  let exit := (← sentinelsOf uid).map (·.exit)
  let earlier ← liveBefore uid
  match ← earlier.findM? (isOpenJump exit address.toNat) with
  | some source => link source uid 0
  | none =>
    let started ← earlier.anyM fun c => do
      let x ← item c
      return x.is .jumpdest || x.is .jumpi
    if started then
      note (.sourceMissed uid address)
      tombstone uid
    else linkFromEntry uid

def linkNode (uid : NodeId) (x : Item) (opcode : Opcode) : InPlace (Except GraphError Unit) :=
  match x.kind, opcode with
  | .stateVariable, .sstore => do linkStore uid; return .ok ()
  | .stateVariable, .sload => do linkLoad uid; return .ok ()
  | .dataFlow, .sha3 => linkPreimage uid
  | .dataFlow, .and => do settleMask uid; return .ok ()
  | .dataFlow, .or => do settleMask uid; return .ok ()
  | .environment, .calldataload => do linkParameter uid; return .ok ()
  | .environment, _ => do
    if x.fields.all (·.value.isEmpty) then linkFromEntry uid else let _ ← linkSlots uid
    return .ok ()
  | .controlFlow _, .jumpdest => do linkDestination uid; return .ok ()
  | .controlFlow _, _ => do linkFromLeader uid; return .ok ()
  | .call _, _ | .dataFlow, _ | .stateVariable, _ | .log _, _ => do
    let _ ← linkSlots uid
    return .ok ()
  | .entry, _ | .exit, _ | .deleted, _ | .unknown, _ => return .ok ()

/-- Links the operands of a node to their producers. -/
def findEdges (uid : NodeId) : InPlace (Except GraphError Unit) := do
  match ← item? uid with
  | none => return .error (.unknownNode uid)
  | some x =>
    match x.isDeleted || x.isSentinel, x.opcode? with
    | false, some opcode =>
      note (.edgeSearchStarted opcode uid)
      linkNode uid x opcode
    | _, _ => return .ok ()

end OperandFlow.Arena
