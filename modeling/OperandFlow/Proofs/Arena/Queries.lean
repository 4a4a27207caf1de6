import OperandFlow.Proofs.Arena.Session

/-! What an arena answers to its clients, and rows of calls to it. -/
namespace OperandFlow.Arena

variable {α β ε : Type}

/-- Applies `f` to the elements in order, up to the first that it fails on. -/
def mapOk (f : α → InPlace (Except ε β)) : List α → InPlace (Except ε (List β))
  | [] => return .ok []
  | a :: as => do
    match ← f a with
    | .error e => return .error e
    | .ok b => return (← mapOk f as).map (b :: ·)

/-- The answer to a question that a client may put wrongly: nothing if an index is out of bounds. -/
def attempt (x : InPlace α) : InPlace (Option α) := fun st =>
  match x st with
  | some (a, st) => some (some a, st)
  | none => some (none, st)

def node (uid : NodeId) : InPlace (Except GraphError Node) := do
  match ← item? uid with
  | none => return .error (.unknownNode uid)
  | some x => return .ok (x.node (← get).host.options)

def report (uid : NodeId) : InPlace (Except GraphError NodeReport) := do
  match ← item? uid with
  | none => return .error (.unknownNode uid)
  | some x =>
    let operands ← x.fields.zipIdx.mapM fun f => do return (← look uid (.operand f.2)).canonical
    let output ← match x.output with
      | some _ => do pure (some (← look uid .output).canonical)
      | none => pure none
    return .ok {
      uid := uid
      function := x.function
      tx := x.tx?
      category := x.kind.category
      opcode := x.opcode?
      address := x.address
      deleted := x.isDeleted
      operands := operands
      predecessors := x.fields.map (·.preds)
      successors := x.successors
      output := output }

/-! ### Paths and loops -/

def terminals (function : String) : InPlace (List NodeId) := do
  let st ← get
  match st.sentinels.lookup function with
  | none => return []
  | some s =>
    return (st.items.toList.filter fun x => x.function = function && !x.isDeleted &&
      x.opcode?.any (fun o => o.isJump || o.isHalt) && x.successors = [s.exit]).map (·.uid)

def pathTo (function : String) (entry terminal : NodeId) :
    InPlace (Except GraphError (NodeId × List NodeId)) := do
  match ← leaderChain terminal with
  | .error e => return .error e
  | .ok chain =>
    let leaders ← trail chain
    let tx := (← item terminal).tx?
    let nodes := ((← get).items.toList.filter fun x =>
      x.function = function && x.tx? = tx && x.uid ≤ terminal && !x.isDeleted &&
        (x.leader?.any leaders.contains || leaders.contains x.uid)).map (·.uid)
    let path := Graph.squeeze (entry :: nodes)
    note (.pathFound function terminal path.length leaders.length)
    return .ok (terminal, path)

def paths (function : String) : InPlace (Except GraphError (List (NodeId × List NodeId))) := do
  match (← get).sentinels.lookup function with
  | none => return .ok []
  | some s => mapOk (pathTo function s.entry) (← terminals function)

def entrances : List NodeId → InPlace (List Graph.Entrance)
  | a :: b :: rest => do
    let jump ← item a
    let dest ← item b
    let later ← entrances (b :: rest)
    return if jump.is .jumpi && dest.is .jumpdest then ⟨dest.address, a, b⟩ :: later else later
  | _ => return []

def loopBounds (chain : List NodeId) : InPlace (Option (NodeId × NodeId)) := do
  return Graph.spanOf (← get).host.options.loopThreshold (← entrances chain)

def repetition (function : String) (terminal : NodeId) :
    InPlace (Except GraphError Repetition) := do
  match ← leaderChain terminal with
  | .error e => return .error e
  | .ok chain => return .ok ⟨function, terminal, chain, ← loopBounds chain⟩

def repetitions : InPlace (Except GraphError (List Repetition)) := do
  let functions := (← get).sentinels.map (·.1)
  let reports ← mapOk (fun function => do mapOk (repetition function) (← terminals function))
    functions
  return reports.map List.flatten

/-! ### Origins and ancestors -/

def isOrigin (uid : NodeId) : InPlace Bool := do
  match (← item? uid).map (·.predecessors) with
  | some [] => return true
  | some [only] => return (← item only).isEntry
  | _ => return false

/-- Each write that a load read from, with the producers of the value that it wrote. -/
def writesOf (x : Item) : InPlace (List (NodeId × List NodeId)) :=
  let writes := if x.is .sload then (x.fields[1]?.map (·.preds)).getD [] else []
  writes.mapM fun write => do return (write, ((← item write).fields[1]?.map (·.preds)).getD [])

/-- One node of the search: what it adds, and where the search goes on. -/
def visitOrigin (found : Origins) (uid : NodeId) : InPlace (Origins × List NodeId) := do
  match ← item? uid with
  | none => return (found, [])
  | some x =>
    let n := x.node (← get).host.options
    if Graph.endsSearch n then return (found, [])
    let found := found.count n
    if ← isOrigin uid then return (found.addOrigin uid, [])
    let writes ← writesOf x
    let constants := (writes.filter (·.2.isEmpty)).map (·.1)
    let next := if writes.isEmpty then
        if x.is .sload then (x.fields[0]?.map (·.preds)).getD [] else x.fields.flatMap (·.preds)
      else writes.flatMap (·.2)
    return (constants.foldl Origins.addConstantWrite found, next)

def searchOrigins : Nat → Graph.OriginSearch → List (NodeId × Nat) → InPlace Graph.OriginSearch
  | _, s, [] => return s
  | 0, s, (_, depth) :: _ =>
    return { s with found := { s.found with exhausted := true }, stopped := some depth }
  | left + 1, s, (uid, depth) :: queue => do
    let s := { s with dequeues := s.dequeues + 1 }
    if uid ∈ s.visited then searchOrigins left s queue
    else
      let (found, next) ← visitOrigin s.found uid
      searchOrigins left { s with found, visited := uid :: s.visited }
        (queue ++ next.map (·, depth + 1))

def origins (seeds : List NodeId) (limit : Nat) : InPlace Origins := do
  let s ← searchOrigins limit ⟨.none, [], none, 0⟩ (seeds.map (·, 0))
  match s.stopped with
  | some depth => note (.originSearchExhausted seeds limit depth)
  | none => pure ()
  note (.originsFound seeds s.found.ids s.dequeues)
  note (.originSearchEnded (← get).host.reading s.found.exhausted)
  return s.found

def originsOfSlot (uid : NodeId) (slot : Nat) : InPlace (Except GraphError Origins) := do
  match ← item? uid with
  | none => return .error (.unknownNode uid)
  | some x =>
    let opcode := (← item uid).opcode?.getD .invalid
    match x.fields[slot]? with
    | none => return .error (.missingOperand uid opcode slot)
    | some f => return .ok (← origins f.preds (← get).host.options.originLimit)

def searchAncestor (opcode : Opcode) :
    Nat → List NodeId → List NodeId → InPlace Graph.AncestorSearch
  | _, _, [] => return .absent
  | 0, _, _ :: _ => return .exhausted
  | left + 1, visited, uid :: queue => do
    if uid ∈ visited then searchAncestor opcode left visited queue
    else
      let x ← item uid
      if x.is opcode then return .found uid
      else searchAncestor opcode left (uid :: visited) (queue ++ x.predecessors)

def ancestor (uid : NodeId) (opcode : Opcode) : InPlace (Except GraphError (Option NodeId)) := do
  match ← item? uid with
  | none => return .error (.unknownNode uid)
  | some x =>
    let limit := (← get).host.options.reach
    match ← searchAncestor opcode limit [] x.predecessors with
    | .found ancestor => return .ok (some ancestor)
    | .absent => return .ok none
    | .exhausted =>
      note (.ancestorSearchExhausted opcode uid limit)
      return .error (.searchExhausted uid limit)

def unsupplied (uid : NodeId) : InPlace (Except GraphError (List Nat)) := do
  match ← item? uid with
  | none => return .error (.unknownNode uid)
  | some x =>
    if x.isSentinel || x.isDeleted then return .ok []
    return .ok ((x.fields.zipIdx.filter fun (f, _) =>
      f.preds.isEmpty && !f.value.isEmpty).map (·.2))

/-! ### Shapes -/

/-- The nodes are found by their numbers again. -/
def shape (function : String) : InPlace Shape := do
  let o := (← get).host.options
  let ids := ((← get).items.toList.filter fun x =>
    x.function = function && !x.isSentinel && !x.isDeleted).map (·.uid)
  let items ← ids.mapM item
  return .ofLists (items.zipIdx.map fun (x, i) => (i, Graph.labelOf (x.node o)))
    (items.zipIdx.flatMap fun (x, i) =>
      (x.predecessors.filterMap fun p => ids.idxOf? p).map (·, i))

def fingerprint (function : String) : InPlace Fingerprint := do
  let shape ← shape function
  return ⟨function, shape.hash, shape.labels.length, shape.edges.length⟩

/-! ### Calls -/

def ask : (q : Query) → InPlace q.Answer
  | .size => do return (← get).items.size
  | .node uid => node uid
  | .report uid => report uid
  | .hasOpcode uid opcode => do return (← item? uid).any (·.is opcode)
  | .leaderChain uid => leaderChain uid
  | .trail chain => attempt (trail chain)
  | .loopBounds chain => attempt (loopBounds chain)
  | .origins seeds limit => origins seeds limit
  | .originsOfSlot uid slot => originsOfSlot uid slot
  | .isOrigin uid => isOrigin uid
  | .ancestor uid opcode => ancestor uid opcode
  | .unsupplied uid => unsupplied uid
  | .terminals function => terminals function
  | .paths function => paths function
  | .repetitions => repetitions
  | .shape function => shape function
  | .fingerprint function => fingerprint function
  | .dot function => do return (← get).graph.dot function
  | .functions => do return (← get).sentinels.map (·.1)
  | .sentinels function => do return (← get).sentinels.lookup function
  | .anomalies => do return (← get).ledger.anomalies
  | .profile => do return (← get).ledger.profile

def act : (a : Action) → InPlace a.Answer
  | .pre event state => onPre event state
  | .post event state => onPost event state
  | .replay trace => replay trace
  | .flush function => flush function
  | .add arrival => add arrival
  | .complete function opcode result state => complete function opcode result state
  | .findEdges uid => findEdges uid
  | .remove uid => discard uid
  | .reset => reset

def call : (c : Call) → InPlace c.Answer
  | .action a => act a
  | .query q => ask q

/-- Makes the calls one after the other, and gathers the answers. -/
def run : List Call → InPlace (List (Sigma Call.Answer))
  | [] => return []
  | c :: calls => do
    let answer ← call c
    return ⟨c, answer⟩ :: (← run calls)

end OperandFlow.Arena
