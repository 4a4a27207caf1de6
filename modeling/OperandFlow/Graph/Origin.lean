import OperandFlow.Graph.Basic
import OperandFlow.Ordered

/-! Where values come from in the end: backward searches through the graph. -/
namespace OperandFlow

/-- The origins of some nodes, and what was passed on the way to them. -/
structure Origins where
  ids : List NodeId
  hashes : Nat
  loads : Nat
  /-- Writes of a constant that a load on the way saw. -/
  constantWrites : List NodeId
  /-- The limit was reached, so that origins may be missing. -/
  exhausted : Bool
deriving DecidableEq

namespace Origins

def none : Origins := ⟨[], 0, 0, [], false⟩

def addOrigin (s : Origins) (uid : NodeId) : Origins :=
  { s with ids := Ordered.insert (· < ·) uid s.ids }

def addConstantWrite (s : Origins) (uid : NodeId) : Origins :=
  { s with constantWrites := Ordered.insert (· < ·) uid s.constantWrites }

def count (s : Origins) (n : Node) : Origins :=
  if n.is .sha3 then { s with hashes := s.hashes + 1 }
  else if n.is .sload then { s with loads := s.loads + 1 }
  else s

end Origins

namespace Graph

/-- No producer, or none but the entry of the function. -/
def isOrigin (g : Graph) (uid : NodeId) : Bool :=
  match (g.node? uid).map (·.predecessors) with
  | some [] => true
  | some [only] => (g.node? only).any (·.isEntry)
  | _ => false

/-- The search does not look behind these. -/
def endsSearch (n : Node) : Bool :=
  n.isSentinel || n.isDeleted || match n.kind with
    | .log _ => true
    | _ => false

/-- The writes that a load read from. -/
def writesOf (n : Node) : List NodeId :=
  if n.is .sload then n.predsAt 1 else []

/-- The producers of the value that a node wrote. -/
def writtenFrom (g : Graph) (write : NodeId) : List NodeId :=
  ((g.node? write).map (·.predsAt 1)).getD []

/-- Where the search goes on behind a node: at the producers of what a load read, and otherwise at
its own. -/
def behind (g : Graph) (n : Node) : List NodeId :=
  if (writesOf n).isEmpty then
    if n.is .sload then n.predsAt 0 else n.slots.flatMap (·.preds)
  else (writesOf n).flatMap g.writtenFrom

/-- Writes of a constant that a load read. -/
def constantWritesOf (g : Graph) (n : Node) : List NodeId :=
  (writesOf n).filter fun write => (g.writtenFrom write).isEmpty

/-- A search in progress. -/
structure OriginSearch where
  found : Origins
  visited : List NodeId
  /-- The depth at which the limit was reached. -/
  stopped : Option Nat
  dequeues : Nat

/-- One node of the search: what it adds, and where the search goes on. -/
def visitOrigin (g : Graph) (found : Origins) (uid : NodeId) : Origins × List NodeId :=
  match g.node? uid with
  | none => (found, [])
  | some n =>
    if endsSearch n then (found, [])
    else
      let found := found.count n
      if g.isOrigin uid then (found.addOrigin uid, [])
      else ((g.constantWritesOf n).foldl Origins.addConstantWrite found, g.behind n)

/-- Takes at most so many nodes with their depths off the queue. -/
def searchOrigins (g : Graph) : Nat → OriginSearch → List (NodeId × Nat) → OriginSearch
  | _, s, [] => s
  | 0, s, (_, depth) :: _ =>
    { s with found := { s.found with exhausted := true }, stopped := some depth }
  | left + 1, s, (uid, depth) :: queue =>
    let s := { s with dequeues := s.dequeues + 1 }
    if uid ∈ s.visited then g.searchOrigins left s queue
    else
      let (found, next) := g.visitOrigin s.found uid
      g.searchOrigins left { s with found, visited := uid :: s.visited }
        (queue ++ next.map (·, depth + 1))

/-- Breadth-first search from `seeds` back to the origins. -/
def origins (host : Host) (g : Graph) (seeds : List NodeId) (limit : Nat) :
    Logged Origins := do
  let s := g.searchOrigins limit ⟨.none, [], none, 0⟩ (seeds.map (·, 0))
  match s.stopped with
  | some depth => Logged.emit (.originSearchExhausted seeds limit depth)
  | none => pure ()
  Logged.emit (.originsFound seeds s.found.ids s.dequeues)
  Logged.emit (.originSearchEnded host.reading s.found.exhausted)
  return s.found

theorem origins_value (host : Host) (g : Graph) (seeds : List NodeId) (limit : Nat) :
    (g.origins host seeds limit).value =
      (g.searchOrigins limit ⟨.none, [], none, 0⟩ (seeds.map (·, 0))).found := by
  unfold origins
  dsimp only
  split <;> rfl

/-- The origins of what supplies one slot. -/
def originsOfSlot (host : Host) (g : Graph) (uid : NodeId) (slot : Nat) :
    Logged (Except GraphError Origins) :=
  match g.node? uid with
  | none => pure (.error (.unknownNode uid))
  | some n =>
    match n.slots[slot]? with
    | none => pure (.error (.missingOperand uid (n.opcode?.getD .invalid) slot))
    | some s => do return .ok (← g.origins host s.preds host.options.originLimit)

inductive AncestorSearch where
  | found (uid : NodeId)
  | absent
  | exhausted

/-- Takes at most so many nodes off the queue. -/
def searchAncestor (g : Graph) (opcode : Opcode) :
    Nat → List NodeId → List NodeId → AncestorSearch
  | _, _, [] => .absent
  | 0, _, _ :: _ => .exhausted
  | left + 1, visited, uid :: queue =>
    if uid ∈ visited then g.searchAncestor opcode left visited queue
    else
      match g.node? uid with
      | none => g.searchAncestor opcode left (uid :: visited) queue
      | some n =>
        if n.is opcode then .found uid
        else g.searchAncestor opcode left (uid :: visited) (queue ++ n.predecessors)

/-- The nearest node with an opcode behind `uid`. -/
def ancestor? (host : Host) (g : Graph) (uid : NodeId) (opcode : Opcode) :
    Logged (Except GraphError (Option NodeId)) :=
  match g.node? uid with
  | none => pure (.error (.unknownNode uid))
  | some n =>
    let limit := host.options.reach
    match g.searchAncestor opcode limit [] n.predecessors with
    | .found ancestor => pure (.ok (some ancestor))
    | .absent => pure (.ok none)
    | .exhausted => do
      Logged.emit (.ancestorSearchExhausted opcode uid limit)
      return .error (.searchExhausted uid limit)

/-- Slots with a value of which no producer is known. -/
def unsupplied (g : Graph) (uid : NodeId) : Except GraphError (List Nat) := do
  let n ← g.node uid
  if n.isSentinel || n.isDeleted then return []
  return (n.slots.zipIdx.filter fun (s, _) => s.preds.isEmpty && !s.value.isEmpty).map (·.2)

end Graph
end OperandFlow
