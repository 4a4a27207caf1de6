import OperandFlow.Journal.Logged
import OperandFlow.Options

/-! The graph: nodes in the order they were made, which are never taken out again. -/
namespace OperandFlow

structure Graph where
  nodes : Array Node
  /-- Nodes whose result may still come, oldest first. -/
  pending : List NodeId

/-- The two nodes that stand for the begin and the end of a function. -/
structure Sentinels where
  entry : NodeId
  exit : NodeId
deriving DecidableEq

namespace Graph

def empty : Graph := ⟨#[], []⟩

def size (g : Graph) : Nat := g.nodes.size

def node? (g : Graph) (uid : NodeId) : Option Node := g.nodes[uid]?

def node (g : Graph) (uid : NodeId) : Except GraphError Node :=
  match g.node? uid with
  | some n => .ok n
  | none => .error (.unknownNode uid)

def update (g : Graph) (uid : NodeId) (f : Node → Node) : Graph :=
  { g with nodes := g.nodes.modify uid f }

def push (g : Graph) (n : Node) : Graph :=
  { g with nodes := g.nodes.push n }

/-- The exit of a function is made right behind its entry. -/
def sentinels? (g : Graph) (function : String) : Option Sentinels :=
  (g.nodes.find? fun n => n.isEntry && n.function = function).map fun n => ⟨n.uid, n.uid + 1⟩

def boundaries? (g : Graph) (uid : NodeId) : Option Sentinels :=
  (g.node? uid).bind fun n => g.sentinels? n.function

/-- In the order of their names. -/
def functions (g : Graph) : List String :=
  ((g.nodes.toList.filter Node.isEntry).map (·.function)).mergeSort fun a b => decide (a ≤ b)

def sentinel (o : Options) (uid : NodeId) (function : String) (kind : Kind) : Node where
  uid := uid
  function := function
  instruction := none
  kind := kind
  slots := o.slots uid [.empty]
  successors := []
  awaiting := false
  output := none
  state := none

/-- The sentinels of a function, made if they are not there yet. -/
def withFunction (o : Options) (g : Graph) (function : String) :
    Logged (Graph × Sentinels) :=
  match g.sentinels? function with
  | some s => pure (g, s)
  | none => do
    let s : Sentinels := ⟨g.size, g.size + 1⟩
    let g := (g.push (sentinel o s.entry function .entry)).push (sentinel o s.exit function .exit)
    Logged.emit (.sentinelsAdded function s.entry s.exit)
    return (g, s)

/-- Makes `pred` supply a slot of `uid` in place of going to the exit. -/
def connect (g : Graph) (pred uid : NodeId) (slot : Nat) : Graph :=
  let exit := (g.boundaries? uid).map (·.exit)
  let g := g.update uid (·.addPred slot pred)
  match exit with
  | none => g.update pred (·.addSuccessor uid)
  | some exit =>
    (g.update pred fun n => (n.eraseSuccessor exit).addSuccessor uid).update exit (·.erasePred pred)

/-- Connects two nodes, unless they are one, the slot is not there or the link is. -/
def link (g : Graph) (pred uid : NodeId) (slot : Nat) : Logged Graph :=
  match (g.node? uid).bind (·.slots[slot]?) with
  | none => pure g
  | some s =>
    if pred = uid ∨ pred ∈ s.preds then pure g
    else do
      Logged.emit (.linked pred uid slot)
      return g.connect pred uid slot

/-- Takes `uid` from the successors of `pred`, which goes to the exit if none is left. -/
def release (exit : Option NodeId) (uid : NodeId) (g : Graph) (pred : NodeId) : Graph :=
  let g := g.update pred (·.eraseSuccessor uid)
  match g.node? pred, exit with
  | some n, some exit =>
    if n.successors.isEmpty && !n.isSentinel then
      (g.update pred (·.addSuccessor exit)).update exit (·.addPred 0 pred)
    else g
  | _, _ => g

/-- Takes a node out of the lists of its neighbours and buries it. -/
def detach (g : Graph) (uid : NodeId) : Graph :=
  match g.node? uid with
  | none => g
  | some n =>
    let exit := (g.boundaries? uid).map (·.exit)
    let g := n.predecessors.foldl (release exit uid) g
    let g := n.successors.foldl (fun g succ => g.update succ (·.erasePred uid)) g
    let g := g.update uid Node.bury
    { g with pending := g.pending.filter (· ≠ uid) }

def remove (g : Graph) (uid : NodeId) : Logged Graph := do
  Logged.emit (.nodeRemoved uid)
  return g.detach uid

/-- Keeps one slot of a node. -/
def collapse (g : Graph) (uid : NodeId) (keep : Nat) : Logged Graph :=
  match (g.node? uid).bind (·.slots[keep]?) with
  | none => pure g
  | some s => do
    Logged.emit (.nodeCollapsed uid keep)
    return g.update uid fun n => { n with slots := [s] }

end Graph
end OperandFlow
