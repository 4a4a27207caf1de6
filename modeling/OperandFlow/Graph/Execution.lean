import OperandFlow.Graph.Block

/-! Execution paths of a function, and loops along them. -/
namespace OperandFlow

/-- A terminal and the jumps on the way to it that form a loop. -/
structure Repetition where
  function : String
  terminal : NodeId
  /-- Leaders from the entry on, with the jumps that were taken. -/
  chain : List NodeId
  /-- The lowest and the highest node of the loop. -/
  span : Option (NodeId × NodeId)

namespace Graph

/-- Jumps and halts of a function after which nothing was traced. -/
def terminals (g : Graph) (function : String) : List NodeId :=
  match g.sentinels? function with
  | none => []
  | some s =>
    (g.nodes.toList.filter fun n =>
      n.function = function && !n.isDeleted &&
        n.opcode?.any (fun o => o.isJump || o.isHalt) && n.successors = [s.exit]).map (·.uid)

/-- The nodes of the call of `terminal` up to it that lie in blocks led by `leaders`. -/
def executed (g : Graph) (terminal : Node) (leaders : List NodeId) : List NodeId :=
  (g.nodes.toList.filter fun n =>
    terminal.sameTrace n && n.uid ≤ terminal.uid && !n.isDeleted &&
      (n.leader?.any leaders.contains || leaders.contains n.uid)).map (·.uid)

/-- Repetitions in a row are dropped. -/
def squeeze : List NodeId → List NodeId
  | a :: b :: rest => if a = b then squeeze (b :: rest) else a :: squeeze (b :: rest)
  | short => short

/-- The nodes executed from the entry up to a terminal. -/
def pathTo (g : Graph) (function : String) (entry terminal : NodeId) :
    Logged (Except GraphError (NodeId × List NodeId)) :=
  match g.leaderChain terminal with
  | .error e => pure (.error e)
  | .ok chain => do
    let leaders := (g.trail? chain).getD []
    let nodes := ((g.node? terminal).map fun n => g.executed n leaders).getD []
    let path := squeeze (entry :: nodes)
    Logged.emit (.pathFound function terminal path.length leaders.length)
    return .ok (terminal, path)

/-- The path to each terminal of a function. -/
def paths (g : Graph) (function : String) :
    Logged (Except GraphError (List (NodeId × List NodeId))) :=
  match g.sentinels? function with
  | none => pure (.ok [])
  | some s => Logged.mapOk (g.pathTo function s.entry) (g.terminals function)

/-- A conditional jump and the destination right behind it, with the address of the latter. -/
structure Entrance where
  address : UInt64
  jump : NodeId
  dest : NodeId

/-- The entrances along a chain. Nothing if one of its nodes is not there. -/
def entrances? (g : Graph) : List NodeId → Option (List Entrance)
  | a :: b :: rest => do
    let jump ← g.node? a
    let dest ← g.node? b
    let later ← g.entrances? (b :: rest)
    return if jump.is .jumpi && dest.is .jumpdest then ⟨dest.address, a, b⟩ :: later else later
  | _ => some []

/-- The lowest and the highest node of the entrances to addresses that come up more often than the
threshold. -/
def spanOf (threshold : Nat) (entrances : List Entrance) : Option (NodeId × NodeId) :=
  let looping := entrances.filter fun e =>
    threshold < entrances.countP fun f => f.address = e.address
  let ids := looping.flatMap fun e => [e.jump, e.dest]
  match ids.min?, ids.max? with
  | some low, some high => some (low, high)
  | _, _ => none

/-- The span of a loop along a chain, if there is a loop. Nothing at all if a node is not there. -/
def loopBounds? (g : Graph) (threshold : Nat) (chain : List NodeId) :
    Option (Option (NodeId × NodeId)) :=
  (g.entrances? chain).map (spanOf threshold)

/-- The report on one terminal. -/
def repetition (g : Graph) (threshold : Nat) (function : String) (terminal : NodeId) :
    Except GraphError Repetition := do
  let chain ← g.leaderChain terminal
  return ⟨function, terminal, chain, (g.loopBounds? threshold chain).getD none⟩

/-- One report for each terminal of each function. -/
def repetitions (g : Graph) (threshold : Nat) : Except GraphError (List Repetition) := do
  let reports ← g.functions.mapM fun function =>
    (g.terminals function).mapM (g.repetition threshold function)
  return reports.flatten

end Graph
end OperandFlow
