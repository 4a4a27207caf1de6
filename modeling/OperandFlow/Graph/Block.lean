import OperandFlow.Graph.Basic

/-! Basic blocks. Each node knows the node that leads its block: the entry of the function, a jump
destination, or a conditional jump that was not taken. Following the leaders back gives the blocks
a node was reached through. -/
namespace OperandFlow.Graph

/-- The leader of the block before the one that `leader` leads, and the conditional jump that was
taken in between. -/
def stepBack (g : Graph) (entry : Option NodeId) (leader : NodeId) :
    Option NodeId × List NodeId :=
  match g.node? leader with
  | none => (none, [])
  | some n =>
    if n.isEntry then (none, [])
    else if n.is .jumpdest then
      match n.predsAt 0 with
      | [] => (entry, [])
      | p :: _ =>
        match g.node? p with
        | none => (none, [])
        | some m =>
          if m.isEntry then (some p, [])
          else (m.leader?, if m.is .jumpi then [p] else [])
    else (n.leader?, [])

/-- The leaders up to `leader`, the first of all in front. -/
def chainTo (g : Graph) (entry : Option NodeId) (leader : NodeId) : List NodeId :=
  let (next, taken) := g.stepBack entry leader
  let earlier := match next with
    | some l => if l < leader then chainTo g entry l else []
    | none => []
  earlier ++ taken ++ [leader]
termination_by leader

/-- Leaders from the entry to the block of `uid`, with the conditional jumps that were taken. -/
def leaderChain (g : Graph) (uid : NodeId) : Except GraphError (List NodeId) := do
  let n ← g.node uid
  match n.leader? with
  | none => return [uid]
  | some leader => return g.chainTo ((g.boundaries? uid).map (·.entry)) leader

/-- Whether a conditional jump was taken to `next`. Nothing if a node that it hangs on is not
there. -/
def isTaken? (g : Graph) (jump next : NodeId) : Option Bool := do
  let n ← g.node? jump
  if n.is .jumpi then
    let m ← g.node? next
    return m.is .jumpdest && (m.predsAt 0).contains jump
  else return false

/-- The leaders whose blocks were executed: a conditional jump that was taken to the next one only
stands for the other branch. -/
def trail? (g : Graph) : List NodeId → Option (List NodeId)
  | [] => some []
  | [uid] => some [uid]
  | uid :: next :: rest => do
    let taken ← g.isTaken? uid next
    let leaders ← g.trail? (next :: rest)
    return if taken then leaders else uid :: leaders

/-- The leaders of the blocks that were executed up to `uid`. -/
def leadersTo (g : Graph) (uid : NodeId) : List NodeId :=
  match g.leaderChain uid with
  | .ok chain => (g.trail? chain).getD []
  | .error _ => []

/-- A node of the given call that can lead the block of an instruction at `address`. -/
def canLead (function : String) (tx : UInt64) (address : UInt64) (n : Node) : Bool :=
  n.function = function && n.tx? = some tx && !n.isDeleted &&
    ((n.is .jumpdest && n.address ≤ address) || (n.is .jumpi && n.address < address))

/-- The leader of the block that a new instruction joins: the newest one that can be. -/
def leaderFor (g : Graph) (entry : NodeId) (function : String) (tx address : UInt64) : NodeId :=
  ((g.nodes.toList.reverse.find? (canLead function tx address)).map (·.uid)).getD entry

/-- Earlier nodes of the same call, newest first, as far as the limit reaches. -/
def traceBefore (g : Graph) (limit : Nat) (n : Node) : List Node :=
  if n.instruction.isNone then []
  else ((g.nodes.toList.take n.uid).reverse.filter n.sameTrace).take limit

def liveBefore (g : Graph) (limit : Nat) (n : Node) : List Node :=
  (g.traceBefore limit n).filter fun m => !m.isDeleted

/-- Where producers of the operands of `n` are looked for: earlier live nodes of the same call in
the blocks that were executed up to `n`, newest first. -/
def candidates (g : Graph) (limit : Nat) (n : Node) : List Node :=
  let leaders := g.leadersTo n.uid
  (g.liveBefore limit n).filter fun m => m.leader?.any leaders.contains

end OperandFlow.Graph
