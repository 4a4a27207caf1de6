import Mathlib.Logic.Relation
import OperandFlow.Proofs.Graph.Causality
import OperandFlow.Proofs.Graph.Pacing

/-! Every operation on a graph, in any order and with any arguments, is a row of a few kinds of
moves. What each move keeps, all operations keep. -/
namespace OperandFlow.Graph

open Relation

/-- The moves that operations are made of. -/
inductive Moves (host : Host) (g : Graph) : Graph → Prop where
  /-- The edges of a node are searched for, or a node is removed. -/
  | search {uid : NodeId} {g' : Graph} (h : g.Searched uid g') : Moves host g g'
  | unpend (uid : NodeId) : Moves host g (g.unpend uid)
  | supply {uid : NodeId} {n : Node} {opcode : Opcode} (huid : uid ∈ g.pending)
      (hn : g.node? uid = some n) (ho : n.is opcode = true) (result : Value)
      (state : Option String) :
      Moves host g ((g.unpend uid).update uid (supply host.options opcode result state))
  | withFunction (function : String) : Moves host g (g.withFunction host.options function).value.1
  /-- The node of an instruction arrives when nothing of its call waits. -/
  | arrive {a : Arrival} {s : Sentinels} (category : Category)
      (hs : g.sentinels? a.function = some s)
      (hfree : ∀ i ∈ g.pending, ∀ m, g.node? i = some m →
        ¬(m.function = a.function ∧ m.tx? = some a.tx)) :
      Moves host g (g.arrive (g.nodeOf host.options s a category) s.exit)

/-- The graph `g'` comes from `g` by moves. -/
def Becomes (host : Host) : Graph → Graph → Prop := ReflTransGen (Moves host)

section Invariants

variable {host : Host} {g g' : Graph}

theorem Causal.moves (hg : g.Causal) (h : g.Moves host g') : g'.Causal := by
  cases h with
  | search h => exact hg.searched h
  | unpend uid => exact hg.unpend uid
  | supply => exact (hg.unpend _).update_quiet fun n _ => ⟨rfl, fun a ha => fedBy_of_supply ha⟩
  | withFunction function => exact hg.withFunction host.options function
  | arrive category hs _ => exact hg.arrive hs category

theorem Paced.moves (hp : g.Paced) (hg : g.Causal) (h : g.Moves host g') : g'.Paced := by
  cases h with
  | search h => exact hp.searched hg.formed h
  | unpend uid => exact hp.unpend uid
  | supply => exact (hp.unpend _).congr (cores_update (by intro n _; rfl)) rfl
  | withFunction function => exact hp.withFunction host.options function
  | arrive category hs hfree => exact hp.arrive hg.formed hs hfree category

theorem Causal.becomes (hg : g.Causal) (h : g.Becomes host g') : g'.Causal := by
  induction h with
  | refl => exact hg
  | tail _ hmove ih => exact ih.moves hmove

end Invariants

section Operations

variable (host : Host) {g g' : Graph} (hg : g.Causal)
include hg

theorem becomes_runEdgeSearch (uid : NodeId) : g.Becomes host (g.runEdgeSearch host uid).value :=
  .single (.search (searched_runEdgeSearch host hg.formed uid))

theorem becomes_flushWhere (p : Node → Bool) : g.Becomes host (g.flushWhere host p).value := by
  rw [flushWhere_value]
  have key : (((g.pendingWhere p).foldl (fun g uid => (finish host g uid).value) g).Causal) ∧
      g.Becomes host ((g.pendingWhere p).foldl (fun g uid => (finish host g uid).value) g) := by
    apply List.foldlRecOn (g.pendingWhere p)
      (motive := fun g' : Graph => g'.Causal ∧ g.Becomes host g') _ ⟨hg, .refl⟩
    intro g' ⟨hg', hbecomes⟩ uid _
    rw [finish_value]
    have hunpend := hg'.unpend uid
    exact ⟨hunpend.runEdgeSearch host uid,
      (hbecomes.tail (.unpend uid)).trans (becomes_runEdgeSearch host hunpend uid)⟩
  exact key.2

theorem becomes_readyFor (a : Arrival) : g.Becomes host (g.readyFor host a).1 :=
  (becomes_flushWhere host hg _).tail (.withFunction a.function)

theorem becomes_add {a : Arrival} {uid : NodeId} (h : (g.add host a).value = (.ok uid, g')) :
    g.Becomes host g' := by
  obtain ⟨category, -, -, rfl⟩ := add_cases h
  have hs := hg.sentinels?_readyFor host a
  have harrive := (becomes_readyFor host hg a).tail (.arrive category hs
    fun i hi m hm => free_readyFor hg.formed host a hi hm)
  rcases receive_cases host a category (g.readyFor host a).1 (g.readyFor host a).2 with
    heq | ⟨-, heq⟩
  · rw [heq]
    exact harrive
  · rw [heq]
    exact harrive.trans
      (becomes_runEdgeSearch host ((hg.readyFor host a).arrive hs category) _)

theorem becomes_complete {function : String} {opcode : Opcode} {result : Value}
    {state : Option String} {uid : NodeId}
    (h : (g.complete host function opcode result state).value = (.ok uid, g')) :
    g.Becomes host g' := by
  obtain ⟨hwait, rfl⟩ := complete_cases h
  obtain ⟨huid, n, hn, -, ho⟩ := of_awaiting? hwait
  have hsupply : g.Moves host _ := .supply huid hn ho result state
  exact (ReflTransGen.single hsupply).trans (becomes_runEdgeSearch host (hg.moves hsupply) uid)

theorem becomes_findEdges (uid : NodeId) : g.Becomes host (g.findEdges host uid).value.2 :=
  .single (.search (searched_findEdges host hg.formed uid))

omit hg in
/-- To remove a node is a search that links nothing before. -/
theorem becomes_discard (uid : NodeId) : g.Becomes host (g.discard uid).value.2 := by
  obtain hsame | ⟨n, hn, hsent, hlive, hremoved⟩ := g.discard_cases uid
  · rw [hsame]
    exact .refl
  · rw [hremoved]
    exact .single (.search (.removed hn hlive hsent (Links.refl g n)))

end Operations
end OperandFlow.Graph
