import OperandFlow.Proofs.Graph.Chains
import OperandFlow.Proofs.Runs

/-! Whatever is done in a session, every instruction has a chain of block leaders. -/
namespace OperandFlow

/-- A conditional jump is taken and another one is not, which is removed once it leads a block. -/
def branchTwice : List Action :=
  [.add ⟨"f", 0, .jumpdest, 1, .unknown, [], none, none, none⟩,
    .add ⟨"f", 0, .jumpi, 2, .unknown, [⟨256, "4"⟩, ⟨256, "less"⟩], none, none, none⟩,
    .add ⟨"f", 0, .jumpdest, 4, .unknown, [], none, none, none⟩,
    .add ⟨"f", 0, .jumpi, 5, .unknown, [⟨256, "9"⟩, ⟨256, "more"⟩], none, none, none⟩,
    .add ⟨"f", 0, .jumpdest, 6, .dataFlow, [⟨256, "more"⟩], none, none, none⟩,
    .add ⟨"f", 0, .stop, 5, .unknown, [], none, none, none⟩,
    .add ⟨"f", 0, .caller, 6, .unknown, [], none, none, none⟩, .remove 6,
    .add ⟨"f", 0, .caller, 6, .unknown, [], none, none, none⟩, .remove 5]

namespace Analysis

open OperandFlow.Graph

theorem blocked_performAll (host : Host) (actions : List Action) :
    ((start host).performAll actions).graph.Blocked := by
  obtain ⟨hc, hled, hheads⟩ := performAll_induction
    (P := fun g => Led g.outlines ∧ Heads g.outlines) host ⟨by simp [Led], by simp [Heads]⟩
    (fun _ _ hc hP hmove => ⟨hc.led_moves hP.1 hmove, hc.heads_moves hP.2 hmove⟩) actions
  exact ⟨hc.causal, hled, hheads⟩

/-- Whatever is done in a session, the chain of leaders of an instruction goes from the entry of its
function to its own leader. -/
theorem leaderChain_isChain (host : Host) (actions : List Action) :
    let g := ((start host).performAll actions).graph
    ∀ i n, g.node? i = some n → n.isSentinel = false →
      ∃ s l chain, g.sentinels? n.function = some s ∧ n.leader? = some l ∧ l ≤ i ∧
        g.leaderChain i = .ok chain ∧ chain.getLast? = some l ∧ g.IsChain s.entry n chain := by
  intro g i n hn hsent
  have hg : g.Blocked := blocked_performAll host actions
  have hinstr := hg.causal.formed.instruction_ne_none hn hsent
  obtain ⟨e, -, hs, -, -⟩ := hg.causal.formed.boundaries hn
  obtain ⟨l, hl, hleads, hcases⟩ := hg.leader_cases hn hinstr hs
  obtain ⟨-, -, hchain⟩ := hg.isChain_chainTo hs hleads
  refine ⟨⟨e, e + 1⟩, l, g.chainTo (some e) l, hs, hl, ?_, leaderChain_of_sentinels? hn hl hs, ?_,
    hchain⟩
  · rcases hcases with ⟨-, rfl⟩ | ⟨-, hlt⟩
    · exact Nat.le_refl _
    · exact Nat.le_of_lt hlt
  · rw [chainTo]
    exact List.getLast?_concat

theorem leaderChain_isChain_branchTwice :
    let g := ((start ⟨{}, .text, 0⟩).performAll branchTwice).graph
    ∃ n, g.node? 9 = some n ∧ n.isSentinel = false ∧ g.leaderChain 9 = .ok [0, 2, 3, 4, 5] ∧
      g.IsChain 0 n [0, 2, 3, 4, 5] := by
  intro g
  have hnode : (g.node? 9).any (fun n => !n.isSentinel && n.function = "f") = true := by
    decide +kernel
  have hentry : g.sentinels? "f" = some ⟨0, 1⟩ := by decide +kernel
  have hok : g.leaderChain 9 = .ok [0, 2, 3, 4, 5] := by decide +kernel
  simp only [Option.any_eq_true, Bool.and_eq_true, Bool.not_eq_true', decide_eq_true_eq] at hnode
  obtain ⟨n, hn, hsent, hfun⟩ := hnode
  obtain ⟨s, l, chain, hs, -, -, hchain, -, hischain⟩ :=
    leaderChain_isChain ⟨{}, .text, 0⟩ branchTwice 9 n hn hsent
  rw [hfun, hentry] at hs
  cases hs
  rw [hok] at hchain
  cases hchain
  exact ⟨n, hn, hsent, hok, hischain⟩

end Analysis
end OperandFlow
