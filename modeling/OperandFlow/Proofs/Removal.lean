import OperandFlow.Proofs.Graph.Wiring
import OperandFlow.Proofs.Lifecycle
import OperandFlow.Proofs.Links

/-! Removed nodes. In every session they stay removed and nothing supplies them; and they keep no
neighbours at all, unless the host asks for edges out of turn or gives kinds of its own. -/
namespace OperandFlow

/-- No slot of the node is supplied, it goes nowhere, and no other node names it. -/
structure Graph.Detached (g : Graph) (d : NodeId) : Prop where
  unfed : ∀ a, ¬ g.Feeds a d
  leaves : ∀ b, ¬ g.Flows d b
  feeds : ∀ b, ¬ g.Feeds d b
  unlisted : ∀ a, ¬ g.Flows a d

namespace Graph

variable {g : Graph} {d : NodeId}

/-- Only edges that a node stores itself, or that others list, can be left of a removed node. -/
theorem Wired.detached_iff (hg : g.Wired g.outlines) (hd : g.Gone d) :
    g.Detached d ↔ (∀ b, ¬ g.Flows d b) ∧ ∀ a, ¬ g.Flows a d := by
  constructor
  · intro h
    exact ⟨h.leaves, h.unlisted⟩
  · rintro ⟨hleaves, hunlisted⟩
    exact ⟨fun a => hg.unfed hd, hleaves, fun b hb => hleaves b (hg.listed hb), hunlisted⟩

/-- Where both ends of every edge agree, nothing is left of a removed node. -/
theorem Coherent.detached (hg : g.Coherent) (hw : g.Wired g.outlines) (hd : g.Gone d) :
    g.Detached d := by
  obtain ⟨n, hn, hdel⟩ := id hd
  refine (hw.detached_iff hd).mpr ⟨?_, fun a ha => hw.unfed hd (hg.agree.mp ha)⟩
  intro b hb
  rw [flows_iff hn, (hg.tidy hn).buried hdel] at hb
  cases hb

end Graph

namespace Analysis

open OperandFlow.Graph

theorem led_and_wired (host : Host) (actions : List Action) :
    let g := ((start host).performAll actions).graph
    Led g.outlines ∧ g.Wired g.outlines :=
  (performAll_induction (P := fun g => Led g.outlines ∧ g.Wired g.outlines) host
    ⟨by simp [Led], wired_empty _⟩
    (fun _ _ hc hP hmove => ⟨hc.led_moves hP.1 hmove, hP.2.moves hc hP.1 hmove⟩) actions).2

/-- A removed node stays removed and nothing supplies it, so that it is detached unless it goes
somewhere or is listed somewhere. The first happens to the leader of a block only, which is linked
to nodes of its block, or to the exit; the second to a storage read only. Neither happens if the
host leaves linking to the graph. -/
theorem removed_detached_iff (host : Host) (actions : List Action) :
    let s := (start host).performAll actions
    let g := s.graph
    ∀ d n, g.node? d = some n → n.isDeleted = true →
      (∀ slot ∈ n.slots, slot.preds = []) ∧
      (∀ back, .reset ∉ back →
        ∃ m, (s.performAll back).graph.node? d = some m ∧ m.isDeleted = true) ∧
      (g.Detached d ↔ n.successors = [] ∧ ∀ a, ¬ g.Flows a d) ∧
      (∀ b ∈ n.successors, (n.is .jumpdest = true ∨ n.is .jumpi = true) ∧
        ∃ m, g.node? b = some m ∧ (m.kind = .exit ∨ m.leader? = some d)) ∧
      ((∃ a, g.Flows a d) → n.is .sload = true) ∧
      ((∀ action ∈ actions, action.isGuided = true) → g.Detached d) := by
  intro s g d n hn hdel
  have hg : g.Wired g.outlines := (led_and_wired host actions).2
  have hd : g.Gone d := ⟨n, hn, hdel⟩
  have hat : ∀ {o : Outline}, g.outlines[d]? = some o → n.outline = o := by
    intro o ho
    rw [outlines_of_node? hn] at ho
    exact Option.some.inj ho
  refine ⟨?_, ?_, ?_, ?_, ?_, fun h => (coherent_of_guided host h).detached hg hd⟩
  · intro slot hslot
    rw [List.eq_nil_iff_forall_not_mem]
    intro a ha
    exact hg.unfed hd ⟨n, hn, slot, hslot, ha⟩
  · intro back hback
    obtain ⟨m, hm, hevolves⟩ := extends_performAll (consistent_performAll host actions) hback hn
    refine ⟨m, hm, ?_⟩
    by_contra hlive
    cases hdel.symm.trans (hevolves.isDeleted_eq_false (by simpa using hlive))
  · rw [hg.detached_iff hd, List.eq_nil_iff_forall_not_mem]
    simp only [flows_iff hn]
  · intro b hb
    have hflows := (flows_iff hn).mpr hb
    obtain ⟨o, ho, hstarts⟩ := hg.starts hd hflows
    obtain ⟨p, hp, hleads⟩ := hg.leads hd hflows
    obtain ⟨m, hm, rfl⟩ := node?_of_outlines hp
    have hstarts : n.outline.StartsBlock := hat ho ▸ hstarts
    exact ⟨hstarts.imp decide_eq_true decide_eq_true, m, hm,
      hleads.imp_left fun h => by simpa using h⟩
  · rintro ⟨a, ha⟩
    rcases hg.fed ha with hfed | ⟨o, ho, hload⟩
    · exact absurd hfed (hg.unfed hd)
    · have hload : n.outline.opcode? = some .sload := hat ho ▸ hload
      exact decide_eq_true hload

theorem removed_detached_iff_storeOfCaller :
    let actions := storeOfCaller ++ [.remove 2]
    let g := ((start ⟨{}, .text, 0⟩).performAll actions).graph
    (∃ n, g.node? 2 = some n ∧ n.isDeleted = true) ∧
      (∀ action ∈ actions, action.isGuided = true) ∧ g.Detached 2 := by
  intro actions g
  have hguided : ∀ action ∈ actions, action.isGuided = true := by decide
  have hremoved : (g.node? 2).any Node.isDeleted = true := by decide +kernel
  obtain ⟨n, hn, hdel⟩ := (Option.any_eq_true ..).mp hremoved
  obtain ⟨-, -, -, -, -, hdetached⟩ := removed_detached_iff ⟨{}, .text, 0⟩ actions 2 n hn hdel
  exact ⟨⟨n, hn, hdel⟩, hguided, hdetached hguided⟩

/-- The host removes the leader of a block and asks for the edges of the halt in it. -/
def haltAfterLeader : List Action :=
  [.add ⟨"f", 0, .jumpdest, 0, .unknown, [], none, none, none⟩,
    .add ⟨"f", 0, .stop, 1, .unknown, [], none, none, none⟩, .remove 2, .findEdges 3]

/-- The host asks for the edges of a storage read that waits, makes another way to it, and removes
it once its result is there. -/
def readBeforeResult : List Action :=
  [.add ⟨"f", 0, .jumpdest, 0, .unknown, [], none, none, none⟩,
    .add ⟨"f", 0, .sstore, 0, .unknown, [⟨256, "2"⟩, ⟨256, "5"⟩], none, none, none⟩,
    .add ⟨"f", 0, .jumpi, 0, .unknown, [⟨256, "1"⟩, ⟨256, "c"⟩], none, none, none⟩,
    .add ⟨"f", 0, .jumpdest, 1, .unknown, [], none, none, none⟩,
    .add ⟨"f", 0, .sload, 1, .unknown, [⟨256, "2"⟩], none, none, none⟩,
    .findEdges 6, .remove 4, .complete "f" .sload ⟨256, "v"⟩ none, .remove 6]

/-- A removed node can have neighbours: the leader of a block supplies a halt that is linked late,
and a store lists a read. -/
theorem removed_not_detached :
    let leader := ((start ⟨{}, .text, 0⟩).performAll haltAfterLeader).graph
    let read := ((start ⟨{}, .text, 0⟩).performAll readBeforeResult).graph
    (leader.Gone 2 ∧ leader.Flows 2 3 ∧ leader.Feeds 2 3) ∧ read.Gone 6 ∧ read.Flows 3 6 := by
  intro leader read
  have hleader : ((leader.node? 2).any fun n => n.isDeleted && decide (3 ∈ n.successors)) = true ∧
      ((leader.node? 3).any fun n => n.slots.any fun slot => decide (2 ∈ slot.preds)) = true := by
    decide +kernel
  have hread : (read.node? 6).any Node.isDeleted = true ∧
      ((read.node? 3).any fun n => decide (6 ∈ n.successors)) = true := by
    decide +kernel
  simp only [Option.any_eq_true, Bool.and_eq_true, decide_eq_true_eq, List.any_eq_true] at hleader hread
  obtain ⟨⟨n, hn, hdel, hsucc⟩, m, hm, hfed⟩ := hleader
  exact ⟨⟨⟨n, hn, hdel⟩, ⟨n, hn, hsucc⟩, m, hm, hfed⟩, hread⟩

end Analysis
end OperandFlow
