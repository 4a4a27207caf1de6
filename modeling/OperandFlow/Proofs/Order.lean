import OperandFlow.Proofs.Runs

/-! In every session values flow forward: a producer is the entry of the function or an earlier
instruction of the same call. -/
namespace OperandFlow

theorem Analysis.causal_performAll (host : Host) (actions : List Action) :
    ((start host).performAll actions).graph.Causal :=
  (consistent_performAll host actions).causal

namespace Graph

/-- The node `a` supplies `b`, which is no exit. -/
def Supplies (g : Graph) (a b : NodeId) : Prop :=
  ∃ n, g.node? b = some n ∧ n.kind ≠ .exit ∧ ∃ s ∈ n.slots, a ∈ s.preds

variable {g : Graph}

theorem Causal.precedes_of_supplies (hg : g.Causal) {a b : NodeId} (h : g.Supplies a b) :
    Precedes g.outlines a b := by
  obtain ⟨n, hn, hkind, hfed⟩ := h
  exact hg.precedes_of_feeds hn hkind ⟨n, hn, hfed⟩

/-- Nothing precedes an entry, so that what precedes passes through instructions of one call. -/
theorem Causal.precedes_trans (hg : g.Causal) {a b c : NodeId} (hab : Precedes g.outlines a b)
    (hbc : Precedes g.outlines b c) : Precedes g.outlines a c := by
  obtain ⟨hlt, p, q, hp, hq, hfun, hexit, hinstr, htx⟩ := hab
  obtain ⟨hlt', q', r, hq', hr, hfun', -, hinstr', htx'⟩ := hbc
  rw [hq] at hq'
  cases hq'
  have hentry : ¬ q.isEntry = true := fun h => hinstr ((hg.formed.bare_iff hq).mpr (Or.inl h))
  refine ⟨Nat.lt_trans hlt hlt', p, r, hp, hr, hfun.trans hfun', hexit, hinstr', ?_⟩
  exact htx.imp_right fun h => h.trans (htx'.resolve_left hentry)

theorem Causal.precedes_of_path (hg : g.Causal) {a b : NodeId}
    (h : Relation.TransGen g.Supplies a b) : Precedes g.outlines a b := by
  induction h with
  | single h => exact hg.precedes_of_supplies h
  | tail _ h ih => exact hg.precedes_trans ih (hg.precedes_of_supplies h)

/-- What precedes a node, read off the nodes themselves. -/
theorem Causal.nodes_of_precedes (hg : g.Causal) {a b : NodeId} (h : Precedes g.outlines a b) :
    a < b ∧ ∃ m n s, g.node? a = some m ∧ g.node? b = some n ∧ m.function = n.function ∧
      m.kind ≠ .exit ∧ g.sentinels? n.function = some s ∧ (a = s.entry ∨ m.tx? = n.tx?) := by
  obtain ⟨hlt, p, q, hp, hq, hfun, hexit, -, htx⟩ := h
  obtain ⟨m, hm, rfl⟩ := node?_of_outlines hp
  obtain ⟨n, hn, rfl⟩ := node?_of_outlines hq
  obtain ⟨e, -, hs, he, -⟩ := hg.formed.boundaries hn
  refine ⟨hlt, m, n, ⟨e, e + 1⟩, hm, hn, hfun, by simpa using hexit, hs, ?_⟩
  exact htx.imp_left fun hentry => hg.formed.entry_unique hp he hentry rfl hfun

end Graph

/-- Producers come before what they supply, in the same function and, but for its entry, in the
same call. So values never flow in a circle or from one call to another. -/
theorem Analysis.supplies_forward (host : Host) (actions : List Action) :
    let g := ((start host).performAll actions).graph
    (∀ i n, g.node? i = some n → n.isSentinel = false → ∀ slot ∈ n.slots, ∀ p ∈ slot.preds,
      p < n.uid ∧ ∃ m s, g.node? p = some m ∧ m.function = n.function ∧ m.kind ≠ .exit ∧
        g.sentinels? n.function = some s ∧ (p = s.entry ∨ m.tx? = n.tx?)) ∧
    (∀ a, ¬ Relation.TransGen g.Supplies a a) ∧
    (∀ a b, Relation.TransGen g.Supplies a b →
      ∃ m n s, g.node? a = some m ∧ g.node? b = some n ∧ m.function = n.function ∧
        g.sentinels? n.function = some s ∧ (a = s.entry ∨ m.tx? = n.tx?)) := by
  intro g
  have hg : g.Causal := causal_performAll host actions
  refine ⟨?_, ?_, ?_⟩
  · intro i n hn hsent slot hslot p hp
    have hkind : n.kind ≠ .exit := by
      intro hexit
      rw [(n.isSentinel_iff).mpr (Or.inr hexit)] at hsent
      cases hsent
    obtain ⟨hlt, m, n', s, hm, hn', hfun, hexit, hs, htx⟩ :=
      hg.nodes_of_precedes (hg.precedes_of_supplies ⟨n, hn, hkind, slot, hslot, hp⟩)
    rw [hn] at hn'
    cases hn'
    rw [hg.formed.uid_node hn]
    exact ⟨hlt, m, s, hm, hfun, hexit, hs, htx⟩
  · intro a ha
    exact Nat.lt_irrefl a (hg.precedes_of_path ha).1
  · intro a b hab
    obtain ⟨-, m, n, s, hm, hn, hfun, -, hs, htx⟩ :=
      hg.nodes_of_precedes (hg.precedes_of_path hab)
    exact ⟨m, n, s, hm, hn, hfun, hs, htx⟩

theorem Analysis.supplies_forward_storeOfCaller :
    let g := ((start ⟨{}, .text, 0⟩).performAll storeOfCaller).graph
    ∃ n slot m s, g.node? 3 = some n ∧ n.isSentinel = false ∧ slot ∈ n.slots ∧ 2 ∈ slot.preds ∧
      2 < n.uid ∧ g.node? 2 = some m ∧ m.function = n.function ∧ m.kind ≠ .exit ∧
      g.sentinels? n.function = some s ∧ (2 = s.entry ∨ m.tx? = n.tx?) := by
  intro g
  obtain ⟨n, hn⟩ : ∃ n, g.node? 3 = some n := Option.isSome_iff_exists.mp (by decide +kernel)
  have hstore : (g.node? 3).any fun n =>
      !n.isSentinel && n.slots.any fun slot => decide (2 ∈ slot.preds) := by decide +kernel
  simp only [hn, Option.any_some, Bool.and_eq_true, Bool.not_eq_true', List.any_eq_true,
    decide_eq_true_eq] at hstore
  obtain ⟨hsent, slot, hslot, hp⟩ := hstore
  obtain ⟨hlt, m, s, rest⟩ :=
    (supplies_forward ⟨{}, .text, 0⟩ storeOfCaller).1 3 n hn hsent slot hslot 2 hp
  exact ⟨n, slot, m, s, hn, hsent, hslot, hp, hlt, rest⟩

end OperandFlow
