import OperandFlow.Proofs.Graph.Upkeep
import OperandFlow.Proofs.Session

/-! In every orderly session the two ends of each edge agree, and the instructions are parted into
those that go to the exit of their function and those that others use. -/
namespace OperandFlow

theorem Graph.Coherent.traced {host : Host} {g g' : Graph} (hg : g.Coherent)
    (h : g.Traced host g') : g'.Coherent := by
  cases h with
  | add ha h => exact hg.add ha h
  | complete h => exact hg.complete h
  | flush function => exact hg.flushWhere host _

namespace Analysis

theorem coherent_perform {s : Analysis} (hs : s.graph.Coherent) {action : Action}
    (h : action.isGuided = true) : (s.perform action).graph.Coherent := by
  have hgrows : ∀ {t : Analysis}, s.Grows t → t.graph.Coherent :=
    fun ht => ht.induction hs fun _ _ hg htraced => hg.traced htraced
  cases action with
  | pre event state => exact hgrows (s.grows_perform rfl)
  | post event state => exact hgrows (s.grows_perform rfl)
  | replay trace => exact hgrows (s.grows_perform rfl)
  | flush function => exact hgrows (s.grows_perform rfl)
  | add arrival => exact hgrows (s.grows_add (of_decide_eq_true h))
  | complete function opcode result state =>
    exact hgrows (s.grows_complete function opcode result state)
  | findEdges => cases h
  | remove uid => exact hs.discard uid
  | reset => exact Graph.coherent_empty

theorem coherent_of_guided (host : Host) {actions : List Action}
    (h : ∀ action ∈ actions, action.isGuided = true) :
    ((start host).performAll actions).graph.Coherent := by
  unfold performAll
  apply List.foldlRecOn actions (motive := fun s : Analysis => s.graph.Coherent) _
    Graph.coherent_empty
  intro s hs action hmem
  exact coherent_perform hs (h action hmem)

theorem coherent_performAll (host : Host) {actions : List Action}
    (h : ∀ action ∈ actions, action.isOrderly = true) :
    ((start host).performAll actions).graph.Coherent :=
  coherent_of_guided host fun action hmem => Action.isGuided_of_isOrderly (h action hmem)

end Analysis

namespace Graph.Coherent

variable {g : Graph}

/-- A live instruction goes to the exit of its function alone, or to later instructions. -/
theorem goes {i : NodeId} {n : Node} (hg : g.Coherent) (hn : g.node? i = some n)
    (hsent : n.isSentinel = false) (hlive : n.isDeleted = false) :
    n.successors ≠ [] ∧ ∃ s, g.sentinels? n.function = some s ∧
      (n.successors = [s.exit] ∨
        ∀ b ∈ n.successors, i < b ∧ ∃ m, g.node? b = some m ∧ m.kind ≠ .exit) := by
  obtain ⟨e, -, hs, -, -⟩ := hg.causal.formed.boundaries hn
  refine ⟨(hg.tidy hn).leaves hlive hsent, _, hs, ?_⟩
  by_cases hexit : ∃ b ∈ n.successors, ∃ m, g.node? b = some m ∧ m.kind = .exit
  · left
    obtain ⟨b, hb, m, hm, hkind⟩ := hexit
    have hout : m.outline.isExit = true := by simpa using hkind
    rw [(hg.tidy hn).leaves_alone b hb _ (outlines_of_node? hm) hout,
      hg.exit_of_flows hn hs hb (outlines_of_node? hm) hout]
  · right
    intro b hb
    obtain ⟨m, hm, hfed⟩ := hg.agree.mp ((flows_iff hn).mpr hb)
    have hkind : m.kind ≠ .exit := fun h => hexit ⟨b, hb, m, hm, h⟩
    exact ⟨(hg.causal.precedes_of_feeds hm hkind ⟨m, hm, hfed⟩).1, m, hm, hkind⟩

/-- The exit of a function has one slot, and that lists the live nodes which go nowhere else. -/
theorem exit_preds {function : String} {s : Sentinels} (hg : g.Coherent)
    (hs : g.sentinels? function = some s) :
    ∃ x slot, g.node? s.exit = some x ∧ x.kind = .exit ∧ x.slots = [slot] ∧ slot.preds.Nodup ∧
      ∀ p, p ∈ slot.preds ↔ ∃ n, g.node? p = some n ∧ n.function = function ∧
        n.isDeleted = false ∧ n.successors = [s.exit] := by
  obtain ⟨-, -, hexit⟩ := hg.causal.formed.of_sentinels? hs
  obtain ⟨x, hx, hxout⟩ := node?_of_outlines hexit
  have hkind := (Node.of_outline_exit hxout).1
  obtain ⟨slot, hslot⟩ := (hg.tidy hx).exit_slot hkind
  have hfeeds : ∀ p, p ∈ slot.preds ↔ g.Feeds p s.exit := by
    intro p
    rw [feeds_iff hx, Node.FedBy, hslot]
    simp
  refine ⟨x, slot, hx, hkind, hslot, (hg.tidy hx).preds_nodup slot (by simp [hslot]), ?_⟩
  intro p
  constructor
  · intro hp
    have hfed := (hfeeds p).mp hp
    obtain ⟨n, hn, hmem⟩ := hg.agree.mpr hfed
    refine ⟨n, hn, ?_, hg.live_of_feeds hn hfed,
      (hg.tidy hn).leaves_alone _ hmem _ hexit rfl⟩
    rcases hg.causal.sourced hfed with ⟨-, -, q, -, hq, -, -, hinstr, -⟩ | ⟨p', q, hp', hq, hfun, -⟩
    · rw [hexit] at hq
      cases hq
      exact absurd rfl hinstr
    · rw [outlines_of_node? hn] at hp'
      rw [hexit] at hq
      cases hp'
      cases hq
      exact hfun
  · rintro ⟨n, hn, -, -, hsucc⟩
    rw [hfeeds, ← hg.agree, flows_iff hn, hsucc]
    exact List.mem_singleton_self _

end Graph.Coherent

/-- Each edge is stored at both of its ends, and once at each. -/
theorem Analysis.mem_successors_iff (host : Host) (actions : List Action)
    (h : ∀ action ∈ actions, action.isOrderly = true) :
    let g := ((start host).performAll actions).graph
    (∀ a b m n, g.node? a = some m → g.node? b = some n →
      (b ∈ m.successors ↔ ∃ slot ∈ n.slots, a ∈ slot.preds)) ∧
    ∀ i n, g.node? i = some n →
      n.successors.Nodup ∧ ∀ slot ∈ n.slots, slot.preds.Nodup := by
  intro g
  have hg : g.Coherent := coherent_performAll host h
  refine ⟨?_, ?_⟩
  · intro a b m n hm hn
    have hagree := hg.agree (a := a) (b := b)
    rwa [Graph.flows_iff hm, Graph.feeds_iff hn] at hagree
  · intro i n hn
    exact ⟨(hg.tidy hn).successors_nodup, (hg.tidy hn).preds_nodup⟩

/-- A store is linked to what it stores at both ends. -/
theorem Analysis.mem_successors_iff_storeOfCaller :
    (∀ action ∈ storeOfCaller, action.isOrderly = true) ∧
      let g := ((start ⟨{}, .text, 0⟩).performAll storeOfCaller).graph
      ∃ m n, g.node? 2 = some m ∧ g.node? 3 = some n ∧ 3 ∈ m.successors ∧
        ∃ slot ∈ n.slots, 2 ∈ slot.preds := by
  have horderly : ∀ action ∈ storeOfCaller, action.isOrderly = true := by decide
  refine ⟨horderly, ?_⟩
  intro g
  obtain ⟨m, hm⟩ : ∃ m, g.node? 2 = some m := Option.isSome_iff_exists.mp (by decide +kernel)
  obtain ⟨n, hn⟩ : ∃ n, g.node? 3 = some n := Option.isSome_iff_exists.mp (by decide +kernel)
  have hmem : (g.node? 2).any fun m => decide (3 ∈ m.successors) := by decide +kernel
  simp only [hm, Option.any_some, decide_eq_true_eq] at hmem
  exact ⟨m, n, hm, hn, hmem,
    ((mem_successors_iff ⟨{}, .text, 0⟩ storeOfCaller horderly).1 2 3 m n hm hn).mp hmem⟩

/-- A live instruction goes to the exit of its function for as long as no other uses it, and the
exit lists these. -/
theorem Analysis.successors_part_at_exit (host : Host) (actions : List Action)
    (h : ∀ action ∈ actions, action.isOrderly = true) :
    let g := ((start host).performAll actions).graph
    (∀ i n, g.node? i = some n → n.isSentinel = false → n.isDeleted = false →
      n.successors ≠ [] ∧ ∃ s, g.sentinels? n.function = some s ∧
        (n.successors = [s.exit] ∨
          ∀ b ∈ n.successors, n.uid < b ∧ ∃ m, g.node? b = some m ∧ m.kind ≠ .exit)) ∧
    ∀ function s, g.sentinels? function = some s →
      ∃ x slot, g.node? s.exit = some x ∧ x.kind = .exit ∧ x.slots[0]? = some slot ∧
        slot.preds.Nodup ∧ ∀ p, p ∈ slot.preds ↔ ∃ n, g.node? p = some n ∧
          n.function = function ∧ n.isDeleted = false ∧ n.successors = [s.exit] := by
  intro g
  have hg : g.Coherent := coherent_performAll host h
  refine ⟨?_, ?_⟩
  · intro i n hn hsent hlive
    rw [hg.causal.formed.uid_node hn]
    exact hg.goes hn hsent hlive
  · intro function s hs
    obtain ⟨x, slot, hx, hkind, hslot, rest⟩ := hg.exit_preds hs
    exact ⟨x, slot, hx, hkind, by simp [hslot], rest⟩

/-- When a store is removed, what it stored goes to the exit again. -/
theorem Analysis.successors_part_at_exit_storeOfCaller :
    (∀ action ∈ storeOfCaller ++ [.remove 3], action.isOrderly = true) ∧
      let g := ((start ⟨{}, .text, 0⟩).performAll (storeOfCaller ++ [.remove 3])).graph
      g.sentinels? "f" = some ⟨0, 1⟩ ∧ ∃ n x slot, g.node? 2 = some n ∧ n.successors = [1] ∧
        g.node? 1 = some x ∧ x.slots[0]? = some slot ∧ 2 ∈ slot.preds := by
  have horderly : ∀ action ∈ storeOfCaller ++ [.remove 3], action.isOrderly = true := by decide
  refine ⟨horderly, ?_⟩
  intro g
  have hs : g.sentinels? "f" = some ⟨0, 1⟩ := by decide +kernel
  obtain ⟨n, hn⟩ : ∃ n, g.node? 2 = some n := Option.isSome_iff_exists.mp (by decide +kernel)
  have hcaller : (g.node? 2).any fun n =>
      n.function = "f" && !n.isDeleted && n.successors = [1] := by decide +kernel
  simp only [hn, Option.any_some, Bool.and_eq_true, decide_eq_true_eq, Bool.not_eq_true'] at hcaller
  obtain ⟨x, slot, hx, -, hslot, -, hpreds⟩ :=
    (successors_part_at_exit ⟨{}, .text, 0⟩ _ horderly).2 "f" ⟨0, 1⟩ hs
  refine ⟨hs, n, x, slot, hn, hcaller.2, hx, hslot, ?_⟩
  exact (hpreds 2).mpr ⟨n, hn, hcaller.1.1, hcaller.1.2, hcaller.2⟩

end OperandFlow
