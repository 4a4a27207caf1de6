import OperandFlow.Proofs.Events
import OperandFlow.Proofs.Links
import OperandFlow.Proofs.Runs

/-! Graphs that the reports of a host lead to, and the arrivals that their nodes were made for. -/
namespace OperandFlow

open Relation

namespace Graph

/-- The host's reports lead to the graph. -/
def Reported (host : Host) (g : Graph) : Prop := ReflTransGen (Traced host) .empty g

/-- The node was made for the arrival, on a way to the graph. -/
def Made (host : Host) (a : Arrival) (i : NodeId) (g : Graph) : Prop :=
  ∃ g₀ g₁, Reported host g₀ ∧ a.category = .unknown ∧ (g₀.add host a).value = (.ok i, g₁) ∧
    ReflTransGen (Traced host) g₁ g

variable {host : Host} {a : Arrival} {g g' : Graph} {i : NodeId}

theorem reported_empty (host : Host) : empty.Reported host := ReflTransGen.refl

theorem Steady.traced (h : g.Steady host) (htraced : g.Traced host g') : g'.Steady host := by
  cases htraced with
  | add ha hadd =>
    rw [add_value_of_unknown host g ha] at hadd
    cases hadd
    exact h.added ha
  | complete hcomplete =>
    exact ⟨h.coherent.complete hcomplete, h.accounted.complete h.coherent hcomplete⟩
  | flush function => exact h.flushWhere _

theorem Consistent.traced (h : g.Consistent) (htraced : g.Traced host g') :
    g'.Consistent ∧ g.Extends g' :=
  h.becomes (h.causal.becomes_traced htraced)

theorem Reported.steady (h : g.Reported host) : g.Steady host := by
  induction h with
  | refl => exact steady_empty host
  | tail _ htraced ih => exact ih.traced htraced

theorem Consistent.reports (h : g.Consistent) (hreports : ReflTransGen (Traced host) g g') :
    g'.Consistent ∧ g.Extends g' := by
  induction hreports with
  | refl => exact ⟨h, .refl g⟩
  | tail _ htraced ih =>
    obtain ⟨hc, hext⟩ := ih
    obtain ⟨hc', hext'⟩ := hc.traced htraced
    exact ⟨hc', hext.trans hext'⟩

theorem Reported.consistent (h : g.Reported host) : g.Consistent :=
  (consistent_empty.reports h).1

/-- What holds of single instructions while a graph grows holds in it, provided that it holds of the
arrivals that are not linked at once. -/
theorem Reported.upheld {Q : Graph → NodeId → Prop} (h : g.Reported host) (hQ : Upheld host Q)
    (hnew : ∀ {g : Graph} {a : Arrival} {uid : NodeId} {n : Node}, g.node? uid = some n →
      n.uid = uid → n.opcode? = some a.opcode → n.kind = a.kind a.opcode.category →
      n.slots = host.options.slots uid (a.slotValues a.opcode.category) → n.Fresh →
      linksAtOnce a n = false → Q g uid) : ∀ i, Q g i := by
  induction h with
  | refl => exact hQ.empty
  | tail hreported htraced ih =>
    have hg := (Reported.steady hreported).coherent
    cases htraced with
    | add ha hadd =>
      exact Sustained.add hQ ih hg ha hadd (fun _ _ _ hfresh => hfresh) fun _ => hnew
    | complete hcomplete => exact hQ.complete ih hg hcomplete
    | flush function => exact hQ.flushWhere ih hg _

/-- Of all instructions only the one that arrives is new. -/
theorem outlines_of_add (h : g.Steady host) (ha : a.category = .unknown) {o : Outline}
    (ho : (g.added host a).outlines[i]? = some o) (hinstr : o.instruction ≠ none) :
    (i = (g.readyFor host a).1.size ∧ o = (g.newcomer host a).outline) ∨
      (i < (g.readyFor host a).1.size ∧ g.outlines[i]? = some o) := by
  have hformed := h.coherent.causal.formed
  rw [outlines_added h ha, joined, outlines_arrive, Array.getElem?_push, size_outlines] at ho
  split_ifs at ho with hi
  · exact Or.inl ⟨hi, (Option.some.inj ho).symm⟩
  · obtain ⟨n, hn, rfl⟩ := node?_of_outlines ho
    refine Or.inr ⟨lt_size_of_node? hn, ?_⟩
    rcases node?_withFunction hn with hn | ⟨-, kind, -, rfl⟩
    · rw [← outlines_flushWhere host _ hformed]
      exact outlines_of_node? hn
    · exact absurd rfl hinstr

theorem lt_size_added (h : g.Steady host) (ha : a.category = .unknown) :
    (g.readyFor host a).1.size < (g.added host a).size := by
  rw [← size_outlines (g.added host a), outlines_added h ha, joined, outlines_arrive,
    Array.size_push, size_outlines]
  exact Nat.lt_succ_self _

/-- Every instruction was made for an arrival. -/
theorem Reported.exists_made (h : g.Reported host) {n : Node} (hn : g.node? i = some n)
    (hinstr : n.instruction ≠ none) : ∃ a, g.Made host a i := by
  suffices hall : ∀ o, g.outlines[i]? = some o → o.instruction ≠ none → ∃ a, g.Made host a i from
    hall _ (outlines_of_node? hn) hinstr
  clear hn hinstr
  induction h with
  | refl =>
    intro o ho
    simp at ho
  | @tail g g' hreported htraced ih =>
    intro o ho hinstr
    have hg := Reported.steady hreported
    have hearlier : g.outlines[i]? = some o → ∃ a, g'.Made host a i := by
      intro ho
      obtain ⟨a, g₀, g₁, hg₀, ha, hadd, hlater⟩ := ih o ho hinstr
      exact ⟨a, g₀, g₁, hg₀, ha, hadd, hlater.tail htraced⟩
    cases htraced with
    | @add a _ uid ha hadd =>
      have hvalue := add_value_of_unknown host g ha
      cases hvalue.symm.trans hadd
      rcases outlines_of_add hg ha ho hinstr with ⟨rfl, -⟩ | ⟨-, ho⟩
      · exact ⟨a, g, _, hreported, ha, hvalue, .refl⟩
      · exact hearlier ho
    | @complete function opcode result state _ uid hcomplete =>
      have hvalue := complete_graph host g function opcode result state
      rw [hcomplete] at hvalue
      change g' = _ at hvalue
      rw [hvalue, outlines_completed host result state hg.coherent.causal.formed] at ho
      exact hearlier ho
    | flush function =>
      rw [flush, outlines_flushWhere host _ hg.coherent.causal.formed] at ho
      exact hearlier ho

namespace Made

theorem opcode? (h : g.Made host a i) {n : Node} (hn : g.node? i = some n) :
    n.opcode? = some a.opcode := by
  obtain ⟨g₀, g₁, hg₀, ha, hadd, hlater⟩ := h
  have hsteady := hg₀.steady
  cases (add_value_of_unknown host g₀ ha).symm.trans hadd
  obtain ⟨-, -, hnew, -⟩ := joined_cases hsteady ha
  have hout := outlines_of_node? hnew
  rw [← outlines_added hsteady ha] at hout
  obtain ⟨m, hm, hsame⟩ := node?_of_outlines hout
  have hadded := (hg₀.consistent.traced (.add ha hadd)).1
  obtain ⟨k, hk, hevolves⟩ := (hadded.reports hlater).2 hm
  cases hk.symm.trans hn
  rw [hevolves.opcode?_eq]
  exact congrArg (fun o => o.instruction.map (·.opcode)) hsame

/-- What is known of a node at its outset, and what the search for its edges makes of it, holds for
good, whatever else is reported. -/
theorem sustained {F : Outset} {R : Graph → NodeId → Prop} (h : g.Made host a i)
    (hQ : Sustained host F fun g j => g.Accounts host (fun _ => True) j ∧ (j = i → R g j))
    (hother : ∀ {j : NodeId} {n : Node}, j ≠ i → n.Fresh → F.holds j n)
    (harrives : ∀ n : Node, n.opcode? = some a.opcode →
      n.slots = host.options.slots i (a.slotValues a.opcode.category) → n.Fresh → F.holds i n)
    (hnew : ∀ (g : Graph) (n : Node), g.node? i = some n → n.uid = i →
      n.kind = a.kind a.opcode.category → F.holds i n → linksAtOnce a n = false → R g i) :
    R g i := by
  obtain ⟨g₀, g₁, hg₀, ha, hadd, hlater⟩ := h
  have hsteady := hg₀.steady
  have hi : i = (g₀.readyFor host a).1.size :=
    Except.ok.inj (congrArg Prod.fst (hadd.symm.trans (add_value_of_unknown host g₀ ha)))
  have hready : ∀ {g : Graph} (a : Arrival), g.Consistent → g.size ≤ (g.readyFor host a).1.size :=
    fun a hg => (hg.becomes (becomes_readyFor host hg.causal a)).2.size_le
  -- Before the node arrives there is none in its place.
  have hbefore : ∀ j, g₀.Accounts host (fun _ => True) j ∧ (j = i → R g₀ j) := by
    intro j
    by_cases hj : j = i
    · apply hQ.bare
      intro n hn
      have hlt : j < j :=
        Nat.lt_of_lt_of_le (lt_size_of_node? hn) (hj ▸ hi ▸ hready a hg₀.consistent)
      exact absurd hlt (Nat.lt_irrefl j)
    · exact ⟨hsteady.accounted j, fun h => absurd h hj⟩
  have harrived : ∀ j, g₁.Accounts host (fun _ => True) j ∧ (j = i → R g₁ j) :=
    hQ.add hbefore hsteady.coherent ha hadd harrives fun n hn huid _ hkind _ hholds honce =>
      ⟨accounts_of_fresh hn (F.fresh hholds), fun _ => hnew g₁ n hn huid hkind hholds honce⟩
  have hlt : i < g₁.size := by
    cases (add_value_of_unknown host g₀ ha).symm.trans hadd
    exact lt_size_added hsteady ha
  suffices hall : g.Coherent ∧ g.Consistent ∧ i < g.size ∧
      ∀ j, g.Accounts host (fun _ => True) j ∧ (j = i → R g j) from (hall.2.2.2 i).2 rfl
  induction hlater with
  | refl =>
    exact ⟨(hsteady.traced (.add ha hadd)).coherent, (hg₀.consistent.traced (.add ha hadd)).1, hlt,
      harrived⟩
  | @tail g g' _ htraced ih =>
    obtain ⟨hg, hc, hlt, hall⟩ := ih
    obtain ⟨hc', hext⟩ := hc.traced htraced
    refine ⟨hg.traced htraced, hc', Nat.lt_of_lt_of_le hlt hext.size_le, ?_⟩
    cases htraced with
    | @add b _ uid hb hadd =>
      -- Another node arrives.
      have hne : uid ≠ i := by
        cases (add_value_of_unknown host g hb).symm.trans hadd
        exact Nat.ne_of_gt (Nat.lt_of_lt_of_le hlt (hready b hc))
      exact hQ.add hall hg hb hadd (fun _ _ _ hfresh => hother hne hfresh)
        fun n hn _ _ _ _ hholds _ =>
          ⟨accounts_of_fresh hn (F.fresh hholds), fun heq => absurd heq hne⟩
    | complete hcomplete => exact hQ.complete hall hg hcomplete
    | flush function => exact hQ.flushWhere hall hg _

end Made

end Graph

namespace Analysis

theorem reported_performAll (host : Host) {actions : List Action}
    (h : ∀ action ∈ actions, action.isReport = true) :
    ((start host).performAll actions).host = host ∧
      ((start host).performAll actions).graph.Reported host := by
  unfold performAll
  apply List.foldlRecOn actions (motive := fun s : Analysis =>
    s.host = host ∧ s.graph.Reported host) _ ⟨rfl, Graph.reported_empty host⟩
  intro s ⟨hhost, hs⟩ action hmem
  refine ⟨(s.host_perform action).trans hhost, ?_⟩
  have hreport := h action hmem
  have hgrows : action.isTracing = true → (s.perform action).graph.Reported host :=
    fun htracing => ReflTransGen.trans hs (hhost ▸ (s.grows_perform htracing).2)
  cases action with
  | reset => exact Graph.reported_empty host
  | _ => exact hgrows hreport

/-- The node of an instruction that is announced was made for its arrival, until the host starts
over. -/
theorem made_performAll (host : Host) (front back : List Action) (e : PreEvent)
    (state : Option String) {a : Arrival} (hfront : ∀ action ∈ front, action.isReport = true)
    (hback : ∀ action ∈ back, action.isTracing = true) (ha : e.arrival? state = some a) :
    ((start host).performAll (front ++ .pre e state :: back)).graph.Made host a
      (((start host).performAll front).graph.readyFor host a).1.size := by
  obtain ⟨hhost, hreported⟩ := reported_performAll host hfront
  have hcategory := category_arrival? ha
  have hsplit : (start host).performAll (front ++ .pre e state :: back) =
      (((start host).performAll front).perform (.pre e state)).performAll back := by
    rw [performAll, List.foldl_append, List.foldl_cons]
    rfl
  generalize (start host).performAll front = s at hhost hreported hsplit ⊢
  subst hhost
  have hgraph : (s.perform (.pre e state)).graph = s.graph.added s.host a := by
    rw [s.graph_perform rfl, Graph.follow_pre, ha, Option.elim_some]
  refine ⟨s.graph, _, hreported, hcategory, Graph.add_value_of_unknown s.host s.graph hcategory, ?_⟩
  have hgrows := ((s.perform (.pre e state)).grows_performAll hback).2
  rw [hgraph, s.host_perform] at hgrows
  rw [hsplit]
  exact hgrows

end Analysis
end OperandFlow
