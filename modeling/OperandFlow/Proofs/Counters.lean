import OperandFlow.Proofs.Events
import OperandFlow.Proofs.Graph.Tallies
import OperandFlow.Proofs.Runs

/-! The counters of an analysis agree with its graph. -/
namespace OperandFlow

namespace Counter

/-- Where the profile has the count. -/
def reading : Counter → Profile → Nat
  | created, p => p.nodesCreated
  | deleted, p => p.nodesDeleted
  | linked, p => p.edgesCreated

theorem reading_observe (c : Counter) (j : Journal) (e : Event) :
    c.reading (j.observe e).profile = c.reading j.profile + [e].countP c.counts := by
  unfold Journal.observe Journal.isRepeated Journal.note
  cases e with
  | consulted d =>
    dsimp only
    split_ifs <;> cases c <;> rfl
  | _ => cases c <;> rfl

theorem reading_log (c : Counter) (s : Analysis) (es : List Event) :
    c.reading (s.log es).journal.profile = c.reading s.journal.profile + es.countP c.counts := by
  unfold Analysis.log Journal.observeAll
  dsimp only
  generalize s.journal = j
  induction es generalizing j with
  | nil => rfl
  | cons e es ih =>
    rw [List.foldl_cons, ih, reading_observe, Nat.add_assoc, ← List.countP_append,
      List.singleton_append]

end Counter

namespace Analysis

open OperandFlow.Graph

variable {c : Counter} {s t : Analysis}

/-- The counter reads what there is in the graph. The edges only count if the waiting nodes are as they
arrived. -/
structure Balanced (c : Counter) (s : Analysis) : Prop where
  causal : s.graph.Causal
  steady : c = .linked → s.graph.Steady s.host
  reading : c.reading s.journal.profile = s.graph.census c

theorem balanced_start (host : Host) : (start host).Balanced c :=
  ⟨causal_empty, fun _ => steady_empty host, by cases c <;> rfl⟩

namespace Balanced

theorem reset (s : Analysis) : s.reset.Balanced c :=
  ⟨causal_empty, fun _ => steady_empty s.host, by cases c <;> rfl⟩

theorem log (h : s.Balanced c) {es : List Event} (hes : Harmless es) : (s.log es).Balanced c :=
  ⟨h.causal, h.steady, by rw [c.reading_log, hes.countP]; exact h.reading⟩

/-- A change whose events say what it does to the census. -/
theorem change {α : Type} {action : Host → Graph → Logged (α × Graph)}
    (h : s.Balanced c) (hcausal : (s.change action).2.graph.Causal)
    (hsteady : c = .linked → (s.change action).2.graph.Steady s.host)
    (hcensus : (action s.host s.graph).value.2.census c =
      s.graph.census c + (action s.host s.graph).events.countP c.counts) :
    (s.change action).2.Balanced c := by
  refine ⟨hcausal, hsteady, ?_⟩
  rw [← h.reading] at hcensus
  exact (c.reading_log { s with graph := (action s.host s.graph).value.2 } _).trans hcensus.symm

theorem causal_perform (h : s.Balanced c) {action : Action} (haction : action ≠ .reset) :
    (s.perform action).graph.Causal :=
  h.causal.becomes (becomes_perform h.causal haction)

theorem add (h : s.Balanced c) {a : Arrival} (ha : c = .linked → a.category = .unknown) :
    (s.add a).2.Balanced c := by
  have hcausal : (s.perform (.add a)).graph.Causal := h.causal_perform (by simp)
  refine h.change hcausal ?_ (census_add h.causal h.steady ha)
  intro hc
  change (s.add a).2.graph.Steady s.host
  rw [s.graph_add (ha hc)]
  exact (h.steady hc).added (ha hc)

theorem complete (h : s.Balanced c) (function : String) (opcode : Opcode) (result : Value)
    (state : Option String) : (s.complete function opcode result state).2.Balanced c := by
  have hcausal : (s.perform (.complete function opcode result state)).graph.Causal :=
    h.causal_perform (by simp)
  refine h.change hcausal ?_ (census_complete h.causal h.steady function opcode result state)
  intro hc
  change (s.complete function opcode result state).2.graph.Steady s.host
  rw [s.graph_complete]
  exact (h.steady hc).completed function opcode result state

theorem flush (h : s.Balanced c) (function : Option String) : (s.flush function).Balanced c := by
  have hcausal : (s.perform (.flush function)).graph.Causal := h.causal_perform (by simp)
  have hflush := (tallies_flushWhere h.causal.formed h.steady fun n =>
    function.all (n.function = ·)).stop
  exact h.change hcausal (fun hc => (h.steady hc).flushWhere _) hflush.census

theorem findEdges (h : s.Balanced c) (hc : c ≠ .linked) (uid : NodeId) :
    (s.findEdges uid).2.Balanced c := by
  have hcausal : (s.perform (.findEdges uid)).graph.Causal := h.causal_perform (by simp)
  have hloose : c = .linked → s.graph.Loose uid := fun hlinked => absurd hlinked hc
  exact h.change hcausal (fun hlinked => absurd hlinked hc)
    (tallies_findEdges s.host h.causal.formed hloose).census

theorem remove (h : s.Balanced c) (hc : c ≠ .linked) (uid : NodeId) :
    (s.remove uid).2.Balanced c := by
  have hcausal : (s.perform (.remove uid)).graph.Causal := h.causal_perform (by simp)
  exact h.change hcausal (fun hlinked => absurd hlinked hc)
    (census_discard h.causal.formed hc uid)

theorem step (h : s.Balanced c) (hstep : s.Step t) : t.Balanced c := by
  cases hstep with
  | note es hes => exact h.log hes
  | add ha => exact h.add fun _ => ha
  | complete function opcode result state => exact h.complete function opcode result state
  | flush function => exact h.flush function

theorem reports (h : s.Balanced c) (hreports : s.Reports t) : t.Balanced c := by
  induction hreports with
  | refl => exact h
  | tail _ hstep ih => exact ih.step hstep

theorem perform (h : s.Balanced c) {action : Action}
    (haction : c = .linked → action.isReport = true) : (s.perform action).Balanced c := by
  cases action with
  | reset => exact reset s
  | add a => exact h.add fun hc => by cases haction hc
  | complete function opcode result state => exact h.complete function opcode result state
  | findEdges uid => exact h.findEdges (fun hc => by cases haction hc) uid
  | remove uid => exact h.remove (fun hc => by cases haction hc) uid
  | _ => exact h.reports (s.reports_perform rfl)

end Balanced

theorem balanced_performAll (host : Host) {actions : List Action}
    (h : c = .linked → ∀ action ∈ actions, action.isReport = true) :
    ((start host).performAll actions).Balanced c := by
  unfold performAll
  apply List.foldlRecOn actions (motive := Balanced c) _ (balanced_start host)
  intro s hs action hmem
  exact hs.perform fun hc => h hc action hmem

/-- A function stores who called it, and masks something of unknown origin before. -/
def maskedStore : List Action :=
  [.pre ⟨"f", 0, "CALLER", 0, [], none, none⟩ none,
    .post ⟨"f", "CALLER", ⟨256, "caller"⟩⟩ none,
    .pre ⟨"f", 0, "AND", 1, [⟨256, "x"⟩, ⟨256, "y"⟩], none, none⟩ none,
    .pre ⟨"f", 0, "SSTORE", 2, [⟨256, "0"⟩, ⟨256, "caller"⟩], none, none⟩ none]

/-- Whatever a host does, every node of the graph but the two sentinels of each function was counted
when it was made, and every node that is gone when it was removed. If the host only reports what it
executes, and starts over at will, then every entry in the slots of a node that is no exit was counted
when it was linked. -/
theorem counters_agree (host : Host) (actions : List Action) :
    let s := (start host).performAll actions
    s.graph.functions.Nodup ∧
      s.journal.profile.nodesCreated + 2 * s.graph.functions.length = s.graph.size ∧
      s.journal.profile.nodesDeleted = s.graph.nodes.toList.countP Node.isDeleted ∧
      ((∀ action ∈ actions, action.isReport = true) →
        s.journal.profile.edgesCreated =
          ((s.graph.nodes.toList.filter (·.kind ≠ .exit)).map Node.inDegree).sum) := by
  intro s
  have hformed := (consistent_performAll host actions).causal.formed
  have hcreated : s.Balanced .created := balanced_performAll host (by simp)
  have hdeleted : s.Balanced .deleted := balanced_performAll host (by simp)
  refine ⟨nodup_functions hformed, ?_, ?_, ?_⟩
  · rw [← census_created hformed]
    exact congrArg (· + _) hcreated.reading
  · exact hdeleted.reading.trans (census_deleted s.graph)
  · intro hreports
    have hlinked : s.Balanced .linked := balanced_performAll host fun _ => hreports
    exact hlinked.reading.trans (census_linked s.graph)

theorem counters_agree_maskedStore :
    let s := (start ⟨{}, .text, 0⟩).performAll maskedStore
    s.journal.profile.nodesCreated = 3 ∧ s.journal.profile.nodesDeleted = 1 ∧
      s.journal.profile.edgesCreated = 2 := by
  intro s
  obtain ⟨-, hcreated, hdeleted, hlinked⟩ := counters_agree ⟨{}, .text, 0⟩ maskedStore
  have hedges := hlinked (by decide)
  have hsize : s.graph.size = 5 := by decide +kernel
  have hfunctions : s.graph.functions.length = 1 := by decide +kernel
  have hgone : s.graph.nodes.toList.countP Node.isDeleted = 1 := by decide +kernel
  have hentries : ((s.graph.nodes.toList.filter (·.kind ≠ .exit)).map Node.inDegree).sum = 2 := by
    decide +kernel
  refine ⟨?_, hdeleted.trans hgone, hedges.trans hentries⟩
  change s.journal.profile.nodesCreated + 2 * s.graph.functions.length = s.graph.size at hcreated
  omega

end Analysis
end OperandFlow
