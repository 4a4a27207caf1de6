import OperandFlow.Proofs.Graph.Lifetime
import OperandFlow.Proofs.Session

/-! Whatever is done in a session changes the graph by moves, so that what each move keeps holds in
every session. -/
namespace OperandFlow

theorem Graph.Causal.becomes_traced {host : Host} {g g' : Graph} (hg : g.Causal)
    (h : g.Traced host g') : g.Becomes host g' := by
  cases h with
  | add _ h => exact becomes_add host hg h
  | complete h => exact becomes_complete host hg h
  | flush function => exact becomes_flushWhere host hg _

namespace Analysis

open OperandFlow.Graph

/-- Whatever is done to an analysis, other than to start over, changes its graph by moves. -/
theorem becomes_perform {s : Analysis} (hs : s.graph.Causal) {action : Action}
    (h : action ≠ .reset) : s.graph.Becomes s.host (s.perform action).graph := by
  have hgrows : ∀ {t : Analysis}, s.Grows t → s.graph.Becomes s.host t.graph := by
    intro t ht
    apply ht.induction (P := fun g => s.graph.Becomes s.host g) .refl
    intro g g' hbecomes htraced
    exact hbecomes.trans ((hs.becomes hbecomes).becomes_traced htraced)
  cases action with
  | pre event state => exact hgrows (s.grows_perform rfl)
  | post event state => exact hgrows (s.grows_perform rfl)
  | replay trace => exact hgrows (s.grows_perform rfl)
  | flush function => exact hgrows (s.grows_perform rfl)
  | add arrival =>
    obtain hgraph | ⟨uid, hvalue⟩ : (s.add arrival).2.graph = _ ∨ _ :=
      s.change_cases add_of_error
    · rw [perform, hgraph]
      exact .refl
    · exact becomes_add s.host hs hvalue
  | complete function opcode result state =>
    exact hgrows (s.grows_complete function opcode result state)
  | findEdges uid => exact becomes_findEdges s.host hs uid
  | remove uid => exact becomes_discard s.host uid
  | reset => exact absurd rfl h

/-- What holds of the empty graph and is kept by each move holds in every session. -/
theorem performAll_induction {P : Graph → Prop} (host : Host) (hempty : P .empty)
    (step : ∀ g g', g.Consistent → P g → g.Moves host g' → P g') (actions : List Action) :
    ((start host).performAll actions).graph.Consistent ∧
      P ((start host).performAll actions).graph := by
  have key : ((start host).performAll actions).host = host ∧
      ((start host).performAll actions).graph.Consistent ∧
        P ((start host).performAll actions).graph := by
    unfold performAll
    apply List.foldlRecOn actions (motive := fun s : Analysis =>
      s.host = host ∧ s.graph.Consistent ∧ P s.graph) _ ⟨rfl, consistent_empty, hempty⟩
    intro s ⟨hhost, hs, hP⟩ action _
    refine ⟨(s.host_perform action).trans hhost, ?_⟩
    by_cases h : action = .reset
    · subst h
      exact ⟨consistent_empty, hempty⟩
    · exact hs.becomes_induction (hhost ▸ becomes_perform hs.causal h) hP step
  exact key.2

theorem consistent_performAll (host : Host) (actions : List Action) :
    ((start host).performAll actions).graph.Consistent :=
  (performAll_induction (P := fun _ => True) host trivial (fun _ _ _ _ _ => trivial) actions).1

/-- Nodes are only ever added, until the host starts over. -/
theorem extends_performAll {s : Analysis} (hs : s.graph.Consistent) {actions : List Action}
    (h : .reset ∉ actions) : s.graph.Extends (s.performAll actions).graph := by
  have key : (s.performAll actions).graph.Consistent ∧
      s.graph.Extends (s.performAll actions).graph := by
    unfold performAll
    apply List.foldlRecOn actions (motive := fun t : Analysis =>
      t.graph.Consistent ∧ s.graph.Extends t.graph) _ ⟨hs, .refl s.graph⟩
    intro t ⟨ht, hext⟩ action hmem
    have hreset : action ≠ .reset := fun heq => h (heq ▸ hmem)
    have hmore := ht.becomes (becomes_perform ht.causal hreset)
    exact ⟨hmore.1, hext.trans hmore.2⟩
  exact key.2

end Analysis
end OperandFlow
