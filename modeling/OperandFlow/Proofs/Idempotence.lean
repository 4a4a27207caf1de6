import OperandFlow.Proofs.Chains
import OperandFlow.Proofs.Graph.Relink

/-! To search for the edges of a node again changes nothing. -/
namespace OperandFlow

namespace Journal

/-- A question leaves no trace but the count of the queries to the oracle. -/
theorem observe_of_isQuestion (j : Journal) {e : Event} (h : e.isQuestion = true) :
    (j.observe e).anomalies = j.anomalies ∧ ∃ queries,
      (j.observe e).profile = { j.profile with oracleQueries := queries } := by
  unfold observe
  split_ifs
  · exact ⟨rfl, j.profile.oracleQueries, rfl⟩
  · cases e with
    | edgeSearchStarted | consulted | oracleFailed =>
      exact ⟨rfl, j.profile.oracleQueries, rfl⟩
    | oracleAsked => exact ⟨rfl, j.profile.oracleQueries + 1, rfl⟩
    | _ => cases h

theorem observeAll_of_asking (j : Journal) {es : List Event} (h : Asking es) :
    (j.observeAll es).anomalies = j.anomalies ∧ ∃ queries,
      (j.observeAll es).profile = { j.profile with oracleQueries := queries } := by
  unfold observeAll
  apply List.foldlRecOn es (motive := fun k : Journal => k.anomalies = j.anomalies ∧ ∃ queries,
    k.profile = { j.profile with oracleQueries := queries }) _
    ⟨rfl, j.profile.oracleQueries, rfl⟩
  intro k ⟨hanomalies, queries, hprofile⟩ e he
  obtain ⟨hanomalies', queries', hprofile'⟩ := k.observe_of_isQuestion (h e he)
  exact ⟨hanomalies'.trans hanomalies, queries', by rw [hprofile', hprofile]⟩

end Journal

namespace Analysis

open OperandFlow.Graph

theorem findEdges_of_value {s : Analysis} {uid : NodeId} {r : Except GraphError Unit} {g : Graph}
    (h : (s.graph.findEdges s.host uid).value = (r, g)) :
    s.findEdges uid =
      (r, { s with graph := g }.log (s.graph.findEdges s.host uid).events) := by
  unfold findEdges change
  dsimp only
  rw [h]

/-- Whatever is done in a session, to search for the edges of a node a second time has the outcome
of the first time, and leaves the graph, the anomalies and all counters alone but that of the queries
to the oracle. -/
theorem findEdges_idempotent (host : Host) (actions : List Action) (uid : NodeId) :
    let s := (start host).performAll actions
    let t := (s.findEdges uid).2
    (t.findEdges uid).1 = (s.findEdges uid).1 ∧
      (t.findEdges uid).2.host = t.host ∧ (t.findEdges uid).2.graph = t.graph ∧
      (t.findEdges uid).2.journal.anomalies = t.journal.anomalies ∧ ∃ queries,
        (t.findEdges uid).2.journal.profile =
          { t.journal.profile with oracleQueries := queries } := by
  intro s t
  cases hresult : (s.graph.findEdges s.host uid).value.1 with
  | error e =>
    -- The first search has left the graph as it was, so that the second one fails in the same way.
    have hfound : (s.graph.findEdges s.host uid).value = (.error e, s.graph) :=
      Prod.ext hresult (findEdges_of_error hresult)
    have ht : t = s.log (s.graph.findEdges s.host uid).events :=
      congrArg Prod.snd (findEdges_of_value hfound)
    have hagain : (t.graph.findEdges t.host uid).value = (.error e, t.graph) := by
      rw [ht]
      exact hfound
    rw [findEdges_of_value hagain, findEdges_of_value hfound]
    exact ⟨rfl, rfl, rfl,
      t.journal.observeAll_of_asking (asking_findEdges (congrArg Prod.fst hagain))⟩
  | ok =>
    have hfound : (s.graph.findEdges s.host uid).value = (.ok (), t.graph) :=
      Prod.ext hresult rfl
    have hagain : (t.graph.findEdges t.host uid).Idle (.ok (), t.graph) :=
      idle_findEdges (consistent_performAll host actions) (blocked_performAll host actions) hfound
    rw [findEdges_of_value hagain.value, findEdges_of_value hfound]
    exact ⟨rfl, rfl, rfl, t.journal.observeAll_of_asking hagain.asking⟩

end Analysis
end OperandFlow
