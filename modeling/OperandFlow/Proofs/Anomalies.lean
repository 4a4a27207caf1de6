import OperandFlow.Proofs.Graph.Resolution
import OperandFlow.Proofs.Links

/-! Nodes that lack an operand are on record. What holds of single instructions while a graph grows
holds in every session, also if it rests on this record. -/
namespace OperandFlow

def GraphError.isMissingOperand : GraphError → Bool
  | missingOperand _ _ _ => true
  | _ => false

/-- The node is found to lack an operand. -/
def Event.isLackOf (i : NodeId) : Event → Bool
  | anomalyFound a => a.uid = i && a.error.isMissingOperand
  | _ => false

namespace Analysis

/-- It is on record that the node lacks an operand. -/
def lacksOperand (s : Analysis) (i : NodeId) : Bool :=
  s.journal.anomalies.any fun a => a.uid = i && a.error.isMissingOperand

/-- What is found is put on record and stays there. -/
theorem lacksOperand_log (s : Analysis) (es : List Event) (i : NodeId) :
    (s.log es).lacksOperand i = (s.lacksOperand i || es.any (·.isLackOf i)) := by
  have hobserve : ∀ (j : Journal) (e : Event),
      (j.observe e).anomalies.any (fun a => a.uid = i && a.error.isMissingOperand) =
        (j.anomalies.any (fun a => a.uid = i && a.error.isMissingOperand) || e.isLackOf i) := by
    intro j e
    unfold Journal.observe Journal.isRepeated Journal.note
    cases e with
    | consulted d => by_cases h : j.rendered.contains d.id = true <;> simp [h, Event.isLackOf]
    | anomalyFound a => simp [Event.isLackOf]
    | _ => simp [Event.isLackOf]
  unfold lacksOperand log Journal.observeAll
  dsimp only
  generalize s.journal = j
  induction es generalizing j with
  | nil => simp
  | cons e es ih => rw [List.foldl_cons, ih, hobserve, List.any_cons, Bool.or_assoc]

theorem lacksOperand_change {α : Type} (s : Analysis)
    (action : Host → Graph → Logged (α × Graph)) (i : NodeId) :
    (s.change action).2.lacksOperand i =
      (s.lacksOperand i || (action s.host s.graph).events.any (·.isLackOf i)) :=
  lacksOperand_log { s with graph := (action s.host s.graph).value.2 } _ i

theorem lacksOperand_harmless {es : List Event} (h : Harmless es) (s : Analysis) (i : NodeId) :
    (s.log es).lacksOperand i = s.lacksOperand i := by
  rw [lacksOperand_log, Bool.or_eq_left_iff_imp]
  intro hany
  obtain ⟨e, he, hlack⟩ := List.any_eq_true.mp hany
  cases e with
  | anomalyFound a => cases h _ he
  | _ => cases hlack

theorem lacksOperand_onPre (s : Analysis) (e : PreEvent) (state : Option String) (i : NodeId) :
    (s.onPre e state).2.lacksOperand i = (s.lacksOperand i ||
      (e.arrival? state).any fun a => (s.graph.add s.host a).events.any (·.isLackOf i)) := by
  obtain ⟨es, es', hes, hes', heq⟩ := s.onPre_eq e state
  rw [heq, lacksOperand_harmless hes']
  cases e.arrival? state with
  | none => simp [lacksOperand_harmless hes]
  | some a =>
    rw [Option.elim_some, add, lacksOperand_change, lacksOperand_harmless hes]
    rfl

theorem lacksOperand_onPost (s : Analysis) (e : PostEvent) (state : Option String) (i : NodeId) :
    (s.onPost e state).2.lacksOperand i = (s.lacksOperand i || e.opcode?.any fun o =>
      (s.graph.complete s.host e.function o e.result state).events.any (·.isLackOf i)) := by
  obtain ⟨es, es', hes, hes', heq⟩ := s.onPost_eq e state
  rw [heq, lacksOperand_harmless hes']
  cases e.opcode? with
  | none => simp [lacksOperand_harmless hes]
  | some o =>
    rw [Option.elim_some, complete, lacksOperand_change, lacksOperand_harmless hes]
    rfl

theorem lacksOperand_of_log {s : Analysis} {i : NodeId} (es : List Event)
    (h : s.lacksOperand i = true) : (s.log es).lacksOperand i = true := by
  rw [lacksOperand_log, h, Bool.true_or]

/-- An arrival that lacks an operand is put on record. -/
theorem lacksOperand_add {s : Analysis} {a : Arrival} {g : Graph} {uid : NodeId}
    (hadd : (s.graph.add s.host a).value = (.ok uid, g)) (ha : a.category = .unknown)
    (hkind : a.kind a.opcode.category ≠ .unknown) (hmissing : a.missing? uid ≠ none) :
    (s.log (s.graph.add s.host a).events).lacksOperand uid = true := by
  obtain ⟨e, he⟩ := Option.ne_none_iff_exists'.mp hmissing
  have hcategory : a.category? = .ok a.opcode.category := by
    unfold Arrival.category?
    rw [ha]
  have hfound := Graph.anomalyFound_of_missing hadd hcategory hkind he
  rw [lacksOperand_log, Bool.or_eq_true, List.any_eq_true]
  refine Or.inr ⟨_, hfound, ?_⟩
  unfold Arrival.missing? at he
  dsimp only at he
  split_ifs at he
  cases he
  simp [Event.isLackOf, GraphError.isMissingOperand]

/-- A property of single instructions, given the nodes that lack an operand, holds throughout. -/
structure Upholds (host : Host) (Q : (NodeId → Prop) → Graph → NodeId → Prop) (s : Analysis) :
    Prop where
  host_eq : s.host = host
  coherent : s.graph.Coherent
  upheld : ∀ i, Q (fun i => s.lacksOperand i = true) s.graph i

section Session

variable {host : Host} {Q : (NodeId → Prop) → Graph → NodeId → Prop} (hQ : Graph.Recorded host Q)
  {s t : Analysis}
include hQ

theorem upholds_start : (start host).Upholds host Q :=
  ⟨rfl, Graph.coherent_empty, (hQ.upheld _).empty⟩

namespace Upholds

theorem log (h : s.Upholds host Q) (es : List Event) : (s.log es).Upholds host Q :=
  ⟨h.host_eq, h.coherent, fun i => hQ.mono (fun _ => lacksOperand_of_log es) (h.upheld i)⟩

/-- The graph is replaced and events are noted. -/
theorem replace {g : Graph} (h : s.Upholds host Q) (es : List Event) (hcoherent : g.Coherent)
    (hupheld : ∀ i, Q (fun i => s.lacksOperand i = true) g i) :
    ({ s with graph := g }.log es).Upholds host Q :=
  ⟨h.host_eq, hcoherent, fun i => hQ.mono (fun _ => lacksOperand_of_log es) (hupheld i)⟩

theorem add {a : Arrival} (h : s.Upholds host Q) (ha : a.category = .unknown) :
    (s.add a).2.Upholds host Q := by
  obtain ⟨rfl, hcoherent, hupheld⟩ := id h
  cases hvalue : (s.graph.add s.host a).value.1 with
  | error e =>
    have hsame := Graph.add_of_error hvalue
    exact h.replace hQ _ (by rwa [hsame]) (by rwa [hsame])
  | ok uid =>
    have hout : (s.graph.add s.host a).value = (.ok uid, (s.add a).2.graph) := Prod.ext hvalue rfl
    refine ⟨rfl, hcoherent.add ha hout, ?_⟩
    exact hQ.add (fun i => hQ.mono (fun _ => lacksOperand_of_log _) (hupheld i)) hcoherent ha hout
      (lacksOperand_add hout ha)

theorem complete (h : s.Upholds host Q) (function : String) (opcode : Opcode) (result : Value)
    (state : Option String) : (s.complete function opcode result state).2.Upholds host Q := by
  obtain ⟨rfl, hcoherent, hupheld⟩ := id h
  cases hvalue : (s.graph.complete s.host function opcode result state).value.1 with
  | error e =>
    have hsame := Graph.complete_of_error hvalue
    exact h.replace hQ _ (by rwa [hsame]) (by rwa [hsame])
  | ok uid =>
    have hout : (s.graph.complete s.host function opcode result state).value = (.ok uid, _) :=
      Prod.ext hvalue rfl
    exact h.replace hQ _ (hcoherent.complete hout) ((hQ.upheld _).complete hupheld hcoherent hout)

theorem flush (h : s.Upholds host Q) (function : Option String) :
    (s.flush function).Upholds host Q := by
  obtain ⟨rfl, hcoherent, hupheld⟩ := id h
  exact h.replace hQ _ (hcoherent.flushWhere s.host _)
    ((hQ.upheld _).flushWhere hupheld hcoherent _)

theorem step (h : s.Upholds host Q) (hstep : s.Step t) : t.Upholds host Q := by
  cases hstep with
  | note es _ => exact h.log hQ es
  | add ha => exact h.add hQ ha
  | complete function opcode result state => exact h.complete hQ function opcode result state
  | flush function => exact h.flush hQ function

end Upholds

theorem upholds_performAll {actions : List Action}
    (h : ∀ action ∈ actions, action.isReport = true) :
    ((start host).performAll actions).Upholds host Q := by
  apply performAll_of_step (upholds_start hQ) (fun hs hstep => hs.step hQ hstep) _ h
  exact fun hs => ⟨hs.host_eq, Graph.coherent_empty, (hQ.upheld _).empty⟩

end Session
end Analysis
end OperandFlow
