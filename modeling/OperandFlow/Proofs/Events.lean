import OperandFlow.Proofs.Graph.ViewGrowth
import OperandFlow.Proofs.Session

/-! Sessions that are made of events: what each of them does to the graph, and how the nodes of one
session stand for those of another. -/
namespace OperandFlow

/-- Something is about to execute, executed, or will not be waited for any longer. -/
def Action.isEvent : Action → Bool
  | pre _ _ | post _ _ | flush _ => true
  | _ => false

theorem PreEvent.function_arrival? {e : PreEvent} {state : Option String} {a : Arrival}
    (h : e.arrival? state = some a) : a.function = e.function ∧ a.tx = e.tx := by
  obtain ⟨opcode, -, rfl⟩ := Option.map_eq_some_iff.mp h
  exact ⟨rfl, rfl⟩

/-- A node under other ids and another name of its function. -/
def Node.renumber (ρ : NodeId → NodeId) (name : String) (n : Node) : Node :=
  { n with
    uid := ρ n.uid
    function := name
    instruction := n.instruction.map fun x => { x with leader := ρ x.leader }
    slots := n.slots.map fun s => ⟨s.datum.renumber ρ, s.preds.map ρ⟩
    successors := n.successors.map ρ
    output := n.output.map (·.renumber ρ) }

namespace Graph

/-- The nodes of `g` with `p` get new ids in their order. Every node of `h` stands for one of
them. -/
structure Renumbering (p : Node → Bool) (g h : Graph) (ρ : NodeId → NodeId) : Prop where
  increasing : ∀ i j n m, g.node? i = some n → g.node? j = some m → p n = true → p m = true →
    i < j → ρ i < ρ j
  onto : ∀ j m, h.node? j = some m →
    ∃ i n, g.node? i = some n ∧ p n = true ∧ ρ i = j ∧ m.kind = n.kind ∧ m.tx? = n.tx?

/-- The graph after an event. -/
def follow (host : Host) (g : Graph) : Action → Graph
  | .pre e state => (e.arrival? state).elim g (g.added host)
  | .post e state => e.opcode?.elim g fun o => g.completed host e.function o e.result state
  | .flush function => (g.flush host function).value
  | _ => g

theorem follow_pre (host : Host) (g : Graph) (e : PreEvent) (state : Option String) :
    g.follow host (.pre e state) = (e.arrival? state).elim g (g.added host) := rfl

theorem follow_post (host : Host) (g : Graph) (e : PostEvent) (state : Option String) :
    g.follow host (.post e state) =
      e.opcode?.elim g fun o => g.completed host e.function o e.result state := rfl

def followAll (host : Host) (g : Graph) (actions : List Action) : Graph :=
  actions.foldl (follow host) g

theorem followAll_append (host : Host) (g : Graph) (actions more : List Action) :
    g.followAll host (actions ++ more) = (g.followAll host actions).followAll host more :=
  List.foldl_append

theorem followAll_singleton (host : Host) (g : Graph) (action : Action) :
    g.followAll host [action] = g.follow host action := rfl

end Graph

namespace Analysis

theorem graph_add (s : Analysis) {a : Arrival} (ha : a.category = .unknown) :
    (s.add a).2.graph = s.graph.added s.host a :=
  congrArg Prod.snd (Graph.add_value_of_unknown s.host s.graph ha)

theorem graph_complete (s : Analysis) (function : String) (opcode : Opcode) (result : Value)
    (state : Option String) : (s.complete function opcode result state).2.graph =
      s.graph.completed s.host function opcode result state := by
  rw [← Graph.complete_graph]
  rfl

/-- Only the graph and the host bear on what an event does to the graph. -/
theorem graph_perform (s : Analysis) {action : Action} (h : action.isEvent = true) :
    (s.perform action).graph = s.graph.follow s.host action := by
  cases action with
  | pre e state =>
    obtain ⟨es, es', -, -, heq⟩ := s.onPre_eq e state
    rw [perform, heq, Graph.follow_pre]
    cases ha : e.arrival? state with
    | none => rw [Option.elim_none, Option.elim_none, log, log]
    | some a => exact (s.log es).graph_add (category_arrival? ha)
  | post e state =>
    obtain ⟨es, es', -, -, heq⟩ := s.onPost_eq e state
    rw [perform, heq, Graph.follow_post]
    cases e.opcode? with
    | none => rw [Option.elim_none, Option.elim_none, log, log]
    | some o => exact (s.log es).graph_complete e.function o e.result state
  | flush function => rfl
  | _ => cases h

theorem graph_performAll (s : Analysis) {actions : List Action}
    (h : ∀ action ∈ actions, action.isEvent = true) :
    (s.performAll actions).graph = s.graph.followAll s.host actions := by
  induction actions generalizing s with
  | nil => rfl
  | cons action actions ih =>
    have haction := h action List.mem_cons_self
    have hrest := ih (s.perform action) fun a ha => h a (List.mem_cons_of_mem action ha)
    rw [s.graph_perform haction, s.host_perform action] at hrest
    exact hrest

end Analysis

namespace Graph

variable {host : Host} {g : Graph}

theorem Steady.follow (h : g.Steady host) (action : Action) : (g.follow host action).Steady host := by
  cases action with
  | pre e state =>
    rw [follow_pre]
    cases ha : e.arrival? state with
    | none => exact h
    | some a => exact h.added (Analysis.category_arrival? ha)
  | post e state =>
    rw [follow_post]
    cases e.opcode? with
    | none => exact h
    | some o => exact h.completed e.function o e.result state
  | flush function => exact h.flushWhere _
  | _ => exact h

theorem Steady.followAll (h : g.Steady host) (actions : List Action) :
    (g.followAll host actions).Steady host :=
  List.foldlRecOn actions (motive := (Steady host ·)) _ h fun _ hg action _ => hg.follow action

end Graph

theorem Analysis.steady_performAll (host : Host) {actions : List Action}
    (h : ∀ action ∈ actions, action.isEvent = true) :
    ((start host).performAll actions).graph.Steady host := by
  rw [graph_performAll (start host) h]
  exact (Graph.steady_empty host).followAll actions

namespace View

open OperandFlow.Graph

variable {v : View} {host : Host} {g : Graph}

/-- The view of some calls of a function in a graph. -/
def of (g : Graph) (function : String) (calls : UInt64 → Bool) (name : String) : View where
  function := function
  calls := calls
  name := name
  keep i := (g.node? i).any fun n => n.function = function && n.tx?.all calls

theorem fits_of (g : Graph) (function : String) (calls : UInt64 → Bool) (name : String) :
    (of g function calls name).Fits g.outlines := by
  intro i o ho
  obtain ⟨n, hn, rfl⟩ := node?_of_outlines ho
  simp only [of, hn, Option.any_some]
  rfl

theorem Fits.of_follow {action : Action} (h : g.Steady host)
    (hv : v.Fits (g.follow host action).outlines) : v.Fits g.outlines := by
  cases action with
  | pre e state =>
    rw [follow_pre] at hv
    cases ha : e.arrival? state with
    | none =>
      rw [ha] at hv
      exact hv
    | some a =>
      rw [ha] at hv
      exact fits_flushed h (Analysis.category_arrival? ha) hv
  | post e state =>
    rw [follow_post] at hv
    cases ho : e.opcode? with
    | none =>
      rw [ho] at hv
      exact hv
    | some o =>
      rw [ho] at hv
      exact outlines_completed host e.result state h.coherent.causal.formed ▸ hv
  | flush function => exact outlines_flushWhere host _ h.coherent.causal.formed ▸ hv
  | _ => exact hv

/-- A view of the last graph is a view of all before it. -/
theorem Fits.of_followAll {actions : List Action} (h : g.Steady host)
    (hv : v.Fits (g.followAll host actions).outlines) : v.Fits g.outlines := by
  induction actions generalizing g with
  | nil => exact hv
  | cons action actions ih => exact .of_follow h (ih (h.follow action) hv)

theorem renumbering_graph (hv : v.Fits g.outlines) (hg : Formed g.outlines) :
    Renumbering (fun n => n.function = v.function && n.tx?.all v.calls) g (v.graph g) v.number where
  increasing := by
    intro i j n m hn _ hp _ hij
    simp only [Bool.and_eq_true, decide_eq_true_eq] at hp
    exact number_lt ((hv.keep_node hn).mpr hp) hij
  onto := by
    intro j m hm
    have hlt := lt_size_of_node? hm
    rw [size_graph hg] at hlt
    obtain ⟨i, hi, hkeep, rfl⟩ := exists_number hlt
    obtain ⟨n, hn⟩ := exists_node?_of_lt hi
    rw [node?_graph hg hkeep, hn] at hm
    cases hm
    refine ⟨i, n, hn, ?_, rfl, rfl, v.tx?_node n⟩
    simpa only [Bool.and_eq_true, decide_eq_true_eq] using (hv.keep_node hn).mp hkeep

/-- A node all of whose neighbours are seen. -/
theorem node_eq_renumber {n : Node} (hpreds : ∀ a, n.FedBy a → v.keep a = true)
    (hsuccessors : ∀ b ∈ n.successors, v.keep b = true) :
    v.node n = n.renumber v.number v.name := by
  have hslots : n.slots.map v.slot =
      n.slots.map fun s => ⟨s.datum.renumber v.number, s.preds.map v.number⟩ := by
    apply List.map_congr_left
    intro s hs
    rw [View.slot, ids_eq_map fun a ha => hpreds a ⟨s, hs, ha⟩]
  unfold node Node.renumber
  rw [hslots, ids_eq_map hsuccessors]

end View
end OperandFlow
