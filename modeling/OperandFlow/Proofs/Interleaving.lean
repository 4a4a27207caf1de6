import OperandFlow.Proofs.Graph.Waiting

/-! Calls of one function that run at the same time: a call is traced as if it were alone as long
as results come in turn. -/
namespace OperandFlow

namespace Action

/-- What one call reports. -/
def stream (tx : UInt64) (events : List (UInt64 × Action)) : List Action :=
  (events.filter (·.1 = tx)).map (·.2)

/-- Every result comes in turn, from a call that waits for it as the last one. -/
def allInTurn : List (UInt64 × Opcode) → List (UInt64 × Action) → Bool
  | _, [] => true
  | waiting, (tx, action) :: events =>
    action.inTurn tx waiting && allInTurn (action.waits tx waiting) events

/-- Every result directly follows its instruction. -/
def paired : List Action → Bool
  | [] => true
  | pre e _ :: post r _ :: actions =>
    e.function = r.function && e.opcode = r.opcode && paired actions
  | pre _ _ :: actions => paired actions
  | _ => false

theorem isEvent_of_isOf {function : String} {tx : UInt64} {action : Action}
    (h : action.isOf function tx = true) : action.isEvent = true := by
  cases action with
  | pre => rfl
  | post => rfl
  | _ => cases h

theorem isEvent_of_forall_isOf {function : String} {events : List (UInt64 × Action)}
    (h : ∀ e ∈ events, e.2.isOf function e.1 = true) :
    ∀ action ∈ events.map (·.2), action.isEvent = true :=
  List.forall_mem_map.mpr fun e he => isEvent_of_isOf (h e he)

end Action

namespace Graph

variable {host : Host} {g x y : Graph} {function : String}

theorem flushWhere_of_pending_nil (h : g.pending = []) (p : Node → Bool) :
    (g.flushWhere host p).value = g := by
  rw [flushWhere_value, pendingWhere, h]
  rfl

theorem completed_of_pending_nil (h : g.pending = []) (opcode : Opcode) (result : Value)
    (state : Option String) : g.completed host function opcode result state = g := by
  have hwait : g.awaiting? function opcode = none := by
    rw [awaiting?, pendingWhere, h]
    rfl
  rw [completed, hwait]

theorem withFunction_of_isSome {o : Options} (h : (g.sentinels? function).isSome = true) :
    (g.withFunction o function).value.1 = g := by
  obtain ⟨s, hs⟩ := Option.isSome_iff_exists.mp h
  rw [withFunction, hs]
  rfl

theorem withFunction_withFunction {o : Options} (hg : Formed g.outlines) :
    ((g.withFunction o function).value.1.withFunction o function).value =
      (g.withFunction o function).value := by
  have hs := (formed_withFunction (o := o) hg function).2
  conv_lhs => rw [withFunction, hs]
  rfl

theorem isSome_sentinels?_added {a : Arrival} (h : g.Steady host) (ha : a.category = .unknown) :
    ((g.added host a).sentinels? a.function).isSome = true := by
  obtain ⟨hjoined, -, hnode, -⟩ := joined_cases h ha
  obtain ⟨e, -, hs, -⟩ := hjoined.causal.formed.boundaries hnode
  have hs : (g.joined host a).sentinels? a.function = some ⟨e, e + 1⟩ := hs
  rw [sentinels?_congr (outlines_added h ha), hs]
  rfl

/-- What is seen of a call and the session of the call alone. They are the same once the call has
begun, and before that another call may have made the sentinels. -/
inductive Accords (o : Options) (function : String) : Graph → Graph → Prop where
  | unopened : Accords o function empty empty
  | opened : Accords o function (empty.withFunction o function).value.1 empty
  | begun {g : Graph} (h : (g.sentinels? function).isSome = true) : Accords o function g g

namespace Accords

theorem withFunction {o : Options} (h : Accords o function x y) :
    Accords o function (x.withFunction o function).value.1 y := by
  cases h with
  | unopened => exact opened
  | opened =>
    rw [withFunction_withFunction (outlines_empty ▸ formed_empty)]
    exact opened
  | begun h =>
    rw [withFunction_of_isSome h]
    exact begun h

theorem added {a : Arrival} (h : Accords host.options a.function x y) (hy : y.Steady host)
    (ha : a.category = .unknown) :
    Accords host.options a.function (x.added host a) (y.added host a) := by
  have hsame : x.added host a = y.added host a := by
    cases h with
    | unopened => rfl
    | begun => rfl
    | opened =>
      have hready : (empty.withFunction host.options a.function).value.1.readyFor host a =
          empty.readyFor host a := by
        unfold readyFor
        rw [flushWhere_of_pending_nil (pending_withFunction _ _ _), flushWhere_of_pending_nil rfl,
          withFunction_withFunction (outlines_empty ▸ formed_empty)]
      unfold Graph.added
      rw [hready]
  rw [hsame]
  exact begun (isSome_sentinels?_added hy ha)

theorem completed (h : Accords host.options function x y) (hy : y.Steady host) (opcode : Opcode)
    (result : Value) (state : Option String) :
    Accords host.options function (x.completed host function opcode result state)
      (y.completed host function opcode result state) := by
  cases h with
  | unopened =>
    rw [completed_of_pending_nil rfl]
    exact unopened
  | opened =>
    rw [completed_of_pending_nil (pending_withFunction _ _ _), completed_of_pending_nil rfl]
    exact opened
  | begun h =>
    apply begun
    rwa [sentinels?_congr (outlines_completed host result state hy.coherent.causal.formed)]

theorem node?_of_alone {o : Options} {i : NodeId} {n : Node} (h : Accords o function x y)
    (hn : y.node? i = some n) : x.node? i = some n := by
  cases h with
  | begun => exact hn
  | _ => cases hn

theorem node?_of_seen {o : Options} {i : NodeId} {n : Node} (h : Accords o function x y)
    (hn : x.node? i = some n) (hinstr : n.instruction ≠ none) : y.node? i = some n := by
  cases h with
  | begun => exact hn
  | unopened => exact hn
  | opened =>
    rcases node?_withFunction hn with hn | ⟨-, kind, -, rfl⟩
    · exact hn
    · exact absurd rfl hinstr

end Accords
end Graph

namespace View

open OperandFlow.Graph

variable {v : View} {host : Host} {g y : Graph} {tx : UInt64}

theorem keep_of_awaiting? {opcode : Opcode} {uid : NodeId} (hv : v.Fits g.outlines)
    (hturn : ((g.waits v.function).filter (·.2 = opcode)).getLast?.all (·.1 = tx) = true)
    (hwait : g.awaiting? v.function opcode = some uid) : v.keep uid = v.calls tx := by
  obtain ⟨-, n, hn, hfun, -⟩ := of_awaiting? hwait
  rw [Bool.eq_iff_iff, hv.keep_node hn, tx?_of_awaiting? hturn hwait hn]
  simp [hfun]

/-- The neighbours of an instruction that is seen are seen. -/
theorem node?_graph_of_instruction {i : NodeId} {n : Node} (hv : v.Fits g.outlines)
    (hg : g.Coherent) (hn : g.node? i = some n) (hi : v.keep i = true)
    (hinstr : n.instruction ≠ none) :
    (v.graph g).node? (v.number i) = some (n.renumber v.number v.name) := by
  have hkind : n.kind ≠ .exit := by
    intro hexit
    exact hinstr ((hg.causal.formed.bare_iff (outlines_of_node? hn)).mpr (Or.inr (by simpa)))
  rw [node?_graph hg.causal.formed hi, hn, Option.map_some, node_eq_renumber
    (fun a ha => hv.keep_pred hg.causal hn hi hkind ha)
    (fun b hb => hv.keep_successor hg hn hi hinstr hb)]

variable (h : g.Steady host) (hname : v.name = v.function)
  (hacc : Accords host.options v.function (v.graph g) y)
include h hname hacc

/-- An event of a call that is seen happens in the session of the call as well. -/
theorem accords_follow {action : Action} (hy : y.Steady host)
    (hv : v.Fits (g.follow host action).outlines) (hof : action.isOf v.function tx = true)
    (hturn : action.inTurn tx (g.waits v.function) = true) (htx : v.calls tx = true) :
    Accords host.options v.function (v.graph (g.follow host action)) (y.follow host action) := by
  have hv₀ := Fits.of_follow h hv
  cases action with
  | pre e state =>
    have he : e.function = v.function ∧ e.tx = tx := by simpa [Action.isOf] using hof
    rw [follow_pre] at hv ⊢
    rw [follow_pre]
    cases harrival : e.arrival? state with
    | none => exact hacc
    | some a =>
      rw [harrival] at hv
      have ha := Analysis.category_arrival? harrival
      obtain ⟨hfun, hcall⟩ := PreEvent.function_arrival? harrival
      have hfun : a.function = v.function := hfun.trans he.1
      have hsame : { a with function := v.name } = a := by rw [hname, ← hfun]
      have hadded := graph_added h ha hv hfun (by rw [hcall, he.2, htx])
      rw [hsame] at hadded
      rw [Option.elim_some, Option.elim_some, hadded]
      rw [← hfun] at hacc ⊢
      exact hacc.added hy ha
  | post e state =>
    have he : e.function = v.function := of_decide_eq_true hof
    rw [follow_post, follow_post, he]
    cases ho : e.opcode? with
    | none => exact hacc
    | some o =>
      rw [Action.inTurn, ho] at hturn
      rw [Option.elim_some, Option.elim_some,
        graph_completed hv₀ h fun i hi => (keep_of_awaiting? hv₀ hturn hi).trans htx, hname]
      exact hacc.completed hy o e.result state
  | _ => cases hof

/-- An event of another call does not show, but for the sentinels. -/
theorem accords_follow_of_unseen {action : Action}
    (hv : v.Fits (g.follow host action).outlines) (hof : action.isOf v.function tx = true)
    (hturn : action.inTurn tx (g.waits v.function) = true) (htx : v.calls tx = false) :
    Accords host.options v.function (v.graph (g.follow host action)) y := by
  have hv₀ := Fits.of_follow h hv
  cases action with
  | pre e state =>
    have he : e.function = v.function ∧ e.tx = tx := by simpa [Action.isOf] using hof
    rw [follow_pre] at hv ⊢
    cases harrival : e.arrival? state with
    | none => exact hacc
    | some a =>
      rw [harrival] at hv
      obtain ⟨hfun, hcall⟩ := PreEvent.function_arrival? harrival
      rw [Option.elim_some, graph_added_of_call h (Analysis.category_arrival? harrival) hv
        (hfun.trans he.1) (by rw [hcall, he.2, htx]), hname]
      exact hacc.withFunction
  | post e state =>
    have he : e.function = v.function := of_decide_eq_true hof
    rw [follow_post, he]
    cases ho : e.opcode? with
    | none => exact hacc
    | some o =>
      rw [Action.inTurn, ho] at hturn
      rw [Option.elim_some,
        graph_completed_of_unseen hv₀ h fun i hi => (keep_of_awaiting? hv₀ hturn hi).trans htx]
      exact hacc
  | _ => cases hof

theorem accords_followAll {events : List (UInt64 × Action)} (hy : y.Steady host)
    (hcalls : ∀ t, v.calls t = decide (t = tx))
    (hv : v.Fits (g.followAll host (events.map (·.2))).outlines)
    (hof : ∀ e ∈ events, e.2.isOf v.function e.1 = true)
    (hturn : Action.allInTurn (g.waits v.function) events = true) :
    Accords host.options v.function (v.graph (g.followAll host (events.map (·.2))))
      (y.followAll host (Action.stream tx events)) := by
  induction events generalizing g y with
  | nil => exact hacc
  | cons e events ih =>
    obtain ⟨t, action⟩ := e
    rw [Action.allInTurn, Bool.and_eq_true] at hturn
    have haction := hof _ List.mem_cons_self
    have hv₁ : v.Fits (g.follow host action).outlines := Fits.of_followAll (h.follow action) hv
    have hwaits := waits_follow h haction hturn.1
    have hrest : ∀ y' : Graph, y'.Steady host →
        Accords host.options v.function (v.graph (g.follow host action)) y' →
        Accords host.options v.function
          (v.graph (g.followAll host (((t, action) :: events).map (·.2))))
          (y'.followAll host (Action.stream tx events)) :=
      fun y' hy' hacc' => ih (h.follow action) hacc' hy' hv
        (fun e he => hof e (List.mem_cons_of_mem _ he)) (hwaits ▸ hturn.2)
    by_cases ht : t = tx
    · have hstream : Action.stream tx ((t, action) :: events) =
          action :: Action.stream tx events := by simp [Action.stream, ht]
      rw [hstream]
      exact hrest _ (hy.follow action)
        (accords_follow h hname hacc hy hv₁ haction hturn.1 (by simp [hcalls, ht]))
    · have hstream : Action.stream tx ((t, action) :: events) = Action.stream tx events := by
        simp [Action.stream, ht]
      rw [hstream]
      exact hrest y hy
        (accords_follow_of_unseen h hname hacc hv₁ haction hturn.1 (by simp [hcalls, ht]))

end View

namespace Analysis

/-- The nodes of a call are those of the session of what the call alone reports, under new ids in
the same order. -/
def Isolated (host : Host) (function : String) (events : List (UInt64 × Action)) (tx : UInt64) :
    Prop :=
  let g := ((start host).performAll (events.map (·.2))).graph
  let g' := ((start host).performAll (Action.stream tx events)).graph
  ∃ ρ, Graph.Renumbering (fun n => n.function = function && n.tx?.all (· = tx)) g g' ρ ∧
    ∀ i n, g.node? i = some n → n.function = function → n.tx? = some tx →
      g'.node? (ρ i) = some (n.renumber ρ function)

/-- A call that holds a result it does not get alone is not isolated. -/
theorem not_isolated_of_output {host : Host} {function : String} {events : List (UInt64 × Action)}
    {tx : UInt64} (i : NodeId) (result : Value)
    (hnode : (((start host).performAll (events.map (·.2))).graph.node? i).any (fun n =>
      n.function = function && n.tx? = some tx && n.output.map (·.value) = some result) = true)
    (halone : ((start host).performAll (Action.stream tx events)).graph.nodes.toList.all (fun m =>
      m.output.map (·.value) ≠ some result) = true) : ¬ Isolated host function events tx := by
  rintro ⟨ρ, -, hnodes⟩
  obtain ⟨n, hn, hp⟩ := (Option.any_eq_true ..).mp hnode
  simp only [Bool.and_eq_true, decide_eq_true_eq] at hp
  have hmem := Graph.mem_nodes_iff.mpr ⟨ρ i, hnodes i n hn hp.1.1 hp.1.2⟩
  have hne := of_decide_eq_true (List.all_eq_true.mp halone _ hmem)
  apply hne
  rw [← hp.2, Node.renumber, Option.map_map]
  rfl

theorem accords_performAll (host : Host) {function : String} {events : List (UInt64 × Action)}
    (hof : ∀ e ∈ events, e.2.isOf function e.1 = true)
    (hturn : Action.allInTurn [] events = true) (tx : UInt64) :
    let g := ((start host).performAll (events.map (·.2))).graph
    Graph.Accords host.options function
      ((View.of g function (fun t => t = tx) function).graph g)
      ((start host).performAll (Action.stream tx events)).graph := by
  intro g
  have hstream : ∀ action ∈ Action.stream tx events, action.isEvent = true :=
    Action.isEvent_of_forall_isOf fun e he => hof e (List.mem_of_mem_filter he)
  have hv := View.fits_of g function (fun t => t = tx) function
  have hg : g = Graph.empty.followAll host (events.map (·.2)) :=
    graph_performAll (start host) (Action.isEvent_of_forall_isOf hof)
  rw [graph_performAll (start host) hstream]
  rw [hg] at hv ⊢
  have hempty := Graph.steady_empty host
  exact View.accords_followAll hempty rfl .unopened hempty (fun _ => rfl) hv hof hturn

/-- Calls of a function do not disturb each other if every result comes while its call is the last
one to wait for such a result. -/
theorem transactions_isolated (host : Host) {function : String} {events : List (UInt64 × Action)}
    (hof : ∀ e ∈ events, e.2.isOf function e.1 = true)
    (hturn : Action.allInTurn [] events = true) (tx : UInt64) :
    Isolated host function events tx := by
  unfold Isolated
  intro g g'
  have hg : g.Coherent :=
    (steady_performAll host (Action.isEvent_of_forall_isOf hof)).coherent
  have hv := View.fits_of g function (fun t => t = tx) function
  have hacc := accords_performAll host hof hturn tx
  refine ⟨(View.of g function (fun t => t = tx) function).number, ?_, ?_⟩
  · have hren := View.renumbering_graph hv hg.causal.formed
    exact ⟨hren.increasing, fun j m hm => hren.onto j m (hacc.node?_of_alone hm)⟩
  · intro i n hn hfun htx
    have hinstr : n.instruction ≠ none := by
      intro hnone
      rw [Node.tx?, hnone] at htx
      cases htx
    have hi := (hv.keep_node hn).mpr ⟨hfun, by simp [htx, View.of]⟩
    exact hacc.node?_of_seen (View.node?_graph_of_instruction hv hg hn hi hinstr)
      (by simpa [Node.renumber] using hinstr)

/-- Two calls ask for their callers, the second within the first, and store them. -/
def nestedCalls : List (UInt64 × Action) :=
  [(0, .pre ⟨"f", 0, "CALLER", 0, [], none, none⟩ none),
    (1, .pre ⟨"f", 1, "CALLER", 0, [], none, none⟩ none),
    (1, .post ⟨"f", "CALLER", ⟨256, "b"⟩⟩ none),
    (0, .post ⟨"f", "CALLER", ⟨256, "a"⟩⟩ none),
    (1, .pre ⟨"f", 1, "SSTORE", 1, [⟨256, "0"⟩, ⟨256, "b"⟩], none, none⟩ none),
    (0, .pre ⟨"f", 0, "SSTORE", 1, [⟨256, "0"⟩, ⟨256, "a"⟩], none, none⟩ none)]

theorem transactions_isolated_nestedCalls :
    (∀ e ∈ nestedCalls, e.2.isOf "f" e.1 = true) ∧ Action.allInTurn [] nestedCalls = true ∧
      Action.paired (Action.stream 0 nestedCalls) = true ∧
      Action.paired (Action.stream 1 nestedCalls) = true ∧
      Isolated ⟨{}, .text, 0⟩ "f" nestedCalls 0 ∧ Isolated ⟨{}, .text, 0⟩ "f" nestedCalls 1 := by
  have hof : ∀ e ∈ nestedCalls, e.2.isOf "f" e.1 = true := by decide
  have hturn : Action.allInTurn [] nestedCalls = true := by decide +kernel
  exact ⟨hof, hturn, by decide, by decide, transactions_isolated _ hof hturn 0,
    transactions_isolated _ hof hturn 1⟩

/-- Two calls ask for their callers, and the first to ask gets its result first. -/
def crossedCalls : List (UInt64 × Action) :=
  [(0, .pre ⟨"f", 0, "CALLER", 0, [], none, none⟩ none),
    (1, .pre ⟨"f", 1, "CALLER", 0, [], none, none⟩ none),
    (0, .post ⟨"f", "CALLER", ⟨256, "a"⟩⟩ none),
    (1, .post ⟨"f", "CALLER", ⟨256, "b"⟩⟩ none)]

/-- A result does not tell its call, so that calls get each other's results out of turn, though
every result directly follows its instruction in its own call. -/
theorem not_isolated_crossedCalls :
    (∀ e ∈ crossedCalls, e.2.isOf "f" e.1 = true) ∧
      Action.paired (Action.stream 0 crossedCalls) = true ∧
      Action.paired (Action.stream 1 crossedCalls) = true ∧
      ¬ Isolated ⟨{}, .text, 0⟩ "f" crossedCalls 0 ∧
      ¬ Isolated ⟨{}, .text, 0⟩ "f" crossedCalls 1 := by
  refine ⟨by decide, by decide, by decide, ?_, ?_⟩
  · apply not_isolated_of_output 2 ⟨256, "b"⟩ <;> decide +kernel
  · apply not_isolated_of_output 3 ⟨256, "a"⟩ <;> decide +kernel

end Analysis
end OperandFlow
