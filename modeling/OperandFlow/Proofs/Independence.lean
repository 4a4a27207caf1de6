import OperandFlow.Proofs.Events

/-! Functions are traced independently of each other and of their names. -/
namespace OperandFlow

namespace Action

/-- The action bears on the function. -/
def concerns (function : String) : Action → Bool
  | pre e _ => e.function = function
  | post e _ => e.function = function
  | flush f => f.all (· = function)
  | _ => false

/-- The action with the function it names renamed. -/
def rename (name : String) : Action → Action
  | pre e state => pre { e with function := name } state
  | post e state => post { e with function := name } state
  | flush function => flush (function.map fun _ => name)
  | action => action

/-- What concerns a function, under another name of it. -/
def about (function name : String) (actions : List Action) : List Action :=
  (actions.filter (concerns function)).map (rename name)

theorem isEvent_rename (name : String) (action : Action) :
    (action.rename name).isEvent = action.isEvent := by
  cases action <;> rfl

theorem isEvent_about {function name : String} {actions : List Action}
    (h : ∀ action ∈ actions, action.isEvent = true) :
    ∀ action ∈ about function name actions, action.isEvent = true := by
  intro action hmem
  obtain ⟨original, horiginal, rfl⟩ := List.mem_map.mp hmem
  rw [isEvent_rename]
  exact h original (List.mem_of_mem_filter horiginal)

end Action

theorem PreEvent.arrival?_rename (e : PreEvent) (name : String) (state : Option String) :
    ({ e with function := name } : PreEvent).arrival? state =
      (e.arrival? state).map fun a => { a with function := name } := by
  unfold arrival?
  rw [Option.map_map]
  rfl

theorem Graph.Causal.nodes_of_feeds {g : Graph} {a b : NodeId} (hg : g.Causal) (h : g.Feeds a b) :
    ∃ m n, g.node? a = some m ∧ g.node? b = some n ∧ m.function = n.function := by
  obtain ⟨p, q, hp, hq, hfun⟩ : ∃ p q, g.outlines[a]? = some p ∧ g.outlines[b]? = some q ∧
      p.function = q.function := by
    rcases hg.sourced h with ⟨-, p, q, hp, hq, hfun, -⟩ | ⟨p, q, hp, hq, hfun, -⟩ <;>
      exact ⟨p, q, hp, hq, hfun⟩
  obtain ⟨m, hm, rfl⟩ := node?_of_outlines hp
  obtain ⟨n, hn, rfl⟩ := node?_of_outlines hq
  exact ⟨m, n, hm, hn, hfun⟩

theorem Graph.node?_of_mem {g : Graph} {n : Node} (hg : Formed g.outlines)
    (h : n ∈ g.nodes.toList) : g.node? n.uid = some n := by
  obtain ⟨i, hi⟩ := mem_nodes_iff.mp h
  rw [hg.uid_node hi]
  exact hi

namespace View

open OperandFlow.Graph

variable {v : View} {host : Host} {g : Graph}

theorem ids_eraseDups (l : List NodeId) : v.ids l.eraseDups = (v.ids l).eraseDups := by
  have hne : ∀ (l : List NodeId) i, l.filter (fun j => !j == i) = l.filter (· ≠ i) :=
    fun l i => List.filter_congr fun j _ => by rw [Bool.eq_iff_iff]; simp
  match l with
  | [] => rfl
  | i :: l =>
    have ih := ids_eraseDups (l.filter (· ≠ i))
    rw [List.eraseDups_cons, hne]
    cases hi : v.keep i with
    | true => rw [ids_cons hi, ids_cons hi, ih, ids_filter_ne hi, List.eraseDups_cons, hne]
    | false => rw [ids_cons_of_unseen hi, ids_cons_of_unseen hi, ih, ids_filter_ne_of_unseen hi]
termination_by l.length
decreasing_by exact Nat.lt_succ_of_le (List.length_filter_le _ l)

theorem predecessors_node (n : Node) : (v.node n).predecessors = v.ids n.predecessors := by
  unfold Node.predecessors
  rw [ids_eraseDups, ids, List.filter_flatMap, List.map_flatMap, slots_node, List.flatMap_map]
  rfl

theorem labelOf_node (n : Node) : labelOf (v.node n) = labelOf n := by
  unfold labelOf
  rw [opcode?_node]
  rfl

theorem idxOf?_map_number {l : List NodeId} {i : NodeId} (hl : ∀ j ∈ l, v.keep j = true)
    (hi : v.keep i = true) : (l.map v.number).idxOf? (v.number i) = l.idxOf? i := by
  induction l with
  | nil => rfl
  | cons j l ih =>
    have hbeq : (v.number j == v.number i) = (j == i) := by
      rw [Bool.eq_iff_iff, beq_iff_eq, beq_iff_eq, number_inj (hl j List.mem_cons_self) hi]
    rw [List.map_cons, List.idxOf?_cons, List.idxOf?_cons, hbeq,
      ih fun k hk => hl k (List.mem_cons_of_mem j hk)]

section Function

variable (hcalls : ∀ tx, v.calls tx = true)
include hcalls

theorem Fits.keep_iff {i : NodeId} {n : Node} (hv : v.Fits g.outlines) (hn : g.node? i = some n) :
    v.keep i = true ↔ n.function = v.function := by
  rw [hv.keep_node hn]
  cases n.tx? <;> simp [hcalls]

/-- An event that concerns the function happens in the view of the function. -/
theorem graph_follow {action : Action} (h : g.Steady host)
    (hv : v.Fits (g.follow host action).outlines) (hconcerns : action.concerns v.function = true) :
    v.graph (g.follow host action) = (v.graph g).follow host (action.rename v.name) := by
  have hv₀ := Fits.of_follow h hv
  cases action with
  | pre e state =>
    have hfun : e.function = v.function := of_decide_eq_true hconcerns
    rw [Action.rename, follow_pre, follow_pre, e.arrival?_rename v.name]
    rw [follow_pre] at hv
    cases harrival : e.arrival? state with
    | none => rfl
    | some a =>
      rw [harrival] at hv
      exact graph_added h (Analysis.category_arrival? harrival) hv
        ((PreEvent.function_arrival? harrival).1.trans hfun) (hcalls a.tx)
  | post e state =>
    have hfun : e.function = v.function := of_decide_eq_true hconcerns
    rw [Action.rename, follow_post, follow_post, hfun]
    change v.graph (e.opcode?.elim _ _) = e.opcode?.elim _ _
    cases e.opcode? with
    | none => rfl
    | some o =>
      apply graph_completed hv₀ h
      intro i hi
      obtain ⟨-, n, hn, hn_fun, -⟩ := of_awaiting? hi
      exact (hv₀.keep_iff hcalls hn).mpr hn_fun
  | flush function =>
    apply graph_flushWhere hv₀ h
    intro i n hn hi
    have hn_fun := (hv₀.keep_iff hcalls hn).mp hi
    cases function with
    | none => rfl
    | some f =>
      have hf : f = v.function := of_decide_eq_true hconcerns
      simp [hn_fun, hf]
  | _ => rfl

/-- Any other event does not show. -/
theorem graph_follow_of_unseen {action : Action} (h : g.Steady host)
    (hv : v.Fits (g.follow host action).outlines) (hconcerns : action.concerns v.function = false) :
    v.graph (g.follow host action) = v.graph g := by
  have hv₀ := Fits.of_follow h hv
  cases action with
  | pre e state =>
    have hfun : e.function ≠ v.function := of_decide_eq_false hconcerns
    rw [follow_pre] at hv ⊢
    cases harrival : e.arrival? state with
    | none => rfl
    | some a =>
      rw [harrival] at hv
      exact graph_added_of_function_ne h (Analysis.category_arrival? harrival) hv
        ((PreEvent.function_arrival? harrival).1 ▸ hfun)
  | post e state =>
    have hfun : e.function ≠ v.function := of_decide_eq_false hconcerns
    rw [follow_post]
    cases e.opcode? with
    | none => rfl
    | some o =>
      apply graph_completed_of_unseen hv₀ h
      intro i hi
      obtain ⟨-, n, hn, hn_fun, -⟩ := of_awaiting? hi
      by_contra hseen
      exact hfun (hn_fun ▸ (hv₀.keep_iff hcalls hn).mp (by simpa using hseen))
  | flush function =>
    apply graph_flushWhere_of_unseen hv₀ h
    intro i n hn hi
    have hn_fun := (hv₀.keep_iff hcalls hn).mp hi
    cases function with
    | none => cases hconcerns
    | some f =>
      have hf : f ≠ v.function := of_decide_eq_false hconcerns
      simpa [hn_fun] using hf.symm
  | _ => rfl

theorem graph_followAll {actions : List Action} (h : g.Steady host)
    (hv : v.Fits (g.followAll host actions).outlines) :
    v.graph (g.followAll host actions) =
      (v.graph g).followAll host (Action.about v.function v.name actions) := by
  induction actions generalizing g with
  | nil => rfl
  | cons action actions ih =>
    have hv₁ := Fits.of_followAll (h.follow action) hv
    have hrest := ih (h.follow action) hv
    unfold Action.about at hrest ⊢
    cases hconcerns : action.concerns v.function with
    | true =>
      rw [graph_follow hcalls h hv₁ hconcerns] at hrest
      rw [List.filter_cons_of_pos hconcerns]
      exact hrest
    | false =>
      rw [graph_follow_of_unseen hcalls h hv₁ hconcerns] at hrest
      rw [List.filter_cons_of_neg (by simp [hconcerns])]
      exact hrest

/-- Whatever is linked to a node of the function is in the function. -/
theorem keep_iff_of_feeds {a b : NodeId} (hv : v.Fits g.outlines) (hg : g.Causal)
    (h : g.Feeds a b) : v.keep a = true ↔ v.keep b = true := by
  obtain ⟨m, n, hm, hn, hfun⟩ := hg.nodes_of_feeds h
  rw [hv.keep_iff hcalls hm, hv.keep_iff hcalls hn, hfun]

theorem node?_graph_eq_renumber {i : NodeId} {n : Node} (hv : v.Fits g.outlines) (hg : g.Coherent)
    (hn : g.node? i = some n) (hfun : n.function = v.function) :
    (v.graph g).node? (v.number i) = some (n.renumber v.number v.name) := by
  have hi : v.keep i = true := (hv.keep_iff hcalls hn).mpr hfun
  have hpreds : ∀ a, n.FedBy a → v.keep a = true := fun a ha =>
    (keep_iff_of_feeds hcalls hv hg.causal ⟨n, hn, ha⟩).mpr hi
  have hsuccessors : ∀ b ∈ n.successors, v.keep b = true := fun b hb =>
    (keep_iff_of_feeds hcalls hv hg.causal (hg.agree.mp ((flows_iff hn).mpr hb))).mp hi
  rw [node?_graph hg.causal.formed hi, hn, Option.map_some, node_eq_renumber hpreds hsuccessors]

theorem shapeNodes_graph (hv : v.Fits g.outlines) (hg : Formed g.outlines) :
    (v.graph g).shapeNodes v.name = (g.shapeNodes v.function).map v.node := by
  unfold shapeNodes graph
  rw [List.toList_toArray, List.filter_map, List.filter_filter]
  congr 1
  apply List.filter_congr
  intro n hn
  have hkeep := hv.keep_iff hcalls (node?_of_mem hg hn)
  by_cases hfun : n.function = v.function <;> simp_all

/-- The shape counts positions among the nodes of the function, which the view keeps. -/
theorem shape_graph (hv : v.Fits g.outlines) (hg : g.Causal) :
    (v.graph g).shape v.name = g.shape v.function := by
  have hkeep : ∀ n ∈ g.shapeNodes v.function, v.keep n.uid = true := by
    intro n hn
    obtain ⟨hmem, hp⟩ := List.mem_filter.mp hn
    simp only [Bool.and_eq_true, decide_eq_true_eq] at hp
    exact (hv.keep_iff hcalls (node?_of_mem hg.formed hmem)).mpr hp.1.1
  have hpreds : ∀ n ∈ g.shapeNodes v.function, ∀ p ∈ n.predecessors, v.keep p = true := by
    intro n hn p hp
    have hfeeds : g.Feeds p n.uid :=
      ⟨n, node?_of_mem hg.formed (List.mem_of_mem_filter hn), (n.mem_predecessors p).mp hp⟩
    exact (keep_iff_of_feeds hcalls hv hg hfeeds).mpr (hkeep n hn)
  have hids : ∀ i ∈ (g.shapeNodes v.function).map (·.uid), v.keep i = true :=
    List.forall_mem_map.mpr hkeep
  have huids : ((g.shapeNodes v.function).map v.node).map (·.uid) =
      ((g.shapeNodes v.function).map (·.uid)).map v.number := by
    rw [List.map_map, List.map_map]
    rfl
  have hlabels : ((g.shapeNodes v.function).map v.node).zipIdx.map (fun x => (x.2, labelOf x.1)) =
      (g.shapeNodes v.function).zipIdx.map fun x => (x.2, labelOf x.1) := by
    rw [List.zipIdx_map, List.map_map]
    exact List.map_congr_left fun x _ => congrArg (x.2, ·) (labelOf_node x.1)
  unfold shape
  rw [shapeNodes_graph hcalls hv hg.formed]
  dsimp only
  rw [hlabels, huids, List.zipIdx_map, List.flatMap_map]
  congr 1
  apply List.flatMap_congr
  rintro ⟨n, k⟩ hmem
  have hn : n ∈ g.shapeNodes v.function := List.fst_mem_of_mem_zipIdx hmem
  simp only [Prod.map_apply, id_eq, predecessors_node, ids_eq_map (hpreds n hn),
    List.filterMap_map]
  congr 1
  apply List.filterMap_congr
  intro p hp
  exact idxOf?_map_number hids (hpreds n hn p hp)

end Function
end View

/-- Two functions store who called them, in turn. -/
def storeInTurn : List Action :=
  ((Action.about "f" "g" storeOfCaller).zip storeOfCaller).flatMap fun steps => [steps.1, steps.2]

namespace Analysis

variable (host : Host) {actions : List Action}

/-- The view of a function in a session is the session of what concerns the function. -/
theorem graph_of_performAll (h : ∀ action ∈ actions, action.isEvent = true)
    (function name : String) :
    let g := ((start host).performAll actions).graph
    (View.of g function (fun _ => true) name).graph g =
      ((start host).performAll (Action.about function name actions)).graph := by
  intro g
  have hv := View.fits_of g function (fun _ => true) name
  have hg : g = Graph.empty.followAll host actions := graph_performAll (start host) h
  rw [graph_performAll (start host) (Action.isEvent_about h)]
  rw [hg] at hv ⊢
  exact View.graph_followAll (fun _ => rfl) (Graph.steady_empty host) hv

theorem shape_about (h : ∀ action ∈ actions, action.isEvent = true) (function name : String) :
    ((start host).performAll (Action.about function name actions)).graph.shape name =
      ((start host).performAll actions).graph.shape function := by
  rw [← graph_of_performAll host h function name]
  exact View.shape_graph (fun _ => rfl) (View.fits_of _ _ _ _)
    (steady_performAll host h).coherent.causal

/-- A function is traced as if it were alone, whatever it is called. Its nodes are those of the
session of what concerns it, under new ids in the same order, and sessions that agree on what
concerns a function agree on its shape. -/
theorem function_independent (h : ∀ action ∈ actions, action.isEvent = true)
    (function name : String) :
    let g := ((start host).performAll actions).graph
    let g' := ((start host).performAll (Action.about function name actions)).graph
    (∃ ρ, Graph.Renumbering (fun n => n.function = function) g g' ρ ∧
      ∀ i n, g.node? i = some n → n.function = function →
        g'.node? (ρ i) = some (n.renumber ρ name)) ∧
    g'.shape name = g.shape function ∧
    (g'.fingerprint name).hash = (g.fingerprint function).hash ∧
    ∀ (actions₂ : List Action) (function₂ : String),
      (∀ action ∈ actions₂, action.isEvent = true) →
      Action.about function₂ name actions₂ = Action.about function name actions →
      let g₂ := ((start host).performAll actions₂).graph
      g₂.shape function₂ = g.shape function ∧
        (g₂.fingerprint function₂).hash = (g.fingerprint function).hash := by
  intro g g'
  have hshape : g'.shape name = g.shape function := shape_about host h function name
  have hcoherent : g.Coherent := (steady_performAll host h).coherent
  have hv := View.fits_of g function (fun _ => true) name
  have hview : (View.of g function (fun _ => true) name).graph g = g' :=
    graph_of_performAll host h function name
  refine ⟨⟨(View.of g function (fun _ => true) name).number, ?_, ?_⟩, hshape,
    congrArg Shape.hash hshape, ?_⟩
  · have hall : (fun n : Node => decide (n.function = function) && n.tx?.all fun _ => true) =
        fun n => decide (n.function = function) := by
      funext n
      cases n.tx? <;> simp
    rw [← hall, ← hview]
    exact View.renumbering_graph hv hcoherent.causal.formed
  · intro i n hn hfun
    rw [← hview]
    exact View.node?_graph_eq_renumber (fun _ => rfl) hv hcoherent hn hfun
  · intro actions₂ function₂ h₂ habout g₂
    have hshape₂ : g₂.shape function₂ = g.shape function := by
      rw [← shape_about host h₂ function₂ name, habout]
      exact hshape
    exact ⟨hshape₂, congrArg Shape.hash hshape₂⟩

theorem function_independent_storeInTurn :
    let g := ((start ⟨{}, .text, 0⟩).performAll storeInTurn).graph
    let g' := ((start ⟨{}, .text, 0⟩).performAll (Action.about "f" "h" storeInTurn)).graph
    (∀ action ∈ storeInTurn, action.isEvent = true) ∧
    (∃ ρ, Graph.Renumbering (fun n => n.function = "f") g g' ρ ∧
      ∃ n, g.node? 7 = some n ∧ n.function = "f" ∧ g'.node? (ρ 7) = some (n.renumber ρ "h")) ∧
    (g.shape "f").edges = [(0, 1)] ∧ g'.shape "h" = g.shape "f" ∧
    (g'.fingerprint "h").hash = (g.fingerprint "f").hash ∧
    ((start ⟨{}, .text, 0⟩).performAll storeOfCaller).graph.shape "f" = g.shape "f" := by
  intro g g'
  have hevents : ∀ action ∈ storeInTurn, action.isEvent = true := by decide
  obtain ⟨⟨ρ, hρ, hnodes⟩, hshape, hhash, hsame⟩ :=
    function_independent ⟨{}, .text, 0⟩ hevents "f" "h"
  have hnode : (g.node? 7).any fun n => n.function = "f" := by decide +kernel
  rw [Option.any_eq_true] at hnode
  obtain ⟨n, hn, hfun⟩ := hnode
  have hfun : n.function = "f" := of_decide_eq_true hfun
  refine ⟨hevents, ⟨ρ, hρ, n, hn, hfun, hnodes 7 n hn hfun⟩, by decide +kernel, hshape, hhash, ?_⟩
  exact (hsame storeOfCaller "f" (by decide) rfl).1

end Analysis
end OperandFlow
