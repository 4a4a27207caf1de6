import OperandFlow.Proofs.Graph.Steady
import OperandFlow.Proofs.Graph.ViewSearch

/-! Arrivals, results and flushes in a view: those that concern the calls that are seen happen in
the view as well, and the others do not show. -/
namespace OperandFlow

namespace View

open OperandFlow.Graph

variable {v : View} {g : Graph} {uid : NodeId} {host : Host}

section Flush

theorem graph_unpend (hg : Formed g.outlines) (huid : v.keep uid = true) :
    v.graph (g.unpend uid) = (v.graph g).unpend (v.number uid) := by
  have hupdate : v.graph (g.update uid fun n => { n with awaiting := false }) =
      (v.graph g).update (v.number uid) fun n => { n with awaiting := false } :=
    graph_update _ hg huid (by intro n _; rfl) (by intro n _; rfl)
  exact congrArg₂ Graph.mk (congrArg Graph.nodes hupdate) (ids_filter_ne huid)

theorem graph_unpend_of_unseen (hg : Formed g.outlines) (huid : v.keep uid = false) :
    v.graph (g.unpend uid) = v.graph g := by
  have hupdate : v.graph (g.update uid fun n => { n with awaiting := false }) = v.graph g := by
    apply graph_update_of_unseen hg (by intro n _; rfl)
    intro hseen
    cases huid.symm.trans hseen
  exact congrArg₂ Graph.mk (congrArg Graph.nodes hupdate) (ids_filter_ne_of_unseen huid)

/-- The end of a wait. -/
theorem graph_finish (hv : v.Fits g.outlines) (h : g.Steady host) (hpend : uid ∈ g.pending)
    (huid : v.keep uid = true) :
    v.graph (finish host g uid).value = (finish host (v.graph g) (v.number uid)).value := by
  have hformed := h.coherent.causal.formed
  obtain ⟨n, hn, -, -⟩ := h.coherent.paced.live hpend
  have hfresh := h.accounted.fresh h.coherent hpend hn
  have hn' : (g.unpend uid).node? uid = some { n with awaiting := false } := by
    rw [node?_unpend, if_pos rfl, hn]
    rfl
  rw [finish_value, finish_value, ← graph_unpend hformed huid]
  exact graph_runEdgeSearch host (outlines_unpend g uid ▸ hv) (h.coherent.unpend uid) hn' huid
    (hfresh.congr rfl rfl rfl hfresh.unlinked rfl)

theorem graph_finish_of_unseen (hv : v.Fits g.outlines) (h : g.Steady host)
    (hpend : uid ∈ g.pending) (huid : v.keep uid = false) :
    v.graph (finish host g uid).value = v.graph g := by
  have hg' := h.coherent.unpend uid
  rw [finish_value, graph_searched_of_unseen (outlines_unpend g uid ▸ hv) hg'
    (h.coherent.linkable_unpend hpend) huid (searched_runEdgeSearch host hg'.causal.formed uid),
    graph_unpend_of_unseen h.coherent.causal.formed huid]

theorem graph_finishAll {uids : List NodeId} (hv : v.Fits g.outlines) (h : g.Steady host)
    (hnodup : uids.Nodup) (hsub : ∀ uid ∈ uids, uid ∈ g.pending) :
    v.graph (uids.foldl (fun g uid => (finish host g uid).value) g) =
      (v.ids uids).foldl (fun g uid => (finish host g uid).value) (v.graph g) := by
  induction uids generalizing g with
  | nil => rfl
  | cons uid uids ih =>
    have hformed := h.coherent.causal.formed
    have hpend := hsub uid List.mem_cons_self
    rw [List.nodup_cons] at hnodup
    rw [List.foldl_cons, ih (outlines_finish host hformed uid ▸ hv) (h.finish hpend) hnodup.2]
    · cases huid : v.keep uid with
      | true => rw [ids_cons huid, List.foldl_cons, graph_finish hv h hpend huid]
      | false => rw [ids_cons_of_unseen huid, graph_finish_of_unseen hv h hpend huid]
    · intro i hi
      rw [pending_finish host hformed, List.mem_filter, decide_eq_true_eq]
      refine ⟨hsub i (List.mem_cons_of_mem uid hi), ?_⟩
      rintro rfl
      exact hnodup.1 hi

theorem pendingWhere_graph {p q : Node → Bool} (hg : Formed g.outlines)
    (hpq : ∀ i n, g.node? i = some n → v.keep i = true → q (v.node n) = p n) :
    (v.graph g).pendingWhere q = v.ids (g.pendingWhere p) := by
  change (v.ids g.pending).filter _ = _
  unfold pendingWhere ids
  rw [List.filter_map, List.filter_filter, List.filter_filter]
  congr 1
  apply List.filter_congr
  intro i _
  cases hi : v.keep i with
  | false => simp
  | true =>
    rw [Function.comp_apply, node?_graph hg hi]
    cases hn : g.node? i with
    | none => simp
    | some n => simp [hpq i n hn hi]

theorem graph_flushWhere {p q : Node → Bool} (hv : v.Fits g.outlines) (h : g.Steady host)
    (hpq : ∀ i n, g.node? i = some n → v.keep i = true → q (v.node n) = p n) :
    v.graph (g.flushWhere host p).value = ((v.graph g).flushWhere host q).value := by
  rw [flushWhere_value, flushWhere_value, pendingWhere_graph h.coherent.causal.formed hpq]
  exact graph_finishAll hv h (h.coherent.nodup_pendingWhere p)
    fun uid huid => List.mem_of_mem_filter huid

theorem graph_flushWhere_of_unseen {p : Node → Bool} (hv : v.Fits g.outlines) (h : g.Steady host)
    (hp : ∀ i n, g.node? i = some n → v.keep i = true → p n = false) :
    v.graph (g.flushWhere host p).value = v.graph g := by
  rw [graph_flushWhere (q := fun _ => false) hv h fun i n hn hi => (hp i n hn hi).symm,
    flushWhere_value]
  have hnil : (v.graph g).pendingWhere (fun _ => false) = [] := by
    unfold pendingWhere
    rw [List.filter_eq_nil_iff]
    intro i _
    cases (v.graph g).node? i <;> simp
  rw [hnil]
  rfl

end Flush

section Arrivals

theorem node_sentinel (o : Options) (function : String) (kind : Kind) :
    v.node (sentinel o uid function kind) = sentinel o (v.number uid) v.name kind := rfl

/-- The sentinels of the function are made in the view as well. -/
theorem graph_withFunction {o : Options} (hg : Formed g.outlines)
    (hv : v.Fits (g.withFunction o v.function).value.1.outlines) :
    v.graph (g.withFunction o v.function).value.1 =
        ((v.graph g).withFunction o v.name).value.1 ∧
      ((v.graph g).withFunction o v.name).value.2 =
        v.sentinels (g.withFunction o v.function).value.2 := by
  have hv₀ : v.Fits g.outlines := hv.restrict (Touches.withFunction o v.function).outlines
  have hs := (formed_withFunction (o := o) hg v.function).2
  obtain ⟨hentry, hexit⟩ := hv.keep_sentinels (formed_withFunction hg v.function).1 hs
  unfold withFunction at hentry hexit ⊢
  rw [sentinels?_graph hv₀ hg]
  cases hfind : g.sentinels? v.function with
  | some s => exact ⟨rfl, rfl⟩
  | none =>
    simp only [hfind, Logged.value_bind, Logged.value_pure, Option.map_none] at hentry hexit ⊢
    rw [graph_push hexit, graph_push hentry, node_sentinel, node_sentinel, size_graph hg,
      number_succ hentry]
    exact ⟨rfl, by rw [View.sentinels, number_succ hentry]⟩

/-- The sentinels of another function do not show. -/
theorem graph_withFunction_of_unseen {o : Options} {function : String}
    (hfun : function ≠ v.function)
    (hv : v.Fits (g.withFunction o function).value.1.outlines) :
    v.graph (g.withFunction o function).value.1 = v.graph g := by
  unfold withFunction at hv ⊢
  cases hfind : g.sentinels? function with
  | some s => rfl
  | none =>
    simp only [hfind, Logged.value_bind, Logged.value_pure] at hv ⊢
    have hunseen : ∀ i n, ((g.push (sentinel o g.size function .entry)).push
        (sentinel o (g.size + 1) function .exit)).node? i = some n → n.function = function →
          v.keep i = false := by
      intro i n hn hf
      by_contra hi
      exact hfun (hf ▸ ((hv.keep_node hn).mp (by simpa using hi)).1)
    rw [graph_push_of_unseen, graph_push_of_unseen]
    · exact hunseen g.size (sentinel o g.size function .entry) (by simp [node?_push]) rfl
    · exact hunseen (g.size + 1) (sentinel o (g.size + 1) function .exit) (by simp [node?_push]) rfl

theorem leaderFor_graph {entry : NodeId} {tx address : UInt64} (hv : v.Fits g.outlines)
    (hg : Formed g.outlines) (htx : v.calls tx = true) :
    (v.graph g).leaderFor (v.number entry) v.name tx address =
      v.number (g.leaderFor entry v.function tx address) := by
  have hlead : (v.graph g).nodes.toList.reverse.find? (canLead v.name tx address) =
      (g.nodes.toList.reverse.find? (canLead v.function tx address)).map v.node := by
    unfold graph
    rw [← List.map_reverse, ← List.filter_reverse, List.find?_map, List.find?_filter]
    congr 1
    rw [← List.head?_filter, ← List.head?_filter]
    congr 1
    apply List.filter_congr
    intro m hm
    obtain ⟨i, hi⟩ := mem_nodes_iff.mp (List.mem_reverse.mp hm)
    have huid : m.uid = i := hg.uid_node hi
    have hkeep := hv.keep_node hi
    rw [huid]
    unfold canLead
    simp only [Function.comp_apply, function_node, tx?_node, isDeleted_node, is_node, address_node,
      decide_true, Bool.true_and]
    by_cases hcall : m.tx? = some tx
    · simp only [hcall, Option.all_some, htx, and_true] at hkeep
      by_cases hfun : m.function = v.function
      · simp [hcall, hfun, hkeep.mpr hfun]
      · have hunseen : v.keep i = false := by simpa using fun h => hfun (hkeep.mp h)
        simp [hfun, hunseen]
    · simp [hcall]
  unfold leaderFor
  rw [hlead]
  cases g.nodes.toList.reverse.find? (canLead v.function tx address) <;> rfl

theorem slots_options (o : Options) (values : List Value) :
    (o.slots uid values).map v.slot = o.slots (v.number uid) values := by
  unfold Options.slots
  rw [List.map_map]
  rfl

theorem node_nodeOf {o : Options} {s : Sentinels} {a : Arrival} {category : Category}
    (hv : v.Fits g.outlines) (hg : Formed g.outlines) (hexit : v.keep s.exit = true)
    (hfun : a.function = v.function) (htx : v.calls a.tx = true) :
    v.node (g.nodeOf o s a category) =
      (v.graph g).nodeOf o (v.sentinels s) { a with function := v.name } category := by
  have hdeferred : a.isDeferred category g.size =
      Arrival.isDeferred { a with function := v.name } category (v.number g.size) := by
    unfold Arrival.isDeferred
    rw [a.isNone_missing? g.size (v.number g.size)]
    rfl
  unfold nodeOf node
  simp only [Node.mk.injEq, size_graph hg, slots_options, Option.map_some, Option.map_none,
    ids_cons hexit, ids_nil, hdeferred, hfun]
  refine ⟨trivial, trivial, ?_, rfl, rfl, rfl, trivial, trivial, trivial⟩
  simp only [View.sentinels, leaderFor_graph hv hg htx]
  split_ifs <;> rfl

theorem graph_arrive {n : Node} {exit : NodeId} (hg : Formed (g.push n).outlines)
    (hn : v.keep n.uid = true) (hexit : v.keep exit = true) :
    v.graph (g.arrive n exit) = (v.graph g).arrive (v.node n) (v.number exit) := by
  have hattach : v.graph (g.attach n exit) = (v.graph g).attach (v.node n) (v.number exit) := by
    unfold attach
    rw [graph_update (·.addPred 0 (v.number n.uid)) hg hexit (by intro m _; rfl)
      (fun m _ => node_addPred hn), graph_push hn]
    rfl
  have hpending : v.ids (g.pending ++ if n.awaiting then [n.uid] else []) =
      v.ids g.pending ++ if n.awaiting then [v.number n.uid] else [] := by
    rw [ids_append]
    split_ifs
    · rw [ids_cons hn, ids_nil]
    · rw [ids_nil]
  exact congrArg₂ Graph.mk (congrArg Graph.nodes hattach) hpending

theorem graph_arrive_of_unseen {n : Node} {exit : NodeId} (hg : Formed (g.push n).outlines)
    (hn : v.keep n.uid = false) : v.graph (g.arrive n exit) = v.graph g := by
  have hattach : v.graph (g.attach n exit) = v.graph g := by
    unfold attach
    rw [graph_update_of_unseen hg (by intro m _; rfl) (fun _ m _ => node_addPred_of_unseen hn),
      graph_push_of_unseen hn]
  have hpending : v.ids (g.pending ++ if n.awaiting then [n.uid] else []) = v.ids g.pending := by
    rw [ids_append]
    split_ifs
    · rw [ids_cons_of_unseen hn, ids_nil, List.append_nil]
    · rw [ids_nil, List.append_nil]
  exact congrArg₂ Graph.mk (congrArg Graph.nodes hattach) hpending

end Arrivals

section Added

variable {a : Arrival} (h : g.Steady host) (ha : a.category = .unknown)
include h ha

variable (hv : v.Fits (g.added host a).outlines)
include hv

theorem fits_joined : v.Fits (g.joined host a).outlines := outlines_added h ha ▸ hv

theorem fits_readyFor : v.Fits (g.readyFor host a).1.outlines := by
  apply (fits_joined h ha hv).restrict
  intro i hi
  rw [joined, outlines_arrive, Array.getElem?_push, if_neg (Nat.ne_of_lt hi)]

theorem fits_flushed : v.Fits g.outlines := by
  have hflushed := (fits_readyFor h ha hv).restrict
    (Touches.withFunction host.options a.function).outlines
  rwa [outlines_flushWhere host _ h.coherent.causal.formed] at hflushed

/-- The new node is seen if it belongs to a call that is seen. -/
theorem keep_newcomer : v.keep (g.readyFor host a).1.size = true ↔
    a.function = v.function ∧ v.calls a.tx = true := by
  rw [(fits_joined h ha hv).keep_node (joined_cases h ha).2.2.1]
  rfl

/-- An arrival in a call that is not seen shows by its sentinels at most. -/
theorem graph_added_of_unseen (hunseen : ¬(a.function = v.function ∧ v.calls a.tx = true)) :
    v.graph (g.added host a) = v.graph (g.readyFor host a).1 := by
  obtain ⟨hjoined, hlink, -, -⟩ := joined_cases h ha
  have hkeep : v.keep (g.readyFor host a).1.size = false := by
    simpa using fun hkeep => hunseen ((keep_newcomer h ha hv).mp hkeep)
  have harrive : v.graph (g.joined host a) = v.graph (g.readyFor host a).1 := by
    apply graph_arrive_of_unseen _ hkeep
    rw [outlines_push, ← outlines_arrive]
    exact hjoined.causal.formed
  rw [added_eq]
  split_ifs with honce
  · have hwait : (g.newcomer host a).awaiting = false := by
      simp only [linksAtOnce, Bool.and_eq_true, Bool.not_eq_true'] at honce
      exact honce.2
    rw [graph_searched_of_unseen (fits_joined h ha hv) hjoined (hlink hwait) hkeep
      (searched_runEdgeSearch host hjoined.causal.formed _), harrive]
  · exact harrive

/-- An arrival in another function does not show. -/
theorem graph_added_of_function_ne (hfun : a.function ≠ v.function) :
    v.graph (g.added host a) = v.graph g := by
  rw [graph_added_of_unseen h ha hv fun hcall => hfun hcall.1]
  unfold readyFor
  rw [graph_withFunction_of_unseen hfun (fits_readyFor h ha hv),
    graph_flushWhere_of_unseen (fits_flushed h ha hv) h]
  intro i n hn hi
  have hn_fun := ((fits_flushed h ha hv).keep_node hn).mp hi
  simp [hn_fun.1, hfun.symm]

/-- An arrival in another call of the function makes its sentinels at most. -/
theorem graph_added_of_call (hfun : a.function = v.function) (htx : v.calls a.tx = false) :
    v.graph (g.added host a) = ((v.graph g).withFunction host.options v.name).value.1 := by
  have hv₀ := fits_flushed h ha hv
  have hready := fits_readyFor h ha hv
  rw [graph_added_of_unseen h ha hv fun hcall => by rw [htx] at hcall; cases hcall.2]
  unfold readyFor at hready ⊢
  rw [hfun] at hready ⊢
  rw [(graph_withFunction (h.coherent.flushWhere host _).causal.formed hready).1,
    graph_flushWhere_of_unseen hv₀ h]
  intro i n hn hi
  have hcall := ((hv₀.keep_node hn).mp hi).2
  have hne : n.tx? ≠ some a.tx := by
    intro heq
    rw [heq, Option.all_some, htx] at hcall
    cases hcall
  simp [hne]

/-- The view is ready for an instruction of its function as the graph is. -/
theorem readyFor_graph (hfun : a.function = v.function) :
    (v.graph g).readyFor host { a with function := v.name } =
      (v.graph (g.readyFor host a).1, v.sentinels (g.readyFor host a).2) := by
  have hv₀ := fits_flushed h ha hv
  have hready := fits_readyFor h ha hv
  have hflush : v.graph (g.flushWhere host fun n =>
      n.function = v.function && n.tx? = some a.tx).value =
        ((v.graph g).flushWhere host fun n => n.function = v.name && n.tx? = some a.tx).value := by
    apply graph_flushWhere hv₀ h
    intro i n hn hi
    simp [((hv₀.keep_node hn).mp hi).1]
  unfold readyFor at hready ⊢
  rw [hfun] at hready ⊢
  obtain ⟨hgraph, hsentinels⟩ :=
    graph_withFunction (h.coherent.flushWhere host _).causal.formed hready
  dsimp only
  rw [← hflush, hgraph, ← hsentinels]

theorem newcomer_graph (hfun : a.function = v.function) (htx : v.calls a.tx = true) :
    (v.graph g).newcomer host { a with function := v.name } = v.node (g.newcomer host a) := by
  have hformed := (h.coherent.readyFor host a).causal.formed
  have hready := fits_readyFor h ha hv
  have hs := h.coherent.causal.sentinels?_readyFor host a
  obtain ⟨-, hexit⟩ := hready.keep_sentinels hformed (hfun ▸ hs)
  unfold newcomer
  rw [readyFor_graph h ha hv hfun, node_nodeOf hready hformed hexit hfun htx]

theorem joined_graph (hfun : a.function = v.function) (htx : v.calls a.tx = true) :
    (v.graph g).joined host { a with function := v.name } = v.graph (g.joined host a) := by
  have hs := h.coherent.causal.sentinels?_readyFor host a
  obtain ⟨-, hexit⟩ := (fits_readyFor h ha hv).keep_sentinels
    (h.coherent.readyFor host a).causal.formed (hfun ▸ hs)
  unfold joined
  rw [newcomer_graph h ha hv hfun htx, readyFor_graph h ha hv hfun,
    graph_arrive _ ((keep_newcomer h ha hv).mpr ⟨hfun, htx⟩) hexit]
  · rfl
  · rw [outlines_push, ← outlines_arrive]
    exact (joined_cases h ha).1.causal.formed

/-- An arrival in a call that is seen is an arrival in the view. -/
theorem graph_added (hfun : a.function = v.function) (htx : v.calls a.tx = true) :
    v.graph (g.added host a) = (v.graph g).added host { a with function := v.name } := by
  obtain ⟨hjoined, -, hnode, hfresh⟩ := joined_cases h ha
  have hkeep := (keep_newcomer h ha hv).mpr ⟨hfun, htx⟩
  have honce : linksAtOnce { a with function := v.name } (v.node (g.newcomer host a)) =
      linksAtOnce a (g.newcomer host a) := by
    unfold linksAtOnce
    rw [a.isNone_missing? (g.newcomer host a).uid (v.node (g.newcomer host a)).uid]
    rfl
  rw [added_eq, added_eq, newcomer_graph h ha hv hfun htx, joined_graph h ha hv hfun htx, honce,
    readyFor_graph h ha hv hfun, size_graph (h.coherent.readyFor host a).causal.formed]
  split_ifs
  · exact graph_runEdgeSearch host (fits_joined h ha hv) hjoined hnode hkeep hfresh
  · rfl

end Added

section Completed

variable {function : String} {opcode : Opcode} {result : Value} {state : Option String}

theorem node_supply (o : Options) (n : Node) :
    v.node (supply o opcode result state n) = supply o opcode result state (v.node n) := by
  have hslots : (supply o opcode result state n).slots.map v.slot =
      (supply o opcode result state (v.node n)).slots := by
    unfold supply
    dsimp only [node]
    split_ifs
    · apply List.ext_getElem?
      intro i
      rw [List.getElem?_map, List.getElem?_modify, List.getElem?_modify, List.getElem?_map]
      cases n.slots[i]? with
      | none => rfl
      | some t =>
        by_cases hi : 1 = i
        · have hvalue : (v.slot t).value = t.value := rfl
          simp only [hi, if_true, Option.map_some, Option.map_eq_map, hvalue]
          split_ifs <;> rfl
        · simp [hi]
    · rfl
  unfold node at hslots ⊢
  rw [hslots]
  rfl

theorem getLast?_ids {l : List NodeId} (h : ∀ i, l.getLast? = some i → v.keep i = true) :
    (v.ids l).getLast? = l.getLast?.map v.number := by
  induction l using List.reverseRecOn with
  | nil => rfl
  | append_singleton l i _ =>
    rw [ids_append, ids_cons (h i (by simp)), ids_nil, List.getLast?_append, List.getLast?_append]
    rfl

theorem awaiting?_graph (hv : v.Fits g.outlines) (hg : Formed g.outlines)
    (hseen : ∀ i, g.awaiting? v.function opcode = some i → v.keep i = true) :
    (v.graph g).awaiting? v.name opcode = (g.awaiting? v.function opcode).map v.number := by
  unfold awaiting? at hseen ⊢
  rw [pendingWhere_graph (p := fun n => n.function = v.function && n.is opcode) hg,
    getLast?_ids hseen]
  intro i n hn hi
  simp [((hv.keep_node hn).mp hi).1]

/-- A result for a node that is seen is a result in the view, as is one that nothing waits for. -/
theorem graph_completed (hv : v.Fits g.outlines) (h : g.Steady host)
    (hseen : ∀ i, g.awaiting? v.function opcode = some i → v.keep i = true) :
    v.graph (g.completed host v.function opcode result state) =
      (v.graph g).completed host v.name opcode result state := by
  have hformed := h.coherent.causal.formed
  unfold completed
  rw [awaiting?_graph hv hformed hseen]
  cases hwait : g.awaiting? v.function opcode with
  | none => rfl
  | some uid =>
    have huid := hseen uid hwait
    have hpend : uid ∈ g.pending := List.mem_of_mem_filter (List.mem_of_getLast? hwait)
    obtain ⟨n, hn, -, -⟩ := h.coherent.paced.live hpend
    have hfresh := h.accounted.fresh h.coherent hpend hn
    have hn' : (g.unpend uid).node? uid = some { n with awaiting := false } := by
      rw [node?_unpend, if_pos rfl, hn]
      rfl
    have hout : ((g.unpend uid).update uid (supply host.options opcode result state)).outlines =
        g.outlines := by
      rw [outlines_update (by intro m _; rfl), outlines_unpend]
    dsimp only [Option.map_some]
    rw [graph_runEdgeSearch host (hout ▸ hv)
      (h.coherent.supplied hpend host.options opcode result state).1 (node?_update_self hn' _) huid
      ((hfresh.congr (m := { n with awaiting := false }) rfl rfl rfl hfresh.unlinked rfl).supply
        host.options opcode result state),
      graph_update (supply host.options opcode result state) (outlines_unpend g uid ▸ hformed) huid
        (by intro m _; rfl) (fun m _ => node_supply host.options m),
      graph_unpend hformed huid]

/-- A result for a node that is not seen does not show. -/
theorem graph_completed_of_unseen (hv : v.Fits g.outlines) (h : g.Steady host)
    (hunseen : ∀ i, g.awaiting? function opcode = some i → v.keep i = false) :
    v.graph (g.completed host function opcode result state) = v.graph g := by
  have hformed := h.coherent.causal.formed
  unfold completed
  cases hwait : g.awaiting? function opcode with
  | none => rfl
  | some uid =>
    have huid := hunseen uid hwait
    have hpend : uid ∈ g.pending := List.mem_of_mem_filter (List.mem_of_getLast? hwait)
    have hout : ((g.unpend uid).update uid (supply host.options opcode result state)).outlines =
        g.outlines := by
      rw [outlines_update (by intro m _; rfl), outlines_unpend]
    obtain ⟨hg', hlink⟩ := h.coherent.supplied hpend host.options opcode result state
    dsimp only
    rw [graph_searched_of_unseen (hout ▸ hv) hg' hlink huid
      (searched_runEdgeSearch host hg'.causal.formed uid),
      graph_update_of_unseen (outlines_unpend g uid ▸ hformed) (by intro m _; rfl),
      graph_unpend_of_unseen hformed huid]
    intro hseen
    cases huid.symm.trans hseen

end Completed
end View
end OperandFlow
