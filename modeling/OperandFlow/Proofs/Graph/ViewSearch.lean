import OperandFlow.Proofs.Graph.Resolution
import OperandFlow.Proofs.Graph.ViewLinks

/-! The search for the edges of a node that is seen finds the same in the view: blocks, candidates
and values do not hang on what is not seen. -/
namespace OperandFlow.View

open OperandFlow.Graph

variable {v : View} {g : Graph} {uid : NodeId} {n : Node}

section Scope

/-- The node is seen and no exit, so that all its predecessors are seen as well. -/
def Shown (v : View) (g : Graph) (i : NodeId) : Prop :=
  v.keep i = true ∧ ∃ n, g.node? i = some n ∧ n.kind ≠ .exit

theorem Fits.shown_of_precedes (hv : v.Fits g.outlines) (hg : Formed g.outlines) {a b : NodeId}
    (h : Precedes g.outlines a b) (hb : v.keep b = true) : v.Shown g a := by
  refine ⟨hv.keep_of_precedes hg h hb, ?_⟩
  obtain ⟨-, p, -, hp, -, -, hexit, -⟩ := h
  obtain ⟨m, hm, rfl⟩ := node?_of_outlines hp
  exact ⟨m, hm, by simpa using hexit⟩

theorem Fits.shown_leader (hv : v.Fits g.outlines) (hg : Formed g.outlines) {i l : NodeId}
    (hn : g.node? i = some n) (hi : v.Shown g i) (hl : n.leader? = some l) : v.Shown g l := by
  obtain ⟨x, hx, rfl⟩ := Option.map_eq_some_iff.mp hl
  rcases hg.leader (outlines_of_node? hn) hx with hself | hprec
  · exact hself ▸ hi
  · exact hv.shown_of_precedes hg hprec hi.1

theorem mirrors (hv : v.Fits g.outlines) (hg : g.Causal) :
    Mirrors v.number (v.Shown g) g (v.graph g) where
  increasing hi _ hij := number_lt hi.1 hij
  node := by
    rintro i ⟨hi, m, hm, hkind⟩
    refine ⟨m, v.node m, hm, by rw [node?_graph hg.formed hi, hm, Option.map_some], ?_⟩
    refine ⟨v.isEntry_node m, v.opcode?_node m, v.leader?_node m, ?_⟩
    rw [predsAt_node]
    apply ids_eq_map
    intro p hp
    exact hv.keep_pred hg hm hi hkind (Node.fedBy_of_mem_predsAt hp)
  leader hi hm hl := hv.shown_leader hg.formed hm hi hl
  pred := by
    rintro i p m ⟨hi, m', hm', hkind⟩ hm hp
    rw [hm] at hm'
    cases hm'
    exact hv.shown_of_precedes hg.formed
      (hg.precedes_of_feeds hm hkind ⟨m, hm, Node.fedBy_of_mem_predsAt hp⟩) hi

theorem leadersTo_graph (hv : v.Fits g.outlines) (hg : g.Causal) (hn : g.node? uid = some n)
    (hinstr : n.instruction ≠ none) (huid : v.keep uid = true) :
    (v.graph g).leadersTo (v.number uid) = (g.leadersTo uid).map v.number ∧
      ∀ l ∈ g.leadersTo uid, v.Shown g l := by
  have hformed := hg.formed
  obtain ⟨x, hx⟩ := Option.ne_none_iff_exists'.mp hinstr
  have hl : n.leader? = some x.leader := by rw [Node.leader?, hx, Option.map_some]
  have hn' : (v.graph g).node? (v.number uid) = some (v.node n) := by
    rw [node?_graph hformed huid, hn, Option.map_some]
  obtain ⟨s, hs, -, -⟩ := boundaries?_of_instruction hformed hn hinstr
  have hself : v.Shown g uid := ⟨huid, n, hn, hformed.kind_ne_exit hn hinstr⟩
  have hentry : v.Shown g s.entry := by
    have heq : n.uid = uid := hformed.uid_node hn
    subst heq
    exact hv.shown_of_precedes hformed (mayLink_entry hformed hn hinstr hs).1 huid
  exact (mirrors hv hg).leadersTo hn hn' hl (by rw [leader?_node, hl, Option.map_some])
    (hv.shown_leader hformed hn hself hl) hentry (by rw [hs]; rfl)
    (by rw [boundaries?_graph hv hformed huid, hs]; rfl)

/-- Earlier nodes of a call that is seen are seen. -/
theorem traceBefore_graph (hv : v.Fits g.outlines) (hg : Formed g.outlines)
    (hn : g.node? n.uid = some n) (huid : v.keep n.uid = true) (limit : Nat) :
    (v.graph g).traceBefore limit (v.node n) = (g.traceBefore limit n).map v.node := by
  have hfilter : ((g.nodes.toList.take n.uid).filter fun m => v.keep m.uid).filter
      (fun m => (v.node n).sameTrace (v.node m)) = (g.nodes.toList.take n.uid).filter n.sameTrace := by
    rw [List.filter_filter]
    apply List.filter_congr
    intro m hm
    obtain ⟨i, hi⟩ := mem_nodes_iff.mp (List.mem_of_mem_take hm)
    have huid' : m.uid = i := hg.uid_node hi
    have hseen := hv.keep_node hn
    have hseen' := hv.keep_node hi
    rw [huid']
    unfold Node.sameTrace
    simp only [function_node, tx?_node, decide_true, Bool.true_and]
    grind
  unfold traceBefore
  rw [isNone_instruction_node]
  split_ifs
  · rfl
  · rw [uid_node, take_graph hg (Nat.le_of_lt (lt_size_of_node? hn)), ← List.map_reverse,
      List.filter_map, List.map_take, Function.comp_def, List.filter_reverse, List.filter_reverse,
      hfilter]

theorem liveBefore_graph (hv : v.Fits g.outlines) (hg : Formed g.outlines)
    (hn : g.node? n.uid = some n) (huid : v.keep n.uid = true) (limit : Nat) :
    (v.graph g).liveBefore limit (v.node n) = (g.liveBefore limit n).map v.node := by
  unfold liveBefore
  rw [traceBefore_graph hv hg hn huid, List.filter_map]
  rfl

theorem keep_of_mem_liveBefore (hv : v.Fits g.outlines) (hg : Formed g.outlines)
    (hn : g.node? n.uid = some n) (huid : v.keep n.uid = true) {limit : Nat} {m : Node}
    (hm : m ∈ g.liveBefore limit n) : v.keep m.uid = true :=
  hv.keep_of_precedes hg (precedes_of_mem_liveBefore hg hn hm) huid

theorem keep_of_mem_candidates (hv : v.Fits g.outlines) (hg : Formed g.outlines)
    (hn : g.node? n.uid = some n) (huid : v.keep n.uid = true) {limit : Nat} {m : Node}
    (hm : m ∈ g.candidates limit n) : v.keep m.uid = true :=
  keep_of_mem_liveBefore hv hg hn huid (List.mem_of_mem_filter hm)

/-- Producers are looked for among the same nodes. -/
theorem candidates_graph (hv : v.Fits g.outlines) (hg : g.Causal) (hn : g.node? n.uid = some n)
    (hinstr : n.instruction ≠ none) (huid : v.keep n.uid = true) (limit : Nat) :
    (v.graph g).candidates limit (v.node n) = (g.candidates limit n).map v.node := by
  obtain ⟨hleaders, hshown⟩ := leadersTo_graph hv hg hn hinstr huid
  unfold candidates
  rw [liveBefore_graph hv hg.formed hn huid, List.filter_map, uid_node, hleaders]
  congr 1
  apply List.filter_congr
  intro m hm
  have hm' := (mem_liveBefore hg.formed hm).1
  have hseen := keep_of_mem_liveBefore hv hg.formed hn huid hm
  simp only [Function.comp_apply, leader?_node]
  cases hl : m.leader? with
  | none => rfl
  | some l =>
    have hm_instr : m.instruction ≠ none := by
      intro hnone
      simp [Node.leader?, hnone] at hl
    have hself : v.Shown g m.uid := ⟨hseen, m, hm', hg.formed.kind_ne_exit hm' hm_instr⟩
    exact (mirrors hv hg).contains_map (hv.shown_leader hg.formed hm' hself hl) hshown

end Scope

section Values

variable {host : Host}

theorem sameValue_renumber (l r : Datum) :
    (sameValue host (l.renumber v.number) (r.renumber v.number)).value = (sameValue host l r).value := by
  rw [sameValue_value, sameValue_value]
  rfl

theorem produces_node (d : Datum) (m : Node) :
    (produces host (d.renumber v.number) (v.node m)).value = (produces host d m).value := by
  unfold produces
  rw [kind_node, is_node, output_node, slots_node]
  by_cases hmute : (!m.kind.carriesData || m.is .sstore) = true
  · rw [if_pos hmute, if_pos hmute]
  · rw [if_neg hmute, if_neg hmute]
    cases m.output with
    | some output => exact sameValue_renumber output d
    | none =>
      simp only [Option.map_none]
      by_cases hwait : m.awaiting = true
      · rw [if_pos hwait, if_pos (by exact hwait)]
      · rw [if_neg hwait, if_neg (by exact hwait), Logged.value_any, Logged.value_any,
          List.filter_map, List.any_map]
        congr 1

theorem writes_node (key : Datum) (m : Node) :
    (v.node m).writes host (key.renumber v.number) = m.writes host key := by
  unfold Node.writes
  rw [is_node, slots_node, List.head?_map]
  cases m.slots.head? with
  | none => rfl
  | some s => simp only [Option.map_some, Option.any_some, View.slot, sameValue_renumber]

theorem yieldsKey_node (key : List Char) (m : Node) :
    (yieldsKey key (v.node m)).value = (yieldsKey key m).value := by
  unfold yieldsKey
  rw [isOneOf_node, output_node]
  cases m.isOneOf preimageProducers <;> cases m.output <;> rfl

/-- The same node is found first. -/
theorem find?_map_node {p q : Node → Bool} {nodes : List Node}
    (hpq : ∀ m ∈ nodes, q (v.node m) = p m) :
    (nodes.map v.node).find? q = (nodes.find? p).map v.node := by
  have hfilter : nodes.filter (q ∘ v.node) = nodes.filter p := List.filter_congr hpq
  rw [List.find?_map, ← List.head?_filter, ← List.head?_filter, hfilter]

theorem resolve_slot {s : Slot} (hs : s.preds = []) (candidates : List Node) :
    (resolve host (candidates.map v.node) (v.slot s)).value =
      ((resolve host candidates s).value.1.map v.number, (resolve host candidates s).value.2) := by
  have hs' : (v.slot s).preds = [] := by rw [View.slot, hs, ids_nil]
  have hseeks : (v.slot s).seeksProducer = s.seeksProducer := rfl
  unfold resolve producer?
  simp only [hs, hs', hseeks, List.isEmpty_nil, Bool.not_true, Bool.false_eq_true, if_false]
  split_ifs
  · simp only [Logged.value_bind, Logged.value_find?, Logged.value_pure]
    rw [find?_map_node (p := fun m => (produces host s.datum m).value)
      (fun m _ => produces_node s.datum m)]
    simp only [Option.map_map, Option.isSome_map]
    rfl
  · rfl

end Values

section Linking

variable (hv : v.Fits g.outlines) (hg : Formed g.outlines) (hn : g.node? uid = some n)
  (huid : v.keep uid = true)
include hv hg hn huid

/-- The node is linked to whatever was found. -/
theorem graph_linkEach {α : Type} {found : α → Option NodeId} {slot : α → Nat} {l : List α}
    (hfound : ∀ a ∈ l, ∀ p, found a = some p → v.keep p = true) :
    v.graph (g.linkAll uid (l.flatMap fun a => (found a).toList.map (·, slot a))) =
      (v.graph g).linkAll (v.number uid)
        (l.flatMap fun a => ((found a).map v.number).toList.map (·, slot a)) := by
  rw [graph_linkAll hv hg hn huid]
  · unfold View.links
    rw [List.map_flatMap]
    congr 2
    funext a
    cases found a <;> rfl
  · intro k hk
    obtain ⟨a, ha, hk⟩ := List.mem_flatMap.mp hk
    obtain ⟨p, hp, rfl⟩ := List.mem_map.mp hk
    exact hfound a ha p (Option.mem_toList.mp hp)

theorem graph_linkFound {found : Option NodeId} (hfound : ∀ p, found = some p → v.keep p = true)
    (slot : Nat) :
    v.graph (g.linkFound uid found slot).value =
      ((v.graph g).linkFound (v.number uid) (found.map v.number) slot).value := by
  rw [linkFound_value, linkFound_value, graph_linkAll hv hg hn huid]
  · congr 1
    cases found <;> rfl
  · intro l hl
    obtain ⟨p, hp, rfl⟩ := List.mem_map.mp hl
    exact hfound p (Option.mem_toList.mp hp)

theorem graph_linkAll_linksTo {found : List (Option NodeId)}
    (hfound : ∀ p, some p ∈ found → v.keep p = true) :
    v.graph (g.linkAll uid (linksTo found)) =
      (v.graph g).linkAll (v.number uid) (linksTo (found.map (Option.map v.number))) := by
  unfold linksTo
  rw [List.zipIdx_map, List.flatMap_map, graph_linkEach hv hg hn huid]
  · rfl
  · intro f hf p hp
    exact hfound p (hp ▸ List.fst_mem_of_mem_zipIdx hf)

theorem graph_linkFromEntry :
    v.graph (g.linkFromEntry uid).value = ((v.graph g).linkFromEntry (v.number uid)).value := by
  unfold linkFromEntry
  rw [boundaries?_graph hv hg huid, graph_linkFound hv hg hn huid]
  · rw [Option.map_map, Option.map_map]
    rfl
  · intro p hp
    obtain ⟨s, hs, rfl⟩ := Option.map_eq_some_iff.mp hp
    exact (hv.keep_boundaries hg huid hs).1

theorem graph_linkFromLeader :
    v.graph (g.linkFound uid n.leader? 0).value =
      ((v.graph g).linkFound (v.number uid) (v.node n).leader? 0).value := by
  rw [leader?_node, graph_linkFound hv hg hn huid]
  intro p hp
  exact hv.keep_leader hg hn huid hp

omit hv in
theorem graph_collapse (keep : Nat) :
    v.graph (g.collapse uid keep).value = ((v.graph g).collapse (v.number uid) keep).value := by
  unfold collapse
  rw [node?_graph hg huid, hn, Option.map_some, Option.bind_some, Option.bind_some, slots_node,
    List.getElem?_map]
  cases n.slots[keep]? with
  | none => rfl
  | some s =>
    exact graph_update (fun m => { m with slots := [v.slot s] }) hg huid (by intro m _; rfl)
      (by intro m _; rfl)

end Linking

section Strategies

variable (host : Host) (hv : v.Fits g.outlines) (hg : g.Coherent) (hn : g.node? n.uid = some n)
  (hinstr : n.instruction ≠ none) (huid : v.keep n.uid = true)
  (hunlinked : ∀ s ∈ n.slots, s.preds = [])
include hv hg hn huid

theorem keep_of_resolve {candidates : List Node} {limit : Nat}
    (hcandidates : ∀ m ∈ candidates, m ∈ g.candidates limit n) {s : Slot} {p : NodeId}
    (hp : (resolve host candidates s).value.1 = some p) : v.keep p = true := by
  obtain ⟨m, hm, rfl⟩ := resolve_value hp
  exact keep_of_mem_candidates hv hg.causal.formed hn huid (hcandidates m hm)

include hinstr

theorem candidates_filter_key :
    ((v.graph g).candidates host.options.reach (v.node n)).filter
        (·.isOneOf storageKeyProducers) =
      ((g.candidates host.options.reach n).filter (·.isOneOf storageKeyProducers)).map v.node := by
  rw [candidates_graph hv hg.causal hn hinstr huid, List.filter_map]
  congr 1
  apply List.filter_congr
  intro m _
  exact v.isOneOf_node m storageKeyProducers

include hunlinked

theorem graph_linkSlots :
    v.graph (g.linkSlots host n).value.1 = ((v.graph g).linkSlots host (v.node n)).value.1 ∧
      ((v.graph g).linkSlots host (v.node n)).value.2 = (g.linkSlots host n).value.2 := by
  have hresolve : ∀ s ∈ n.slots,
      (resolve host ((g.candidates host.options.reach n).map v.node) (v.slot s)).value =
        ((resolve host (g.candidates host.options.reach n) s).value.1.map v.number,
          (resolve host (g.candidates host.options.reach n) s).value.2) :=
    fun s hs => resolve_slot (hunlinked s hs) _
  rw [linkSlots_value, linkSlots_value, candidates_graph hv hg.causal hn hinstr huid, slots_node,
    List.map_map, List.map_map]
  constructor
  · dsimp only
    rw [graph_linkAll_linksTo hv hg.causal.formed hn huid, uid_node, List.map_map]
    · congr 2
      apply List.map_congr_left
      intro s hs
      simp only [Function.comp_apply, hresolve s hs]
    · intro p hp
      obtain ⟨s, -, hs⟩ := List.mem_map.mp hp
      exact keep_of_resolve host hv hg hn huid (fun m hm => hm) hs
  · apply List.map_congr_left
    intro s hs
    simp only [Function.comp_apply, hresolve s hs]

theorem graph_linkStore (hslots : n.slots.length = 2) :
    v.graph (g.linkStore host n).value = ((v.graph g).linkStore host (v.node n)).value := by
  obtain ⟨key, value, hslots⟩ := List.length_eq_two.mp hslots
  have hslots' : (v.node n).slots = [v.slot key, v.slot value] := by rw [slots_node, hslots]; rfl
  have hcandidates := candidates_graph hv hg.causal hn hinstr huid host.options.reach
  rw [linkStore_value hslots, linkStore_value hslots',
    candidates_filter_key host hv hg hn hinstr huid, hcandidates,
    resolve_slot (hunlinked key (by simp [hslots])),
    resolve_slot (hunlinked value (by simp [hslots])), graph_linkAll_linksTo hv hg.causal.formed hn huid]
  · rfl
  · intro p hp
    simp only [List.mem_cons, List.not_mem_nil, or_false] at hp
    rcases hp with hp | hp
    · exact keep_of_resolve host hv hg hn huid (fun m hm => List.mem_of_mem_filter hm) hp.symm
    · exact keep_of_resolve host hv hg hn huid (fun m hm => hm) hp.symm

theorem graph_linkLoad (hslots : n.slots.length = 2) :
    v.graph (g.linkLoad host n).value = ((v.graph g).linkLoad host (v.node n)).value := by
  obtain ⟨key, value, hslots⟩ := List.length_eq_two.mp hslots
  have hslots' : (v.node n).slots = [v.slot key, v.slot value] := by rw [slots_node, hslots]; rfl
  have hcandidates := candidates_graph hv hg.causal hn hinstr huid host.options.reach
  have hnil : value.preds = [] := hunlinked value (by simp [hslots])
  have hnil' : (v.slot value).preds = [] := by rw [View.slot, hnil, ids_nil]
  rw [linkLoad_of_unlinked hslots hnil, linkLoad_of_unlinked hslots' hnil',
    candidates_filter_key host hv hg hn hinstr huid, hcandidates,
    resolve_slot (hunlinked key (by simp [hslots])), graph_linkAll_linksTo hv hg.causal.formed hn huid]
  · rw [find?_map_node (q := Node.writes host (v.slot key).datum)
      (fun m _ => writes_node key.datum m)]
    simp only [List.map_cons, List.map_nil, Option.map_map]
    rfl
  · intro p hp
    simp only [List.mem_cons, List.not_mem_nil, or_false] at hp
    rcases hp with hp | hp
    · exact keep_of_resolve host hv hg hn huid (fun m hm => List.mem_of_mem_filter hm) hp.symm
    · obtain ⟨m, hm, rfl⟩ := Option.map_eq_some_iff.mp hp.symm
      exact keep_of_mem_candidates hv hg.causal.formed hn huid (List.mem_of_find?_eq_some hm)

/-- Both searches fail, or both find the same. -/
theorem graph_linkPreimage :
    v.graph (g.linkPreimage host n).value.2 =
      ((v.graph g).linkPreimage host (v.node n)).value.2 := by
  have hcandidates := candidates_graph hv hg.causal hn hinstr huid host.options.reach
  have hkeep : ∀ p : Node → Bool, ∀ m,
      (g.candidates host.options.reach n).find? p = some m → v.keep m.uid = true :=
    fun p m hm => keep_of_mem_candidates hv hg.causal.formed hn huid (List.mem_of_find?_eq_some hm)
  have hyields : ∀ key, ((g.candidates host.options.reach n).map v.node).find?
      (fun m => (yieldsKey key m).value) =
        ((g.candidates host.options.reach n).find? fun m => (yieldsKey key m).value).map v.node :=
    fun key => find?_map_node fun m _ => yieldsKey_node key m
  unfold linkPreimage
  rw [slots_node]
  cases hslots : n.slots with
  | nil => rfl
  | cons slot rest =>
    have hnil : slot.preds = [] := hunlinked slot (by simp [hslots])
    have hnil' : (v.slot slot).preds = [] := by rw [View.slot, hnil, ids_nil]
    have htext : (consult (v.slot slot).datum).value = (consult slot.datum).value := rfl
    simp only [List.map_cons, hnil, hnil', List.isEmpty_nil, Bool.not_true, Bool.false_eq_true,
      if_false, Logged.value_bind, htext, hcandidates]
    split_ifs with hempty hown hparts
    · rfl
    · simp only [Logged.value_bind, Logged.value_pure]
      rw [graph_linkFound hv hg.causal.formed hn huid, find?_map_node (fun m _ => v.is_node m .and),
        Option.map_map, Option.map_map]
      · rfl
      · intro p hp
        obtain ⟨m, hm, rfl⟩ := Option.map_eq_some_iff.mp hp
        exact hkeep _ m hm
    · rfl
    · simp only [Logged.value_bind, Logged.value_pure, Logged.value_map, Logged.value_find?,
        Logged.value_fold, List.foldl_map, foldl_linkFound]
      rw [graph_linkEach hv hg.causal.formed hn huid]
      · simp only [hyields, Option.map_map]
        rfl
      · intro key _ p hp
        obtain ⟨m, hm, rfl⟩ := Option.map_eq_some_iff.mp hp
        exact hkeep _ m hm

theorem graph_settleMask (hsent : n.isSentinel = false) :
    v.graph (g.settleMask host n).value = ((v.graph g).settleMask host (v.node n)).value := by
  obtain ⟨hgraph, hresolved⟩ := graph_linkSlots host hv hg hn hinstr huid hunlinked
  have hlinks := links_linkSlots host hg.causal.formed hn
  obtain ⟨m, hm, -⟩ := node?_of_cores hlinks.cores hn
  unfold settleMask
  simp only [Logged.value_bind, hresolved]
  split_ifs
  · exact hgraph
  · generalize hidx : ((g.linkSlots host n).value.2.zipIdx.filter (·.1)).map (·.2) = idx
    cases idx with
    | nil =>
      have hsame := linkSlots_of_unresolved hidx
      change v.graph ((g.linkSlots host n).value.1.detach n.uid) = Graph.detach _ _
      rw [← hgraph, hsame, uid_node]
      exact graph_detach hv hg.causal.formed hn hsent huid hunlinked
    | cons only rest =>
      cases rest with
      | nil =>
        change v.graph ((g.linkSlots host n).value.1.collapse n.uid only).value =
          (collapse _ _ only).value
        rw [← hgraph]
        exact graph_collapse (hlinks.outlines ▸ hg.causal.formed) hm huid only
      | cons => exact hgraph

theorem graph_linkParameter :
    v.graph (g.linkParameter host n).value = ((v.graph g).linkParameter host (v.node n)).value := by
  obtain ⟨hgraph, hresolved⟩ := graph_linkSlots host hv hg hn hinstr huid hunlinked
  have hlinks := links_linkSlots host hg.causal.formed hn
  obtain ⟨m, hm, -⟩ := node?_of_cores hlinks.cores hn
  unfold linkParameter
  rw [slots_node]
  cases hslots : n.slots with
  | nil => rfl
  | cons offset rest =>
    have hnil : offset.preds = [] := hunlinked offset (by simp [hslots])
    have hnil' : (v.slot offset).preds = [] := by rw [View.slot, hnil, ids_nil]
    have hseeks : (v.slot offset).seeksProducer = offset.seeksProducer := rfl
    simp only [List.map_cons, hnil, hnil', hseeks, List.isEmpty_nil, Bool.not_true,
      Bool.false_eq_true, if_false]
    split_ifs
    · simp only [Logged.value_bind, hresolved]
      split_ifs
      · exact hgraph
      · rw [← hgraph]
        exact graph_linkFromEntry (hlinks.outlines ▸ hv) (hlinks.outlines ▸ hg.causal.formed) hm huid
    · exact graph_linkFromEntry hv hg.causal.formed hn huid

omit hn huid hinstr hunlinked in
/-- The successors of an instruction that is seen are seen, so that the same jumps are open. -/
theorem isOpenJump_graph {m : Node} (hm : g.node? m.uid = some m) (hinstr : m.instruction ≠ none)
    (hseen : v.keep m.uid = true) {exit : Option NodeId}
    (hexit : ∀ e, exit = some e → v.keep e = true) (target : Nat) :
    (v.graph g).isOpenJump (exit.map v.number) target (v.node m) =
      g.isOpenJump exit target m := by
  have hsucc : ∀ b ∈ m.successors, v.keep b = true :=
    fun b hb => hv.keep_successor hg hm hseen hinstr hb
  have hdest : (m.successors.map v.number).any
      (fun s => ((v.graph g).node? s).any (·.is .jumpdest)) =
        m.successors.any fun s => (g.node? s).any (·.is .jumpdest) := by
    rw [List.any_map, Bool.eq_iff_iff, List.any_eq_true, List.any_eq_true]
    apply exists_congr
    intro b
    apply and_congr_right
    intro hb
    rw [Function.comp_apply, node?_graph hg.causal.formed (hsucc b hb)]
    cases g.node? b <;> simp
  have honly : (exit.map v.number).any (fun e => m.successors.map v.number = [e]) =
      exit.any fun e => m.successors = [e] := by
    cases exit with
    | none => rfl
    | some e =>
      simp only [Option.map_some, Option.any_some, List.map_eq_singleton_iff, decide_eq_decide]
      constructor
      · rintro ⟨b, hb, heq⟩
        rw [hb, (number_inj (hsucc b (by simp [hb])) (hexit e rfl)).mp heq]
      · intro heq
        exact ⟨e, heq, rfl⟩
  unfold isOpenJump
  rw [destination?_node, is_node, is_node, successors_node, ids_eq_map hsucc, hdest, honly]

omit hunlinked in
/-- The newest jump that is open to a destination is the same in the view. -/
theorem find?_isOpenJump_graph (address : Nat) :
    ((g.liveBefore host.options.reach n).map v.node).find?
        ((v.graph g).isOpenJump (((g.boundaries? n.uid).map v.sentinels).map (·.exit)) address) =
      ((g.liveBefore host.options.reach n).find?
        (g.isOpenJump ((g.boundaries? n.uid).map (·.exit)) address)).map v.node := by
  have hformed := hg.causal.formed
  have hexits : ((g.boundaries? n.uid).map v.sentinels).map (·.exit) =
      ((g.boundaries? n.uid).map (·.exit)).map v.number := by
    rw [Option.map_map, Option.map_map]
    rfl
  rw [hexits]
  apply find?_map_node
  intro m hm
  obtain ⟨hnode, -, -, htx, -⟩ := mem_liveBefore hformed hm
  have hm_instr : m.instruction ≠ none := by
    intro hnone
    rw [show m.tx? = none by rw [Node.tx?, hnone, Option.map_none]] at htx
    exact hinstr (Option.map_eq_none_iff.mp htx)
  apply isOpenJump_graph hv hg hnode hm_instr (keep_of_mem_liveBefore hv hformed hn huid hm)
  intro e he
  obtain ⟨s, hs, rfl⟩ := Option.map_eq_some_iff.mp he
  exact (hv.keep_boundaries hformed huid hs).2

theorem graph_linkDestination (hsent : n.isSentinel = false) :
    v.graph (g.linkDestination host n).value =
      ((v.graph g).linkDestination host (v.node n)).value := by
  have hformed := hg.causal.formed
  have hpreds : n.predsAt 0 = [] := by
    rw [List.eq_nil_iff_forall_not_mem]
    intro p hp
    obtain ⟨s, hs, hp⟩ := Node.fedBy_of_mem_predsAt hp
    rw [hunlinked s hs] at hp
    cases hp
  unfold linkDestination
  simp only [predsAt_node, hpreds, ids_nil, List.isEmpty_nil, Bool.not_true, Bool.false_eq_true,
    if_false, liveBefore_graph hv hformed hn huid, uid_node, boundaries?_graph hv hformed huid,
    address_node, find?_isOpenJump_graph host hv hg hn hinstr huid]
  cases hfind : (g.liveBefore host.options.reach n).find?
      (g.isOpenJump ((g.boundaries? n.uid).map (·.exit)) n.address.toNat) with
  | some source =>
    exact graph_link hv hformed hn huid
      (keep_of_mem_liveBefore hv hformed hn huid (List.mem_of_find?_eq_some hfind))
  | none =>
    simp only [Option.map_none, List.any_map, Function.comp_def, is_node]
    split_ifs
    · exact graph_detach hv hformed hn hsent huid hunlinked
    · exact graph_linkFromEntry hv hformed hn huid

end Strategies

section Search

variable (host : Host)

theorem graph_linkNode {o : Opcode} (hv : v.Fits g.outlines) (hg : g.Coherent)
    (hn : g.node? n.uid = some n) (huid : v.keep n.uid = true) (hfresh : n.Fresh)
    (hsent : n.isSentinel = false) (ho : n.opcode? = some o) :
    v.graph (g.linkNode host n o).value.2 = ((v.graph g).linkNode host (v.node n) o).value.2 := by
  have hformed := hg.causal.formed
  have hinstr := hformed.instruction_ne_none hn hsent
  have hslots := graph_linkSlots host hv hg hn hinstr huid hfresh.unlinked
  unfold linkNode
  rw [kind_node]
  split
  · exact graph_linkStore host hv hg hn hinstr huid hfresh.unlinked
      (hfresh.storage _ ho rfl)
  · exact graph_linkLoad host hv hg hn hinstr huid hfresh.unlinked
      (hfresh.storage _ ho rfl)
  · exact graph_linkPreimage host hv hg hn hinstr huid hfresh.unlinked
  · exact graph_settleMask host hv hg hn hinstr huid hfresh.unlinked hsent
  · exact graph_settleMask host hv hg hn hinstr huid hfresh.unlinked hsent
  · exact graph_linkParameter host hv hg hn hinstr huid hfresh.unlinked
  · have hempty : (v.node n).slots.all (·.value.isEmpty) = n.slots.all (·.value.isEmpty) := by
      rw [slots_node, List.all_map]
      rfl
    rw [hempty]
    split_ifs
    · exact graph_linkFromEntry hv hformed hn huid
    · exact hslots.1
  · exact graph_linkDestination host hv hg hn hinstr huid hfresh.unlinked hsent
  · exact graph_linkFromLeader hv hformed hn huid
  -- Four kinds of nodes link all their slots, and four are not linked.
  iterate 4 exact hslots.1
  all_goals rfl

/-- The search for the edges of a node that is not linked yet is the same in the view. -/
theorem graph_runEdgeSearch (hv : v.Fits g.outlines) (hg : g.Coherent) (hn : g.node? uid = some n)
    (huid : v.keep uid = true) (hfresh : n.Fresh) :
    v.graph (g.runEdgeSearch host uid).value =
      ((v.graph g).runEdgeSearch host (v.number uid)).value := by
  have hformed := hg.causal.formed
  have heq : n.uid = uid := hformed.uid_node hn
  subst heq
  obtain ⟨a, ho, -⟩ := hfresh.kind
  have hsent : n.isSentinel = false := by
    by_contra hsent
    have hbare : n.instruction = none := (hformed.sentinel_iff hn).mp (by simpa using hsent)
    simp [Node.opcode?, hbare] at ho
  have hfound : ((v.graph g).findEdges host (v.number n.uid)).value =
      ((v.graph g).linkNode host (v.node n) a.opcode).value := by
    unfold findEdges
    simp only [node?_graph hformed huid, hn, Option.map_some, isDeleted_node, hfresh.isDeleted,
      isSentinel_node, hsent, opcode?_node, ho, Bool.or_false, Logged.value_bind]
  rw [runEdgeSearch_value, runEdgeSearch_value, hfound,
    findEdges_value hformed hn hfresh.isDeleted ho, graph_linkNode host hv hg hn huid hfresh hsent ho]

end Search
end OperandFlow.View
