import OperandFlow.Proofs.Graph.View

/-! Links and removals in a view. What is done to a node that is seen is done in the view, and what
is done to any other node changes nothing there. -/
namespace OperandFlow

namespace Node

theorem eraseSuccessor_of_not_mem {n : Node} {succ : NodeId} (h : succ ∉ n.successors) :
    n.eraseSuccessor succ = n := by
  have hfilter : n.successors.filter (· ≠ succ) = n.successors := by
    rw [List.filter_eq_self]
    intro b hb
    exact decide_eq_true fun heq => h (heq ▸ hb)
  unfold eraseSuccessor
  rw [hfilter]

theorem erasePred_of_not_fedBy {n : Node} {pred : NodeId} (h : ¬ n.FedBy pred) :
    n.erasePred pred = n := by
  have hslots : n.slots.map (·.erase pred) = n.slots := by
    conv_rhs => rw [← List.map_id n.slots]
    apply List.map_congr_left
    intro s hs
    have hfilter : s.preds.filter (· ≠ pred) = s.preds := by
      rw [List.filter_eq_self]
      intro a ha
      exact decide_eq_true fun heq => h ⟨s, hs, heq ▸ ha⟩
    unfold Slot.erase
    rw [hfilter]
    rfl
  unfold erasePred
  rw [hslots]

theorem predecessors_of_unlinked {n : Node} (h : ∀ s ∈ n.slots, s.preds = []) :
    n.predecessors = [] := by
  rw [List.eq_nil_iff_forall_not_mem]
  intro a ha
  obtain ⟨s, hs, ha⟩ := (n.mem_predecessors a).mp ha
  rw [h s hs] at ha
  cases ha

end Node

namespace View

open OperandFlow.Graph

variable {v : View} {g g' : Graph} {uid pred : NodeId} {slot : Nat} {n : Node}

def links (v : View) (links : List (NodeId × Nat)) : List (NodeId × Nat) :=
  links.map fun l => (v.number l.1, l.2)

section Seen

theorem graph_connect (hv : v.Fits g.outlines) (hg : Formed g.outlines)
    (hn : g.node? uid = some n) (huid : v.keep uid = true) (hpred : v.keep pred = true) :
    v.graph (g.connect pred uid slot) =
      (v.graph g).connect (v.number pred) (v.number uid) slot := by
  obtain ⟨e, -, hs, -, -⟩ := hg.boundaries hn
  have hs : g.boundaries? uid = some ⟨e, e + 1⟩ := by rw [boundaries?_of_node? hn, hs]
  obtain ⟨-, hexit⟩ := hv.keep_boundaries hg huid hs
  have hout₁ : (g.update uid (·.addPred slot pred)).outlines = g.outlines :=
    outlines_update (by intro m _; rfl)
  have hout₂ : ((g.update uid (·.addPred slot pred)).update pred
      fun m => (m.eraseSuccessor (e + 1)).addSuccessor uid).outlines = g.outlines :=
    (outlines_update fun m _ => (m.eraseSuccessor _).outline_addSuccessor uid).trans hout₁
  unfold connect
  rw [boundaries?_graph hv hg huid, hs]
  simp only [Option.map_some, View.sentinels]
  rw [graph_update (·.erasePred (v.number pred)) (hout₂ ▸ hg) hexit (by intro m _; rfl)
      (fun m _ => node_erasePred hpred),
    graph_update (fun m => (m.eraseSuccessor (v.number (e + 1))).addSuccessor (v.number uid))
      (hout₁ ▸ hg) hpred (fun m _ => (m.eraseSuccessor _).outline_addSuccessor uid)
      (fun m _ => by rw [node_addSuccessor huid, node_eraseSuccessor hexit]),
    graph_update (·.addPred slot (v.number pred)) hg huid (by intro m _; rfl)
      (fun m _ => node_addPred hpred)]

theorem graph_link (hv : v.Fits g.outlines) (hg : Formed g.outlines)
    (hn : g.node? uid = some n) (huid : v.keep uid = true) (hpred : v.keep pred = true) :
    v.graph (g.link pred uid slot).value =
      ((v.graph g).link (v.number pred) (v.number uid) slot).value := by
  unfold link
  rw [node?_graph hg huid, hn]
  simp only [Option.map_some, Option.bind_some, slots_node, List.getElem?_map]
  cases n.slots[slot]? with
  | none => rfl
  | some s =>
    simp only [Option.map_some, View.slot, mem_ids hpred, number_inj hpred huid]
    split_ifs
    · rfl
    · exact graph_connect hv hg hn huid hpred

/-- A row of links. -/
theorem graph_linkAll {links : List (NodeId × Nat)} (hv : v.Fits g.outlines)
    (hg : Formed g.outlines) (hn : g.node? uid = some n) (huid : v.keep uid = true)
    (hlinks : ∀ l ∈ links, v.keep l.1 = true) :
    v.graph (g.linkAll uid links) = (v.graph g).linkAll (v.number uid) (v.links links) := by
  induction links generalizing g n with
  | nil => rfl
  | cons l links ih =>
    have hcores : (g.link l.1 uid l.2).value.cores = g.cores := cores_linkAll g uid [l]
    have hout := outlines_of_cores hcores
    obtain ⟨m, hm, -⟩ := node?_of_cores hcores hn
    have hrest := ih (g := (g.link l.1 uid l.2).value) (hout ▸ hv) (hout ▸ hg) hm
      fun l' hl' => hlinks l' (List.mem_cons_of_mem l hl')
    unfold linkAll View.links at hrest ⊢
    rw [List.map_cons, List.foldl_cons, List.foldl_cons, hrest,
      graph_link hv hg hn huid (hlinks l List.mem_cons_self)]

theorem graph_withdraw {successors : List NodeId} (hg : Formed g.outlines)
    (huid : v.keep uid = true) :
    v.graph (g.withdraw uid successors) =
      (v.graph g).withdraw (v.number uid) (v.ids successors) := by
  unfold withdraw
  induction successors generalizing g with
  | nil => rfl
  | cons succ successors ih =>
    have hout : (g.update succ (·.erasePred uid)).outlines = g.outlines :=
      outlines_update (by intro m _; rfl)
    rw [List.foldl_cons, ih (hout ▸ hg)]
    cases hsucc : v.keep succ with
    | true =>
      rw [ids_cons hsucc, List.foldl_cons, graph_update (·.erasePred (v.number uid)) hg hsucc
        (by intro m _; rfl) (fun m _ => node_erasePred huid)]
    | false =>
      rw [ids_cons_of_unseen hsucc, graph_update_of_unseen hg (by intro m _; rfl)]
      intro hseen
      cases hsucc.symm.trans hseen

/-- A node that nothing supplies is removed. -/
theorem graph_detach (hv : v.Fits g.outlines) (hg : Formed g.outlines)
    (hn : g.node? uid = some n) (hsent : n.isSentinel = false) (huid : v.keep uid = true)
    (hunlinked : ∀ s ∈ n.slots, s.preds = []) :
    v.graph (g.detach uid) = (v.graph g).detach (v.number uid) := by
  obtain ⟨s, hs, -, -⟩ := boundaries?_of_instruction hg hn (hg.instruction_ne_none hn hsent)
  have hn' : (v.graph g).node? (v.number uid) = some (v.node n) := by
    rw [node?_graph hg huid, hn, Option.map_some]
  have hs' : (v.graph g).boundaries? (v.number uid) = some (v.sentinels s) := by
    rw [boundaries?_graph hv hg huid, hs, Option.map_some]
  have hunlinked' : ∀ t ∈ (v.node n).slots, t.preds = [] := by
    intro t ht
    obtain ⟨s, hs, rfl⟩ := List.mem_map.mp ht
    rw [View.slot, hunlinked s hs]
    rfl
  have hout : (g.withdraw uid n.successors).outlines = g.outlines :=
    outlines_of_cores (cores_withdraw uid n.successors g)
  have hburied : v.graph ((g.withdraw uid n.successors).update uid Node.bury) =
      ((v.graph g).withdraw (v.number uid) (v.node n).successors).update (v.number uid)
        Node.bury := by
    rw [graph_update Node.bury (hout ▸ hg) huid _ (fun m _ => node_bury),
      graph_withdraw hg huid]
    · rfl
    · intro m hm
      exact Node.outline_bury (isSentinel_of_outlines hout hn hm ▸ hsent)
  rw [detach_eq hn hs, detach_eq hn' hs', Node.predecessors_of_unlinked hunlinked,
    Node.predecessors_of_unlinked hunlinked', List.foldl_nil, List.foldl_nil, ← hburied]
  exact congrArg (Graph.mk _) (ids_filter_ne huid)

end Seen

section Unseen

/-- An entry does not supply an exit. -/
theorem not_feeds_of_sentinels (hg : g.Causal) {p q : Outline} {a b : NodeId}
    (hp : g.outlines[a]? = some p) (hq : g.outlines[b]? = some q) (hentry : p.isEntry = true)
    (hexit : q.isExit = true) : ¬ g.Feeds a b := by
  intro hfeeds
  rcases hg.sourced hfeeds with ⟨-, -, q', -, hq', -, -, hinstr, -⟩ | ⟨p', -, hp', -, -, hinstr, -⟩
  · rw [hq] at hq'
    cases hq'
    exact hinstr ((hg.formed.bare_iff hq).mpr (Or.inr hexit))
  · rw [hp] at hp'
    cases hp'
    exact hinstr ((hg.formed.bare_iff hp).mpr (Or.inl hentry))

/-- Only the entry can be seen of what a node that is not seen is linked to, and it keeps what is
seen of its successors. -/
theorem graph_connect_of_unseen (hv : v.Fits g.outlines) (hg : g.Coherent)
    (hn : g.node? uid = some n) (huid : v.keep uid = false)
    (hprec : Precedes g.outlines pred uid) :
    v.graph (g.connect pred uid slot) = v.graph g := by
  have hformed := hg.causal.formed
  obtain ⟨hlt, p, q, hp, hq, -, hnexit, hinstr, -⟩ := id hprec
  rw [outlines_of_node? hn] at hq
  cases hq
  obtain ⟨s, hs, hexit, hx⟩ := boundaries?_of_instruction hformed hn hinstr
  have hpx : s.exit ≠ pred := by
    rintro heq
    rw [heq, hp] at hx
    cases hx
    cases hnexit
  have hunfed : v.keep pred = true → ¬ g.Feeds pred s.exit := by
    intro hpred
    obtain ⟨p', hp', hentry⟩ := hv.isEntry_of_precedes hprec hpred huid
    exact not_feeds_of_sentinels hg.causal hp' hx hentry rfl
  have hout₁ : (g.update uid (·.addPred slot pred)).outlines = g.outlines :=
    outlines_update (by intro m _; rfl)
  have hout₂ : ((g.update uid (·.addPred slot pred)).update pred
      fun m => (m.eraseSuccessor s.exit).addSuccessor uid).outlines = g.outlines :=
    (outlines_update fun m _ => (m.eraseSuccessor _).outline_addSuccessor uid).trans hout₁
  unfold connect
  simp only [hs, Option.map_some]
  rw [graph_update_of_unseen (hout₂ ▸ hformed) (by intro m _; rfl),
    graph_update_of_unseen (hout₁ ▸ hformed)
      (fun m _ => (m.eraseSuccessor _).outline_addSuccessor uid),
    graph_update_of_unseen hformed (by intro m _; rfl)]
  · intro hseen
    cases huid.symm.trans hseen
  · intro hpred m hm
    rw [node?_update_of_ne (Nat.ne_of_lt hlt)] at hm
    rw [node_addSuccessor_of_unseen huid, Node.eraseSuccessor_of_not_mem]
    intro hmem
    exact hunfed hpred (hg.agree.mp ((flows_iff hm).mpr hmem))
  · intro _ m hm
    rw [node?_update_of_ne hpx, node?_update_of_ne hexit.symm] at hm
    cases hpred : v.keep pred with
    | false => exact node_erasePred_of_unseen hpred
    | true =>
      rw [Node.erasePred_of_not_fedBy]
      intro hfed
      exact hunfed hpred ((feeds_iff hm).mpr hfed)

theorem graph_links_of_unseen (hv : v.Fits g.outlines) (hg : g.Coherent) (hlink : g.Linkable uid)
    (hn : g.node? uid = some n) (huid : v.keep uid = false) (h : g.Links n g') :
    v.graph g' = v.graph g := by
  have hn_uid : n.uid = uid := hg.causal.formed.uid_node hn
  obtain ⟨links, hlinks, rfl⟩ := h
  -- The last link is made in a graph that is coherent again, so the row is taken from its end.
  induction links using List.reverseRecOn with
  | nil => rfl
  | append_singleton links l ih =>
    have hfirst : ∀ l' ∈ links, g.MayLink n l'.1 := fun l' hl' => hlinks l' (by simp [hl'])
    have hlinked : g.Links n (g.linkAll n.uid links) := ⟨links, hfirst, rfl⟩
    have hg₁ : (g.linkAll n.uid links).Coherent := hg.links hn (hlink n hn).1 (hlink n hn).2 hlinked
    have hprec := (hlinks l (by simp)).1
    rw [← linkAll_append]
    change v.graph ((g.linkAll n.uid links).link l.1 n.uid l.2).value = _
    rcases link_value_cases (g.linkAll n.uid links) l.1 n.uid l.2 with heq | ⟨m, s, hm, -, -, -, heq⟩
    · rw [heq, ih hfirst]
    · rw [heq, graph_connect_of_unseen (hlinked.outlines ▸ hv) hg₁ hm (hn_uid ▸ huid)
        (hlinked.outlines ▸ hprec), ih hfirst]

theorem graph_release_of_unseen {exit : NodeId} (hv : v.Fits g.outlines) (hg : Formed g.outlines)
    (huid : v.keep uid = false) (hprec : Precedes g.outlines pred uid) :
    v.graph (release (some exit) uid g pred) = v.graph g := by
  by_cases h : g.Stranded uid pred
  · obtain ⟨m, hm, hsent, -⟩ := id h
    have hpred : v.keep pred = false := by
      by_contra hpred
      obtain ⟨p, hp, hentry⟩ := hv.isEntry_of_precedes hprec (by simpa using hpred) huid
      rw [outlines_of_node? hm] at hp
      cases hp
      exact hg.instruction_ne_none hm hsent
        ((hg.bare_iff (outlines_of_node? hm)).mpr (Or.inl hentry))
    have hout : (g.update pred fun m => { m with successors := [exit] }).outlines = g.outlines :=
      outlines_update (by intro m _; rfl)
    rw [release_of_stranded h, graph_update_of_unseen (hout ▸ hg) (by intro m _; rfl)
        (fun _ m _ => node_addPred_of_unseen hpred),
      graph_update_of_unseen hg (by intro m _; rfl)]
    intro hseen
    cases hpred.symm.trans hseen
  · rw [release_of_not_stranded h]
    exact graph_update_of_unseen hg (by intro m _; rfl)
      fun _ m _ => node_eraseSuccessor_of_unseen huid

theorem graph_withdraw_of_unseen {successors : List NodeId} (hg : Formed g.outlines)
    (huid : v.keep uid = false) : v.graph (g.withdraw uid successors) = v.graph g := by
  unfold withdraw
  induction successors generalizing g with
  | nil => rfl
  | cons succ successors ih =>
    have hout : (g.update succ (·.erasePred uid)).outlines = g.outlines :=
      outlines_update (by intro m _; rfl)
    rw [List.foldl_cons, ih (hout ▸ hg)]
    exact graph_update_of_unseen hg (by intro m _; rfl) fun _ m _ => node_erasePred_of_unseen huid

theorem graph_detach_of_unseen (hv : v.Fits g.outlines) (hg : g.Causal) (hn : g.node? uid = some n)
    (hsent : n.isSentinel = false) (huid : v.keep uid = false) :
    v.graph (g.detach uid) = v.graph g := by
  have hformed := hg.formed
  have hinstr := hformed.instruction_ne_none hn hsent
  obtain ⟨s, hs, -, -⟩ := boundaries?_of_instruction hformed hn hinstr
  have hprec : ∀ p ∈ n.predecessors, Precedes g.outlines p uid := by
    intro p hp
    exact hg.precedes_of_fedBy hn hinstr ((n.mem_predecessors p).mp hp)
  have hrelease : ∀ preds : List NodeId, (∀ p ∈ preds, Precedes g.outlines p uid) →
      v.graph (preds.foldl (release (some s.exit) uid) g) = v.graph g := by
    intro preds hpreds
    refine (List.foldlRecOn preds (release (some s.exit) uid)
      (motive := fun g' : Graph => g'.outlines = g.outlines ∧ v.graph g' = v.graph g)
      ⟨rfl, rfl⟩ ?_).2
    intro g' ⟨hout, hsame⟩ p hp
    refine ⟨by rw [outlines_release, hout], ?_⟩
    rw [graph_release_of_unseen (hout ▸ hv) (hout ▸ hformed) huid (hout ▸ hpreds p hp), hsame]
  have hout : (n.predecessors.foldl (release (some s.exit) uid) g).outlines = g.outlines :=
    outlines_of_cores (cores_releaseAll uid s.exit n.predecessors g)
  have hout' := outlines_of_cores (cores_withdraw_releaseAll uid s.exit n.predecessors n.successors g)
  have hburied : v.graph (((n.predecessors.foldl (release (some s.exit) uid) g).withdraw uid
      n.successors).update uid Node.bury) = v.graph g := by
    rw [graph_update_of_unseen (hout' ▸ hformed),
      graph_withdraw_of_unseen (hout ▸ hformed) huid, hrelease _ hprec]
    · intro m hm
      exact Node.outline_bury (isSentinel_of_outlines hout' hn hm ▸ hsent)
    · intro hseen
      cases huid.symm.trans hseen
  rw [detach_eq hn hs]
  exact congrArg₂ Graph.mk (congrArg Graph.nodes hburied) (ids_filter_ne_of_unseen huid)

/-- The search for the edges of a node that is not seen changes nothing. -/
theorem graph_searched_of_unseen (hv : v.Fits g.outlines) (hg : g.Coherent)
    (hlink : g.Linkable uid) (huid : v.keep uid = false) (h : g.Searched uid g') :
    v.graph g' = v.graph g := by
  cases h with
  | unchanged => rfl
  | linked hn hlive hsent hlinks => exact graph_links_of_unseen hv hg hlink hn huid hlinks
  | removed hn hlive hsent hlinks =>
    have hout := hlinks.outlines
    have hg₁ := hg.links hn (hlink _ hn).1 (hlink _ hn).2 hlinks
    obtain ⟨m, hm, -⟩ := node?_of_cores hlinks.cores hn
    rw [graph_detach_of_unseen (hout ▸ hv) hg₁.causal hm
      (isSentinel_of_outlines hout hn hm ▸ hsent) huid,
      graph_links_of_unseen hv hg hlink hn huid hlinks]
  | collapsed hn hlive hsent hlinks hm hs hrest =>
    rw [graph_update_of_unseen (hlinks.outlines ▸ hg.causal.formed) (by intro m _; rfl),
      graph_links_of_unseen hv hg hlink hn huid hlinks]
    intro hseen
    cases huid.symm.trans hseen

end Unseen
end View
end OperandFlow
