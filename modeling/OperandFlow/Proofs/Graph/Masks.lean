import OperandFlow.Proofs.Graph.Resolution

/-! What becomes of a mask hangs on how many of its operands have a producer. -/
namespace OperandFlow

theorem Opcode.eq_of_isMask {o : Opcode} (h : o.isMask = true) : o = .and ∨ o = .or := by
  cases o with
  | and => exact Or.inl rfl
  | or => exact Or.inr rfl
  | _ => cases h

/-- The operand is symbolic, and one of the candidates produced it. -/
def Slot.isResolvable (host : Host) (candidates : List Node) (s : Slot) : Bool :=
  s.seeksProducer && candidates.any fun m => (Graph.produces host s.datum m).value

theorem Slot.isResolvable_congr {host : Host} {nodes nodes' : List Node}
    (h : nodes'.map Node.upstream = nodes.map Node.upstream) :
    Slot.isResolvable host nodes' = Slot.isResolvable host nodes := by
  have hany : ∀ (nodes : List Node) (d : Datum),
      nodes.any (fun m => (Graph.produces host d m).value) =
        (nodes.map Node.upstream).any fun m => (Graph.produces host d m).value := by
    intro nodes d
    rw [List.any_map]
    rfl
  funext s
  rw [isResolvable, isResolvable, hany, hany nodes, h]

/-- Exactly a resolvable operand is supplied by something, and then by one node. -/
theorem Slot.Supplied.cases {host : Host} {candidates : List Node} {s : Slot}
    (h : s.Supplied host candidates) :
    (s.isResolvable host candidates = true ∧ ∃ p, s.preds = [p]) ∨
      (s.isResolvable host candidates = false ∧ s.preds = []) := by
  unfold Supplied at h
  split_ifs at h with hseek
  · rcases h with ⟨m, hm, hproduces, -, hpreds⟩ | ⟨hnone, hpreds⟩
    · exact Or.inl ⟨by simpa [isResolvable, hseek] using ⟨m, hm, hproduces⟩, m.uid, hpreds⟩
    · exact Or.inr ⟨by simpa [isResolvable] using fun _ => hnone, hpreds⟩
  · exact Or.inr ⟨by simp [isResolvable, hseek], h⟩

/-- The node is what a mask with the operands comes to: it is gone if none of them is resolvable,
keeps the only one that is, and keeps them all if there are more. -/
structure Node.Pruned (host : Host) (candidates : List Node) (operands : List Slot) (n : Node) :
    Prop where
  removed : operands.filter (Slot.isResolvable host candidates) = [] → n.isDeleted = true
  collapsed : ∀ s, operands.filter (Slot.isResolvable host candidates) = [s] →
    n.isDeleted = false ∧ n.slots.map (·.datum) = [s.datum]
  kept : 2 ≤ (operands.filter (Slot.isResolvable host candidates)).length →
    n.isDeleted = false ∧ n.slots.map (·.datum) = operands.map (·.datum)
  supplied : n.isDeleted = false → ∀ s ∈ n.slots, s.Supplied host candidates

namespace Node.Pruned

variable {host : Host} {nodes nodes' : List Node} {operands : List Slot} {n : Node}

theorem congr (h : n.Pruned host nodes operands)
    (hnodes : nodes'.map Node.upstream = nodes.map Node.upstream) :
    n.Pruned host nodes' operands := by
  have hresolvable : Slot.isResolvable host nodes' = Slot.isResolvable host nodes :=
    Slot.isResolvable_congr hnodes
  constructor
  · rw [hresolvable]
    exact h.removed
  · rw [hresolvable]
    exact h.collapsed
  · rw [hresolvable]
    exact h.kept
  · exact fun hlive s hs => (h.supplied hlive s hs).congr hnodes

theorem redirect (h : n.Pruned host nodes operands) (successors : List NodeId) :
    ({ n with successors } : Node).Pruned host nodes operands :=
  ⟨h.removed, h.collapsed, h.kept, h.supplied⟩

end Node.Pruned

/-- The node is a mask with the operands. -/
def Node.Holds (operands : List Slot) (n : Node) : Prop :=
  n.opcode?.any Opcode.isMask = true ∧ n.slots = operands

namespace Graph

/-- The elements with `p` stand where the places with `p` say. -/
theorem filter_places {α : Type} (p : α → Bool) (l : List α) :
    ∃ kept : List (α × Nat), kept.map (·.1) = l.filter p ∧
      kept.map (·.2) = ((l.map p).zipIdx.filter (·.1)).map (·.2) ∧
        ∀ k ∈ kept, l[k.2]? = some k.1 := by
  refine ⟨l.zipIdx.filter fun k => p k.1, ?_, ?_, ?_⟩
  · have hl : l.zipIdx.map (·.1) = l := List.zipIdx_map_fst 0 l
    conv_rhs => rw [← hl, List.filter_map]
    rfl
  · rw [List.zipIdx_map, List.filter_map, List.map_map]
    rfl
  · intro k hk
    exact List.mem_zipIdx_iff_getElem?.mp (List.mem_of_mem_filter hk)

section Search

variable {host : Host} {g : Graph} {n m : Node}

theorem resolve_of_unlinked {candidates : List Node} {s : Slot} (hs : s.preds = []) :
    (resolve host candidates s).value.2 = s.isResolvable host candidates := by
  unfold resolve Slot.isResolvable
  by_cases hseek : s.seeksProducer = true
  · simp [hs, hseek, producer?, List.isSome_find?]
  · simp [hs, hseek]

/-- The resolved slots of a fresh mask are in the places of its resolvable operands. -/
theorem resolved_places (host : Host) (g : Graph) (hfresh : n.Fresh) :
    ∃ kept : List (Slot × Nat),
      kept.map (·.1) =
        n.slots.filter (Slot.isResolvable host (g.candidates host.options.reach n)) ∧
      kept.map (·.2) = ((g.linkSlots host n).value.2.zipIdx.filter (·.1)).map (·.2) ∧
      ∀ k ∈ kept, n.slots[k.2]? = some k.1 := by
  have hflags : (g.linkSlots host n).value.2 =
      n.slots.map (Slot.isResolvable host (g.candidates host.options.reach n)) := by
    rw [linkSlots_value]
    exact List.map_congr_left fun s hs => resolve_of_unlinked (hfresh.unlinked s hs)
  rw [hflags]
  exact filter_places _ n.slots

theorem pruned_settleMask (hg : Formed g.outlines) (hn : g.node? n.uid = some n)
    (hinstr : n.instruction ≠ none) (hfresh : n.Fresh) (hlen : 2 ≤ n.slots.length)
    (hm : (g.settleMask host n).value.node? n.uid = some m) :
    m.Pruned host (g.candidates host.options.reach n) n.slots := by
  have hlinks := links_linkSlots host hg hn
  have hsupplied := supplied_settleMask hg hn hinstr hfresh hm
  have hsettles := settles_settleMask host hg hn hinstr
  obtain ⟨kept, hkept, hplaces, hmem⟩ := resolved_places host g hfresh
  obtain ⟨k, hk, hcore⟩ := node?_of_cores hlinks.cores hn
  have hslots := slots_linkSlots hg hn hinstr hk
  have hlive : k.isDeleted = false := by
    rw [Node.isDeleted, (Node.of_core hcore).2.1]
    exact hfresh.isDeleted
  generalize (g.settleMask host n).value = g' at hm hsettles
  cases hsettles with
  | kept h =>
    obtain rfl : k = m := Option.some.inj (hk.symm.trans hm)
    have hmany : 2 ≤ kept.length := by
      rw [← hplaces, List.length_map] at h
      exact h.resolve_left (Nat.not_lt.mpr hlen)
    have hdata : k.slots.map (·.datum) = n.slots.map (·.datum) := by
      rw [hslots, List.map_map]
      rfl
    refine ⟨?_, ?_, fun _ => ⟨hlive, hdata⟩, hsupplied⟩
    · intro hnil
      rw [← hkept, List.map_eq_nil_iff] at hnil
      simp [hnil] at hmany
    · intro s hone
      rw [← hkept] at hone
      have hlength := congrArg List.length hone
      rw [List.length_map] at hlength
      simp [hlength] at hmany
  | removed _ hnone =>
    rw [hnone, List.map_eq_nil_iff] at hplaces
    rw [hplaces, List.map_nil] at hkept
    have hgone := hlinks.isDeleted_detach hg hn hinstr hm
    exact ⟨fun _ => hgone, by simp [← hkept], by simp [← hkept], hsupplied⟩
  | collapsed _ hone hk' hs =>
    cases hk.symm.trans hk'
    rw [node?_update_self hk] at hm
    cases hm
    rw [hone] at hplaces
    obtain ⟨⟨s, place⟩, rfl, rfl⟩ := List.map_eq_singleton_iff.mp hplaces
    have hs' := hmem _ (List.mem_singleton_self _)
    rw [hslots, List.getElem?_map, hs'] at hs
    cases hs
    refine ⟨by simp [← hkept], ?_, by simp [← hkept], hsupplied⟩
    intro s' hs'
    rw [← hkept] at hs'
    cases hs'
    exact ⟨hlive, rfl⟩

/-- The search for its edges prunes a mask. -/
theorem pruned_runEdgeSearch {uid : NodeId} {operands : List Slot} (hg : Formed g.outlines)
    (hn : g.node? uid = some n) (hfresh : n.Fresh) (hholds : n.Holds operands)
    (hlen : 2 ≤ operands.length) (hm : (g.runEdgeSearch host uid).value.node? uid = some m) :
    m.Pruned host (g.candidates host.options.reach n) operands := by
  obtain ⟨a, ho, hkind⟩ := hfresh.kind
  obtain ⟨hmask, rfl⟩ := hholds
  have huid : n.uid = uid := hg.uid_node hn
  subst huid
  have hinstr : n.instruction ≠ none := by
    intro hnone
    simp [Node.opcode?, hnone] at ho
  rw [ho, Option.any_some] at hmask
  have hcomputes : a.opcode.computes = true := by
    rcases Opcode.eq_of_isMask hmask with hopcode | hopcode <;> rw [hopcode] <;> rfl
  rw [runEdgeSearch_value, findEdges_value hg hn hfresh.isDeleted ho,
    linkNode_of_computes hcomputes hkind, if_pos hmask] at hm
  exact pruned_settleMask hg hn hinstr hfresh hlen hm

end Search

/-- The mask was made with the operands. It still waits with them, or is what a mask with them comes
to. -/
def Masked (host : Host) (operands : List Slot) (g : Graph) (i : NodeId) : Prop :=
  ∀ n, g.node? i = some n → n.instruction ≠ none →
    (n.awaiting = true → n.isDeleted = false → n.Holds operands) ∧
      (n.awaiting = false → n.Pruned host (g.candidates host.options.reach n) operands)

/-- A node, and one mask with its operands. -/
def Outset.mask (mask : NodeId) (operands : List Slot) : Outset where
  holds := fun i n => n.Fresh ∧ (i = mask → n.Holds operands)
  fresh := And.left
  settle := fun h => ⟨h.1.congr rfl rfl rfl h.1.unlinked rfl, h.2⟩
  supply := by
    intro i n opcode h hopcode o result state
    refine ⟨h.1.supply o opcode result state, ?_⟩
    intro hi
    obtain ⟨hmask, hslots⟩ := h.2 hi
    have hload : opcode ≠ .sload := by
      rintro rfl
      rw [of_decide_eq_true hopcode] at hmask
      cases hmask
    refine ⟨hmask, ?_⟩
    rw [← hslots, Graph.supply]
    exact if_neg hload

section

variable {host : Host} {operands : List Slot} {g g' : Graph} {uid i : NodeId}

theorem Masked.touches (h : g.Touches uid g') (hg : g.Coherent) (hg' : Formed g'.outlines)
    (hi : i ≠ uid) (hold : g.Masked host operands i) : g'.Masked host operands i := by
  intro m hm hinstr
  obtain ⟨n, successors, hn, hexit, rfl⟩ := h.exists_node? hg' hi hm hinstr
  obtain ⟨hholds, hpruned⟩ := hold n hn hinstr
  refine ⟨hholds, ?_⟩
  intro hwait
  have hcandidates := h.candidates hg hg' hn hm (fun _ => ⟨hi, n, hn, hwait, hexit⟩)
    host.options.reach
  exact ((hpruned hwait).congr hcandidates).redirect successors

theorem masked_search {n : Node} (hg : g.Coherent) (hlink : g.Linkable uid)
    (hlast : ∀ b, ¬ Precedes g.outlines uid b) (hn : g.node? uid = some n) (hfresh : n.Fresh)
    (hholds : n.Holds operands) (hlen : 2 ≤ operands.length) :
    (g.runEdgeSearch host uid).value.Masked host operands uid := by
  have hformed := hg.causal.formed
  have huid : n.uid = uid := hformed.uid_node hn
  intro m hm _
  have hwait := awaiting_runEdgeSearch hformed hn (hlink n hn).1 hm
  refine ⟨fun h => absurd (hwait.symm.trans h) Bool.false_ne_true, fun _ => ?_⟩
  have hlead : n.leader? ≠ some uid := by
    obtain ⟨o, ho, hmask⟩ := (Option.any_eq_true ..).mp hholds.1
    exact huid ▸ hfresh.leader_ne ho (by rintro rfl; cases hmask)
  have hpruned := pruned_runEdgeSearch hformed hn hfresh hholds hlen hm
  exact hpruned.congr (candidates_search hg hlink hlast hn hlead hm _)

/-- One mask is watched while the graph grows. -/
theorem sustained_masked (host : Host) (mask : NodeId) (hlen : 2 ≤ operands.length) :
    Sustained host (.mask mask operands) fun g i =>
      g.Accounts host (fun _ => True) i ∧ (i = mask → g.Masked host operands i) where
  bare := fun h => ⟨(upheld_accounts host _).bare h, fun _ n hn hinstr => absurd (h n hn) hinstr⟩
  fresh := fun h hn hinstr hlive hwait =>
    ⟨(upheld_accounts host _).fresh h.1 hn hinstr hlive hwait,
      fun hi => (h.2 hi _ hn hinstr).1 hwait hlive⟩
  elsewhere := fun htouch hg hg' hi h =>
    ⟨h.1.touches htouch hg hg' hi, fun hmask => (h.2 hmask).touches htouch hg hg' hi⟩
  searched := fun hg hlink hlast hn hfresh =>
    ⟨accounts_search hg hlink hlast hn hfresh.1,
      fun hmask => masked_search hg hlink hlast hn hfresh.1 (hfresh.2 hmask) hlen⟩

end
end Graph
end OperandFlow
