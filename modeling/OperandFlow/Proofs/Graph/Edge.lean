import OperandFlow.Proofs.Graph.Outline

/-! Edges are stored at both of their ends. This module says what each change to a graph does to
the edges as the slots have them, and as the successors have them. -/
namespace OperandFlow

theorem eraseDups_sublist (l : List NodeId) : l.eraseDups.Sublist l := by
  cases l with
  | nil => exact .slnil
  | cons a l =>
    rw [List.eraseDups_cons]
    exact ((eraseDups_sublist (l.filter (!· == a))).trans List.filter_sublist).cons_cons a
termination_by l.length
decreasing_by exact Nat.lt_succ_of_le (List.length_filter_le _ _)

/-- Some slot of the node is supplied by `a`. -/
def Node.FedBy (n : Node) (a : NodeId) : Prop :=
  ∃ s ∈ n.slots, a ∈ s.preds

namespace Node

theorem slots_addPred (n : Node) (slot : Nat) (pred : NodeId) (i : Nat) :
    (n.addPred slot pred).slots[i]? =
      if i = slot then n.slots[i]?.map fun s => { s with preds := s.preds ++ [pred] }
      else n.slots[i]? := by
  unfold addPred
  rw [List.getElem?_modify]
  by_cases h : i = slot
  · subst h
    simp
  · cases n.slots[i]? <;> simp [h, Ne.symm h]

theorem fedBy_iff (n : Node) (a : NodeId) :
    n.FedBy a ↔ ∃ (i : Nat) (s : Slot), n.slots[i]? = some s ∧ a ∈ s.preds := by
  unfold FedBy
  constructor
  · rintro ⟨s, hs, ha⟩
    obtain ⟨i, hi⟩ := List.mem_iff_getElem?.mp hs
    exact ⟨i, s, hi, ha⟩
  · rintro ⟨i, s, hs, ha⟩
    exact ⟨s, List.mem_of_getElem? hs, ha⟩

theorem fedBy_of_mem_predsAt {n : Node} {slot : Nat} {p : NodeId} (h : p ∈ n.predsAt slot) :
    n.FedBy p := by
  unfold predsAt at h
  cases hs : n.slots[slot]? with
  | none => simp [hs] at h
  | some s =>
    rw [hs] at h
    exact ⟨s, List.mem_of_getElem? hs, h⟩

theorem fedBy_addPred (n : Node) (slot : Nat) (pred a : NodeId) :
    (n.addPred slot pred).FedBy a ↔ n.FedBy a ∨ (a = pred ∧ slot < n.slots.length) := by
  simp only [fedBy_iff, slots_addPred]
  constructor
  · rintro ⟨i, s, hs, ha⟩
    split_ifs at hs with hi
    · obtain ⟨t, ht, rfl⟩ := Option.map_eq_some_iff.mp hs
      rcases List.mem_append.mp ha with ha | ha
      · exact Or.inl ⟨i, t, ht, ha⟩
      · exact Or.inr ⟨by simpa using ha, hi ▸ (List.getElem?_eq_some_iff.mp ht).1⟩
    · exact Or.inl ⟨i, s, hs, ha⟩
  · rintro (⟨i, s, hs, ha⟩ | ⟨rfl, hlt⟩)
    · by_cases hi : i = slot
      · exact ⟨i, { s with preds := s.preds ++ [pred] }, by rw [if_pos hi, hs]; rfl,
          by simp [ha]⟩
      · exact ⟨i, s, by simp [hi, hs], ha⟩
    · exact ⟨slot, { n.slots[slot] with preds := n.slots[slot].preds ++ [a] }, by simp [hlt],
        by simp⟩

theorem fedBy_erasePred (n : Node) (pred a : NodeId) :
    (n.erasePred pred).FedBy a ↔ n.FedBy a ∧ a ≠ pred := by
  unfold FedBy erasePred Slot.erase
  simp only [List.mem_map, exists_exists_and_eq_and, List.mem_filter, decide_eq_true_eq]
  grind

theorem not_fedBy_bury (n : Node) (a : NodeId) : ¬ n.bury.FedBy a := by
  unfold FedBy bury
  simp

/-- Slots that nothing supplies can be dropped. -/
theorem fedBy_collapse (n : Node) {keep : Nat} {s : Slot} (hs : n.slots[keep]? = some s)
    (hrest : ∀ (i : Nat) (t : Slot), n.slots[i]? = some t → i ≠ keep → t.preds = [])
    (a : NodeId) : ({ n with slots := [s] } : Node).FedBy a ↔ n.FedBy a := by
  rw [n.fedBy_iff]
  constructor
  · rintro ⟨t, ht, ha⟩
    rw [List.mem_singleton] at ht
    exact ⟨keep, s, hs, ht ▸ ha⟩
  · rintro ⟨i, t, ht, ha⟩
    by_cases hi : i = keep
    · rw [hi, hs] at ht
      cases ht
      exact ⟨s, List.mem_singleton_self s, ha⟩
    · rw [hrest i t ht hi] at ha
      cases ha

theorem mem_predecessors (n : Node) (a : NodeId) : a ∈ n.predecessors ↔ n.FedBy a := by
  unfold predecessors FedBy
  rw [List.mem_eraseDups, List.mem_flatMap]

theorem mem_addSuccessor (n : Node) (succ b : NodeId) :
    b ∈ (n.addSuccessor succ).successors ↔ b ∈ n.successors ∨ b = succ := by
  rw [addSuccessor_eq]
  split_ifs <;> grind

theorem mem_eraseSuccessor (n : Node) (succ b : NodeId) :
    b ∈ (n.eraseSuccessor succ).successors ↔ b ∈ n.successors ∧ b ≠ succ := by
  simp [eraseSuccessor]

end Node

namespace Graph

/-- The edge from `a` to `b` stands in a slot of `b`. -/
def Feeds (g : Graph) (a b : NodeId) : Prop :=
  ∃ n, g.node? b = some n ∧ n.FedBy a

/-- The edge from `a` to `b` stands in the successors of `a`. -/
def Flows (g : Graph) (a b : NodeId) : Prop :=
  ∃ n, g.node? a = some n ∧ b ∈ n.successors

theorem feeds_iff {g : Graph} {a b : NodeId} {n : Node} (hn : g.node? b = some n) :
    g.Feeds a b ↔ n.FedBy a := by
  simp [Feeds, hn]

theorem flows_iff {g : Graph} {a b : NodeId} {n : Node} (hn : g.node? a = some n) :
    g.Flows a b ↔ b ∈ n.successors := by
  simp [Flows, hn]

theorem feeds_update {g : Graph} {uid : NodeId} {f : Node → Node} {a b : NodeId} :
    (g.update uid f).Feeds a b ↔
      (b ≠ uid ∧ g.Feeds a b) ∨ (b = uid ∧ ∃ n, g.node? uid = some n ∧ (f n).FedBy a) := by
  unfold Feeds
  rw [node?_update]
  by_cases hb : b = uid
  · subst hb
    simp
  · simp [hb]

theorem flows_update {g : Graph} {uid : NodeId} {f : Node → Node} {a b : NodeId} :
    (g.update uid f).Flows a b ↔
      (a ≠ uid ∧ g.Flows a b) ∨
        (a = uid ∧ ∃ n, g.node? uid = some n ∧ b ∈ (f n).successors) := by
  unfold Flows
  rw [node?_update]
  by_cases ha : a = uid
  · subst ha
    simp
  · simp [ha]

theorem feeds_update_congr {g : Graph} {uid : NodeId} {f : Node → Node}
    (h : ∀ n, g.node? uid = some n → ∀ a, (f n).FedBy a ↔ n.FedBy a) {a b : NodeId} :
    (g.update uid f).Feeds a b ↔ g.Feeds a b := by
  rw [feeds_update]
  unfold Feeds
  grind

theorem flows_update_congr {g : Graph} {uid : NodeId} {f : Node → Node}
    (h : ∀ n, g.node? uid = some n → (f n).successors = n.successors) {a b : NodeId} :
    (g.update uid f).Flows a b ↔ g.Flows a b := by
  rw [flows_update]
  unfold Flows
  grind

theorem cores_connect (g : Graph) (pred uid : NodeId) (slot : Nat) :
    (g.connect pred uid slot).cores = g.cores := by
  unfold connect
  dsimp only
  split
  · rw [cores_update (fun n _ => n.core_addSuccessor uid), cores_update (by intro n _; rfl)]
  · rw [cores_update (by intro n _; rfl),
      cores_update (fun n _ => (n.eraseSuccessor _).core_addSuccessor uid),
      cores_update (by intro n _; rfl)]

@[simp] theorem outlines_connect (g : Graph) (pred uid : NodeId) (slot : Nat) :
    (g.connect pred uid slot).outlines = g.outlines :=
  outlines_of_cores (g.cores_connect pred uid slot)

/-- An instruction is no sentinel of its function. -/
theorem boundaries?_of_instruction {g : Graph} (hg : Formed g.outlines) {uid : NodeId} {n : Node}
    (hn : g.node? uid = some n) (hinstr : n.instruction ≠ none) :
    ∃ s, g.boundaries? uid = some s ∧ uid ≠ s.exit ∧
      g.outlines[s.exit]? = some (.exit s.exit n.function) := by
  obtain ⟨e, -, hs, -, hx⟩ := hg.boundaries hn
  refine ⟨⟨e, e + 1⟩, by simp [boundaries?, hn, hs], ?_, hx⟩
  rintro rfl
  rw [outlines_of_node? hn] at hx
  exact hinstr (congrArg Outline.instruction (Option.some.inj hx))

theorem node?_connect_self {g : Graph} {pred uid : NodeId} {slot : Nat} {n : Node} {s : Sentinels}
    (hn : g.node? uid = some n) (hs : g.boundaries? uid = some s) (hne : pred ≠ uid)
    (hexit : uid ≠ s.exit) :
    (g.connect pred uid slot).node? uid = some (n.addPred slot pred) := by
  unfold connect
  simp only [hs, Option.map_some]
  rw [node?_update_of_ne hexit, node?_update_of_ne hne.symm, node?_update_self hn]

/-- The edge to the exit gives way to the new one. -/
theorem feeds_connect {g : Graph} {pred uid : NodeId} {slot : Nat} {n : Node} {s : Sentinels}
    (hn : g.node? uid = some n) (hslot : slot < n.slots.length)
    (hs : g.boundaries? uid = some s) (hexit : uid ≠ s.exit) {a b : NodeId} :
    (g.connect pred uid slot).Feeds a b ↔
      (g.Feeds a b ∧ ¬(a = pred ∧ b = s.exit)) ∨ (a = pred ∧ b = uid) := by
  have hmid : (((g.update uid (·.addPred slot pred)).update pred
      fun n => (n.eraseSuccessor s.exit).addSuccessor uid)).Feeds a b ↔
        g.Feeds a b ∨ (a = pred ∧ b = uid) := by
    rw [feeds_update_congr fun m _ a => by rw [Node.addSuccessor_eq]; rfl, feeds_update]
    simp only [hn, Option.some.injEq, exists_eq_left', Node.fedBy_addPred, hslot, and_true]
    by_cases hb : b = uid
    · subst hb
      simp [feeds_iff hn]
    · simp [hb]
  unfold connect
  simp only [hs, Option.map_some]
  rw [feeds_update]
  by_cases hb : b = s.exit
  · subst hb
    have hx : ∀ m, (∃ n, m = some n ∧ (n.erasePred pred).FedBy a) ↔
        (∃ n : Node, m = some n ∧ n.FedBy a) ∧ a ≠ pred := by
      intro m
      cases m <;> simp [Node.fedBy_erasePred]
    rw [hx]
    change _ ∨ _ ∧ Feeds _ a s.exit ∧ _ ↔ _
    rw [hmid]
    grind
  · simp [hb, hmid]

theorem flows_connect {g : Graph} {pred uid : NodeId} {slot : Nat} {m : Node} {s : Sentinels}
    (hm : g.node? pred = some m) (hs : g.boundaries? uid = some s) (hne : pred ≠ uid)
    {a b : NodeId} :
    (g.connect pred uid slot).Flows a b ↔
      (g.Flows a b ∧ ¬(a = pred ∧ b = s.exit)) ∨ (a = pred ∧ b = uid) := by
  unfold connect
  simp only [hs, Option.map_some]
  rw [flows_update_congr (by intro n _; rfl), flows_update, node?_update_of_ne hne, hm,
    flows_update_congr (by intro n _; rfl)]
  simp only [Option.some.injEq, exists_eq_left', Node.mem_addSuccessor, Node.mem_eraseSuccessor]
  by_cases ha : a = pred
  · subst ha
    simp only [flows_iff hm]
    grind
  · simp [ha]

/-- Without the edge to `uid` the instruction goes nowhere. -/
def Stranded (g : Graph) (uid pred : NodeId) : Prop :=
  ∃ m, g.node? pred = some m ∧ m.isSentinel = false ∧ ∀ b ∈ m.successors, b = uid

theorem release_of_stranded {g : Graph} {uid pred : NodeId} (h : g.Stranded uid pred)
    (exit : NodeId) :
    release (some exit) uid g pred =
      (g.update pred fun m => { m with successors := [exit] }).update exit (·.addPred 0 pred) := by
  obtain ⟨m, hm, hsent, hall⟩ := h
  have hnil : (m.eraseSuccessor uid).successors = [] := by
    rw [List.eq_nil_iff_forall_not_mem]
    intro b hb
    rw [Node.mem_eraseSuccessor] at hb
    exact hb.2 (hall b hb.1)
  have hsent' : (m.eraseSuccessor uid).isSentinel = false := hsent
  unfold release
  simp only [node?_update_self hm, hnil, hsent', List.isEmpty_nil, Bool.not_false, Bool.and_true,
    if_true]
  rw [update_update]
  congr 1
  apply update_congr
  intro n hn
  rw [hm] at hn
  cases hn
  simp only [Function.comp_apply, Node.addSuccessor_eq, hnil]
  rfl

theorem release_of_not_stranded {g : Graph} {uid pred : NodeId} (h : ¬ g.Stranded uid pred)
    (exit : NodeId) : release (some exit) uid g pred = g.update pred (·.eraseSuccessor uid) := by
  unfold release
  cases hm : g.node? pred with
  | none => simp [node?_update, hm]
  | some m =>
    simp only [node?_update_self hm]
    rw [if_neg]
    rintro hstay
    simp only [Bool.and_eq_true, List.isEmpty_iff, Bool.not_eq_true'] at hstay
    refine h ⟨m, hm, hstay.2, ?_⟩
    intro b hb
    by_contra hne
    have : b ∈ (m.eraseSuccessor uid).successors := (m.mem_eraseSuccessor uid b).mpr ⟨hb, hne⟩
    rw [hstay.1] at this
    cases this

theorem cores_release (g : Graph) (uid pred exit : NodeId) :
    (release (some exit) uid g pred).cores = g.cores := by
  by_cases h : g.Stranded uid pred
  · rw [release_of_stranded h, cores_update (by intro n _; rfl), cores_update (by intro n _; rfl)]
  · rw [release_of_not_stranded h, cores_update (by intro n _; rfl)]

theorem outlines_release (g : Graph) (uid pred exit : NodeId) :
    (release (some exit) uid g pred).outlines = g.outlines :=
  outlines_of_cores (g.cores_release uid pred exit)

theorem node?_release_of_ne {i uid pred exit : NodeId} (hpred : i ≠ pred) (hexit : i ≠ exit)
    (g : Graph) : (release (some exit) uid g pred).node? i = g.node? i := by
  by_cases h : g.Stranded uid pred
  · rw [release_of_stranded h, node?_update_of_ne hexit, node?_update_of_ne hpred]
  · rw [release_of_not_stranded h, node?_update_of_ne hpred]

theorem feeds_release {g : Graph} {uid pred exit : NodeId} {x : Node}
    (hx : g.node? exit = some x) (hslot : 0 < x.slots.length) (hne : pred ≠ exit) {a b : NodeId} :
    (release (some exit) uid g pred).Feeds a b ↔
      g.Feeds a b ∨ (a = pred ∧ b = exit ∧ g.Stranded uid pred) := by
  by_cases h : g.Stranded uid pred
  · rw [release_of_stranded h, feeds_update, node?_update_of_ne hne.symm,
      feeds_update_congr (by intro n _ a; rfl), hx]
    simp only [Option.some.injEq, exists_eq_left', Node.fedBy_addPred, hslot, and_true, h]
    by_cases hb : b = exit
    · subst hb
      simp [feeds_iff hx]
    · simp [hb]
  · rw [release_of_not_stranded h, feeds_update_congr (by intro n _ a; rfl)]
    simp [h]

theorem flows_release {g : Graph} {uid pred exit : NodeId} (hexit : exit ≠ uid) {a b : NodeId} :
    (release (some exit) uid g pred).Flows a b ↔
      (g.Flows a b ∧ ¬(a = pred ∧ b = uid)) ∨ (a = pred ∧ b = exit ∧ g.Stranded uid pred) := by
  by_cases h : g.Stranded uid pred
  · rw [release_of_stranded h, flows_update_congr (by intro n _; rfl), flows_update]
    obtain ⟨m, hm, -, hall⟩ := id h
    by_cases ha : a = pred
    · subst ha
      simp only [flows_iff hm, hm, h]
      grind
    · simp [ha]
  · rw [release_of_not_stranded h, flows_update]
    by_cases ha : a = pred
    · subst ha
      simp only [Node.mem_eraseSuccessor, Flows]
      grind
    · simp [ha, h]

/-- Takes `uid` from the slots of its successors. -/
def withdraw (uid : NodeId) (successors : List NodeId) (g : Graph) : Graph :=
  successors.foldl (fun g succ => g.update succ (·.erasePred uid)) g

theorem node?_withdraw (uid : NodeId) (successors : List NodeId) (g : Graph) (i : NodeId) :
    (g.withdraw uid successors).node? i =
      if i ∈ successors then (g.node? i).map (·.erasePred uid) else g.node? i := by
  unfold withdraw
  induction successors generalizing g with
  | nil => simp
  | cons succ successors ih =>
    have htwice : (fun m : Node => m.erasePred uid) ∘ (fun m : Node => m.erasePred uid) =
        fun m : Node => m.erasePred uid := by
      funext m
      simp [Node.erasePred, Slot.erase]
    rw [List.foldl_cons, ih, node?_update]
    by_cases hi : i = succ
    · subst hi
      simp [htwice]
    · simp [hi]

@[simp] theorem pending_withdraw (uid : NodeId) (successors : List NodeId) (g : Graph) :
    (g.withdraw uid successors).pending = g.pending := by
  unfold withdraw
  apply List.foldlRecOn successors (motive := fun g' : Graph => g'.pending = g.pending) _ rfl
  intro g' ih succ _
  exact ih

theorem feeds_withdraw {uid : NodeId} {successors : List NodeId} {g : Graph} {a b : NodeId} :
    (g.withdraw uid successors).Feeds a b ↔ g.Feeds a b ∧ ¬(a = uid ∧ b ∈ successors) := by
  unfold Feeds
  rw [node?_withdraw]
  split_ifs with hb
  · cases g.node? b <;> simp [Node.fedBy_erasePred, hb]
  · simp [hb]

theorem flows_withdraw {uid : NodeId} {successors : List NodeId} {g : Graph} {a b : NodeId} :
    (g.withdraw uid successors).Flows a b ↔ g.Flows a b := by
  unfold Flows
  rw [node?_withdraw]
  split_ifs
  · cases g.node? a <;> simp [Node.erasePred]
  · rfl

theorem cores_withdraw (uid : NodeId) (successors : List NodeId) (g : Graph) :
    (g.withdraw uid successors).cores = g.cores := by
  unfold withdraw
  apply List.foldlRecOn successors (motive := fun g' : Graph => g'.cores = g.cores) _ rfl
  intro g' ih succ _
  rw [cores_update (by intro n _; rfl), ih]

theorem cores_releaseAll (uid exit : NodeId) (preds : List NodeId) (g : Graph) :
    (preds.foldl (release (some exit) uid) g).cores = g.cores := by
  apply List.foldlRecOn preds (motive := fun g' : Graph => g'.cores = g.cores) _ rfl
  intro g' ih pred _
  rw [cores_release, ih]

/-- Until a node is buried, its removal changes edges only. -/
theorem cores_withdraw_releaseAll (uid exit : NodeId) (preds successors : List NodeId)
    (g : Graph) :
    ((preds.foldl (release (some exit) uid) g).withdraw uid successors).cores = g.cores := by
  rw [cores_withdraw, cores_releaseAll]

theorem detach_eq {g : Graph} {uid : NodeId} {n : Node} {s : Sentinels}
    (hn : g.node? uid = some n) (hs : g.boundaries? uid = some s) :
    g.detach uid = { ((n.predecessors.foldl (release (some s.exit) uid) g).withdraw uid
      n.successors).update uid Node.bury with pending := g.pending.filter (· ≠ uid) } := by
  have hrelease : ∀ preds : List NodeId,
      (preds.foldl (release (some s.exit) uid) g).pending = g.pending := by
    intro preds
    apply List.foldlRecOn preds (motive := fun g' : Graph => g'.pending = g.pending) _ rfl
    intro g' ih pred _
    by_cases h : g'.Stranded uid pred
    · rw [release_of_stranded h]
      exact ih
    · rw [release_of_not_stranded h]
      exact ih
  unfold detach
  rw [hn]
  simp only [hs, Option.map_some]
  change ({ ((n.predecessors.foldl (release (some s.exit) uid) g).withdraw uid
    n.successors).update uid Node.bury with pending := _ } : Graph) = _
  rw [pending_update, ← withdraw, pending_withdraw, hrelease]

theorem isSentinel_of_outlines {g g' : Graph} (h : g'.outlines = g.outlines) {uid : NodeId}
    {n m : Node} (hn : g.node? uid = some n) (hm : g'.node? uid = some m) :
    m.isSentinel = n.isSentinel := by
  have ho := outlines_of_node? hm
  rw [h, outlines_of_node? hn] at ho
  exact Node.isSentinel_congr (Option.some.inj ho).symm

theorem outlines_detach {g : Graph} (hg : Formed g.outlines) {uid : NodeId} {n : Node}
    (hn : g.node? uid = some n) (hsent : n.isSentinel = false) :
    (g.detach uid).outlines = g.outlines := by
  have hinstr := hg.instruction_ne_none hn hsent
  obtain ⟨s, hs, -, -⟩ := boundaries?_of_instruction hg hn hinstr
  have hout : ((n.predecessors.foldl (release (some s.exit) uid) g).withdraw uid
      n.successors).outlines = g.outlines :=
    outlines_of_cores (cores_withdraw_releaseAll _ _ _ _ g)
  rw [detach_eq hn hs]
  change (((n.predecessors.foldl (release (some s.exit) uid) g).withdraw uid
    n.successors).update uid Node.bury).outlines = _
  rw [outlines_update, hout]
  intro m hm
  exact Node.outline_bury (isSentinel_of_outlines hout hn hm ▸ hsent)

end Graph
end OperandFlow
