import OperandFlow.Proofs.Graph.Coherence

/-! Arrivals, results, flushes and removals keep a graph coherent. -/
namespace OperandFlow

/-- Of the control flow only calls have a result. -/
theorem Opcode.isCall_of_reportsResult {opcode : Opcode} (hresult : opcode.reportsResult = true)
    (hcategory : opcode.category = .controlFlow) : opcode.isCall = true := by
  unfold reportsResult at hresult
  split at hresult <;> simp_all [category, isCall]

/-- What waits for a result is no jump and no halt, if its opcode decides on its category. -/
theorem Arrival.kind_of_isDeferred {a : Arrival} {category : Category} {uid : NodeId}
    (ha : a.category = .unknown) (hcategory : a.category? = .ok category)
    (h : a.isDeferred category uid = true) (target : Option Nat) :
    a.kind category ≠ .controlFlow target := by
  have hopcode : a.opcode.category = category := by
    unfold category? at hcategory
    rw [ha] at hcategory
    exact Except.ok.inj hcategory
  simp only [isDeferred, Bool.and_eq_true] at h
  unfold kind
  cases category with
  | controlFlow => simp [Opcode.isCall_of_reportsResult h.1.1 hopcode]
  | _ => simp

namespace Graph

/-- The node waits no longer, and the leader of its block is there if it is linked to it. -/
def Linkable (g : Graph) (uid : NodeId) : Prop :=
  ∀ n, g.node? uid = some n → n.awaiting = false ∧
    ∀ target l m, n.kind = .controlFlow target → n.leader? = some l → g.node? l = some m →
      m.isDeleted = false

namespace Coherent

variable {g g' : Graph}

theorem agree_update {uid : NodeId} {f : Node → Node} (hg : g.Coherent)
    (hsucc : ∀ n, g.node? uid = some n → (f n).successors = n.successors)
    (hfed : ∀ n, g.node? uid = some n → ∀ a, (f n).FedBy a ↔ n.FedBy a) {a b : NodeId} :
    (g.update uid f).Flows a b ↔ (g.update uid f).Feeds a b := by
  rw [flows_update_congr hsucc, feeds_update_congr hfed, hg.agree]

/-- Slots that nothing supplies can be dropped. -/
theorem collapse {uid : NodeId} {keep : Nat} {s : Slot} {n : Node} (hg : g.Coherent)
    (hn : g.node? uid = some n) (hs : n.slots[keep]? = some s)
    (hrest : ∀ (i : Nat) (t : Slot), n.slots[i]? = some t → i ≠ keep → t.preds = []) :
    (g.update uid fun n => { n with slots := [s] }).Coherent := by
  have hfed : ∀ m, g.node? uid = some m → ∀ a, ({ m with slots := [s] } : Node).FedBy a ↔
      m.FedBy a := by
    intro m hm a
    rw [hn] at hm
    cases hm
    exact n.fedBy_collapse hs hrest a
  have hcores : (g.update uid fun n => { n with slots := [s] }).cores = g.cores :=
    cores_update (by intro m _; rfl)
  refine ⟨hg.causal.update_quiet fun m hm => ⟨rfl, fun a ha => (hfed m hm a).mp ha⟩,
    hg.paced.congr hcores rfl, hg.agree_update (by intro m _; rfl) hfed, ?_⟩
  rw [outlines_of_cores hcores]
  apply hg.tidy.update
  intro m hm htidy
  rw [hn] at hm
  cases hm
  refine { htidy with preds_nodup := ?_, exit_slot := fun _ => ⟨s, rfl⟩, waiting := ?_ }
  · intro t ht
    rw [List.mem_singleton] at ht
    exact ht ▸ htidy.preds_nodup s (List.mem_of_getElem? hs)
  · intro hawait
    obtain ⟨hunfed, hkind⟩ := htidy.waiting hawait
    exact ⟨fun a ha => hunfed a ((hfed n hn a).mp ha), hkind⟩

theorem searched {uid : NodeId} (hg : g.Coherent) (hlink : g.Linkable uid)
    (h : g.Searched uid g') : g'.Coherent := by
  cases h with
  | unchanged => exact hg
  | linked hn hlive hsent hlinks => exact hg.links hn (hlink _ hn).1 (hlink _ hn).2 hlinks
  | removed hn hlive hsent hlinks =>
    have hg₁ := hg.links hn (hlink _ hn).1 (hlink _ hn).2 hlinks
    obtain ⟨m, hm, hcore⟩ := node?_of_cores hlinks.cores hn
    refine hg₁.detach hm ?_ (isSentinel_of_outlines hlinks.outlines hn hm ▸ hsent)
    rwa [Node.isDeleted, (Node.of_core hcore).2.1]
  | collapsed hn hlive hsent hlinks hm hs hrest =>
    have hg₁ := hg.links hn (hlink _ hn).1 (hlink _ hn).2 hlinks
    exact hg₁.collapse hm hs hrest

theorem unpend (hg : g.Coherent) (uid : NodeId) : (g.unpend uid).Coherent := by
  have hagree : ∀ {a b : NodeId}, (g.update uid fun n => { n with awaiting := false }).Flows a b ↔
      (g.update uid fun n => { n with awaiting := false }).Feeds a b :=
    hg.agree_update (by intro n _; rfl) (by intro n _ a; rfl)
  have htidy : (g.update uid fun n => { n with awaiting := false }).IsTidy g.outlines := by
    apply hg.tidy.update
    intro n _ htidy
    exact { htidy with waiting := by intro h; cases h }
  exact ⟨hg.causal.unpend uid, hg.paced.unpend uid, hagree, outlines_unpend g uid ▸ htidy⟩

/-- A node that waits is linked to nothing. -/
theorem waiting_of_pending {uid : NodeId} {n : Node} (hg : g.Coherent) (hn : g.node? uid = some n)
    (huid : uid ∈ g.pending) : (∀ a, ¬ n.FedBy a) ∧ ∀ target, n.kind ≠ .controlFlow target :=
  (hg.tidy hn).waiting ((hg.paced.awaiting_iff hn).mpr huid)

theorem linkable_unpend {uid : NodeId} (hg : g.Coherent) (huid : uid ∈ g.pending) :
    (g.unpend uid).Linkable uid := by
  intro n hn
  rw [node?_unpend, if_pos rfl] at hn
  obtain ⟨m, hm, rfl⟩ := Option.map_eq_some_iff.mp hn
  exact ⟨rfl, fun target l _ hkind => absurd hkind ((hg.waiting_of_pending hm huid).2 target)⟩

theorem finish {uid : NodeId} (hg : g.Coherent) (host : Host) (huid : uid ∈ g.pending) :
    (finish host g uid).value.Coherent := by
  rw [finish_value]
  exact (hg.unpend uid).searched (hg.linkable_unpend huid)
    (searched_runEdgeSearch host (hg.unpend uid).causal.formed uid)

theorem nodup_pendingWhere (hg : g.Coherent) (p : Node → Bool) : (g.pendingWhere p).Nodup :=
  (hg.paced.increasing.imp fun h => Nat.ne_of_lt h).filter _

theorem flushWhere (hg : g.Coherent) (host : Host) (p : Node → Bool) :
    (g.flushWhere host p).value.Coherent := by
  rw [flushWhere_value]
  exact finishAll_induction host (P := Coherent) (fun g hg => hg.causal.formed)
    (fun g uid hg huid => hg.finish host huid) (hg.nodup_pendingWhere p)
    (fun uid huid => List.mem_of_mem_filter huid) hg

theorem supply {uid : NodeId} {o : Options} {opcode : Opcode} {result : Value}
    {state : Option String} {n : Node} (hg : g.Coherent) (hn : g.node? uid = some n)
    (hunfed : ∀ a, ¬ n.FedBy a) (hkind : n.kind ≠ .exit) (hwait : n.awaiting = false) :
    (g.update uid (Graph.supply o opcode result state)).Coherent := by
  have hcores : (g.update uid (Graph.supply o opcode result state)).cores = g.cores :=
    cores_update (by intro m _; rfl)
  refine ⟨hg.causal.update_quiet fun m _ => ⟨rfl, fun a ha => fedBy_of_supply ha⟩,
    hg.paced.congr hcores rfl, hg.agree_update (by intro m _; rfl) ?_, ?_⟩
  · intro m hm a
    rw [hn] at hm
    cases hm
    exact ⟨fedBy_of_supply, fun ha => absurd ha (hunfed a)⟩
  · rw [outlines_of_cores hcores]
    apply hg.tidy.update
    intro m hm htidy
    rw [hn] at hm
    cases hm
    refine { htidy with preds_nodup := ?_, exit_slot := ?_, waiting := ?_ }
    · intro t ht
      rcases slots_supply ht with ht | hnil
      · exact htidy.preds_nodup t ht
      · rw [hnil]
        exact List.nodup_nil
    · intro h
      exact absurd h hkind
    · intro hawait
      cases hwait.symm.trans hawait

/-- A node that gets its result can be linked. -/
theorem supplied {uid : NodeId} (hg : g.Coherent) (huid : uid ∈ g.pending) (o : Options)
    (opcode : Opcode) (result : Value) (state : Option String) :
    ((g.unpend uid).update uid (Graph.supply o opcode result state)).Coherent ∧
      ((g.unpend uid).update uid (Graph.supply o opcode result state)).Linkable uid := by
  obtain ⟨n, hn, hinstr, -⟩ := hg.paced.live huid
  obtain ⟨hunfed, hcontrol⟩ := hg.waiting_of_pending hn huid
  have hn' : (g.unpend uid).node? uid = some { n with awaiting := false } := by
    rw [node?_unpend, if_pos rfl, hn]
    rfl
  have hkind := hg.causal.formed.kind_ne_exit hn hinstr
  refine ⟨(hg.unpend uid).supply hn' hunfed hkind rfl, ?_⟩
  intro m hm
  rw [node?_update_self hn'] at hm
  cases hm
  exact ⟨rfl, fun target l _ hkind => absurd hkind (hcontrol target)⟩

theorem complete {host : Host} {function : String} {opcode : Opcode} {result : Value}
    {state : Option String} {uid : NodeId} (hg : g.Coherent)
    (h : (g.complete host function opcode result state).value = (.ok uid, g')) : g'.Coherent := by
  obtain ⟨hwait, rfl⟩ := complete_cases h
  have huid := (of_awaiting? hwait).1
  obtain ⟨hg', hlink⟩ := hg.supplied huid host.options opcode result state
  exact hg'.searched hlink (searched_runEdgeSearch host hg'.causal.formed uid)

/-- Outlines that are added change nothing for the nodes that are there. -/
theorem tidy_extend {os : Outlines} (hg : g.Coherent)
    (hos : ∀ i < g.outlines.size, os[i]? = g.outlines[i]?) : g.IsTidy os := by
  intro i n hn
  apply (hg.tidy hn).extend
  intro e he
  obtain ⟨x, hx, -⟩ := hg.agree.mp ((flows_iff hn).mpr he)
  exact hos e (size_outlines g ▸ lt_size_of_node? hx)

theorem withFunction (hg : g.Coherent) (o : Options) (function : String) :
    (g.withFunction o function).value.1.Coherent := by
  have hold : ∀ {i : NodeId} {n : Node}, g.node? i = some n →
      (g.withFunction o function).value.1.node? i = some n :=
    fun hn => node?_withFunction_of_some hn o function
  refine ⟨hg.causal.withFunction o function, hg.paced.withFunction o function, ?_, ?_⟩
  · intro a b
    rw [flows_withFunction, feeds_withFunction, hg.agree]
  · intro i n hn
    rcases node?_withFunction hn with hn | ⟨-, kind, hkind, rfl⟩
    · refine hg.tidy_extend ?_ hn
      intro j hj
      obtain ⟨m, hm⟩ := exists_node?_of_lt (size_outlines g ▸ hj)
      rw [outlines_of_node? hm, outlines_of_node? (hold hm)]
    · refine .fresh (fun s hs => preds_fresh hs) ?_ (Or.inl ⟨?_, rfl⟩) (fun _ => ⟨_, rfl⟩) ?_
      · rcases hkind with rfl | rfl <;> rfl
      · rcases hkind with rfl | rfl <;> rfl
      · intro hawait
        cases hawait

/-- A node arrives when nothing of its call waits. -/
theorem arrive {o : Options} {s : Sentinels} {a : Arrival} {category : Category} (hg : g.Coherent)
    (hs : g.sentinels? a.function = some s)
    (hfree : ∀ i ∈ g.pending, ∀ m, g.node? i = some m →
      ¬(m.function = a.function ∧ m.tx? = some a.tx))
    (hkind : (g.nodeOf o s a category).awaiting = true →
      ∀ target, a.kind category ≠ .controlFlow target) :
    (g.arrive (g.nodeOf o s a category) s.exit).Coherent := by
  obtain ⟨-, -, hexit⟩ := hg.causal.formed.of_sentinels? hs
  obtain ⟨x, hx, hxout⟩ := node?_of_outlines hexit
  obtain ⟨hxkind, hxbare⟩ := Node.of_outline_exit hxout
  obtain ⟨t, ht⟩ := (hg.tidy hx).exit_slot hxkind
  have hlt := lt_size_of_node? hx
  obtain ⟨-, hnexit, hnlive⟩ := a.kind_ne category
  have hlive : (g.nodeOf o s a category).isDeleted = false := decide_eq_false hnlive
  have hfresh : ∀ b, ¬ (g.nodeOf o s a category).FedBy b := not_fedBy_fresh rfl
  refine ⟨hg.causal.arrive hs category, hg.paced.arrive hg.causal.formed hs hfree category, ?_, ?_⟩
  · intro b c
    rw [flows_arrive hlt rfl, feeds_arrive rfl hfresh hx (by simp [ht]), hg.agree]
  · have htidy : g.IsTidy (g.arrive (g.nodeOf o s a category) s.exit).outlines := by
      apply hg.tidy_extend
      intro i hi
      rw [outlines_arrive, Array.getElem?_push, if_neg (Nat.ne_of_lt hi)]
    intro i n hn
    rw [node?_arrive hlt] at hn
    split_ifs at hn with hi hix
    · cases hn
      refine .fresh (fun t ht => preds_fresh ht) hlive (Or.inr ⟨s.exit, rfl⟩) ?_ hkind
      intro h
      exact absurd h hnexit
    · obtain ⟨y, hy, rfl⟩ := Option.map_eq_some_iff.mp hn
      rw [hix, hx] at hy
      cases hy
      refine (htidy hx).addPred (s := t) (by simp [ht]) ?_
        (hg.not_awaiting_of_bare hx hxbare)
      intro hmem
      obtain ⟨m, hm, -⟩ := hg.agree.mpr ⟨x, hx, t, by simp [ht], hmem⟩
      exact Nat.lt_irrefl _ (lt_size_of_node? hm)
    · exact htidy hn

/-- A node that has just arrived can be linked, unless it waits. -/
theorem linkable_arrive {o : Options} {s : Sentinels} {a : Arrival} {category : Category}
    (hg : g.Coherent) (hs : g.sentinels? a.function = some s)
    (hwait : (g.nodeOf o s a category).awaiting = false) :
    (g.arrive (g.nodeOf o s a category) s.exit).Linkable g.size := by
  have hformed := hg.causal.formed
  obtain ⟨-, hentry, hexit⟩ := hformed.of_sentinels? hs
  have hlt : s.exit < g.size := by
    obtain ⟨x, hx, -⟩ := node?_of_outlines hexit
    exact lt_size_of_node? hx
  intro n hn
  rw [node?_arrive hlt, if_pos rfl] at hn
  cases hn
  refine ⟨hwait, ?_⟩
  intro target l m hkind hl hm
  by_cases hnew : l = g.size
  · rw [node?_arrive hlt, if_pos hnew] at hm
    cases hm
    exact decide_eq_false (a.kind_ne category).2.2
  · have hleader : l = g.leaderFor s.entry a.function a.tx a.address := by
      simp only [Node.leader?, nodeOf, Option.map_some, Option.some.injEq] at hl
      split_ifs at hl
      · exact absurd hl.symm hnew
      · exact hl.symm
    have hold : ∃ k, g.node? l = some k ∧ k.isDeleted = false := by
      rw [hleader]
      rcases leaderFor_cases hformed s.entry a.function a.tx a.address with h |
        ⟨k, hk, -, -, hlive, -⟩
      · rw [h]
        obtain ⟨k, hk, hout⟩ := node?_of_outlines hentry
        refine ⟨k, hk, ?_⟩
        rw [Node.isDeleted, k.isEntry_iff.mp (congrArg Outline.isEntry hout)]
        rfl
      · exact ⟨k, hk, hlive⟩
    obtain ⟨k, hk, hlive⟩ := hold
    rw [node?_arrive hlt, if_neg hnew, hk] at hm
    split_ifs at hm <;> cases hm <;> exact hlive

theorem readyFor (hg : g.Coherent) (host : Host) (a : Arrival) : (g.readyFor host a).1.Coherent :=
  (hg.flushWhere host _).withFunction host.options a.function

/-- The node of an instruction arrives, and can be linked unless it waits. -/
theorem arrival {host : Host} {a : Arrival} {uid : NodeId} (hg : g.Coherent)
    (ha : a.category = .unknown) (h : (g.add host a).value = (.ok uid, g')) :
    let g₂ := (g.readyFor host a).1
    let s := (g.readyFor host a).2
    let n := g₂.nodeOf host.options s a a.opcode.category
    (g₂.arrive n s.exit).Coherent ∧ uid = g₂.size ∧
      g' = receive host a a.opcode.category g₂ s ∧
      (n.awaiting = false → (g₂.arrive n s.exit).Linkable g₂.size) := by
  obtain ⟨category, hcategory, huid, hg'⟩ := add_cases h
  have hs := hg.causal.sentinels?_readyFor host a
  have hg₂ := hg.readyFor host a
  have hopcode : a.opcode.category = category := by
    unfold Arrival.category? at hcategory
    rw [ha] at hcategory
    exact Except.ok.inj hcategory
  subst hopcode
  exact ⟨hg₂.arrive hs (fun _ hi _ hm => free_readyFor hg.causal.formed host a hi hm)
    fun hwait => Arrival.kind_of_isDeferred ha hcategory hwait, huid, hg',
    fun hwait => hg₂.linkable_arrive hs hwait⟩

theorem add {host : Host} {a : Arrival} {uid : NodeId} (hg : g.Coherent)
    (ha : a.category = .unknown) (h : (g.add host a).value = (.ok uid, g')) : g'.Coherent := by
  obtain ⟨hg₃, -, rfl, hlink⟩ := hg.arrival ha h
  rcases receive_cases host a a.opcode.category (g.readyFor host a).1 (g.readyFor host a).2 with
    heq | ⟨hwait, heq⟩
  · rw [heq]
    exact hg₃
  · rw [heq]
    exact hg₃.searched (hlink hwait) (searched_runEdgeSearch host hg₃.causal.formed _)

theorem discard (hg : g.Coherent) (uid : NodeId) : (g.discard uid).value.2.Coherent := by
  obtain hsame | ⟨n, hn, hsent, hlive, hremoved⟩ := g.discard_cases uid
  · rwa [hsame]
  · rw [hremoved]
    exact hg.detach hn hlive hsent

end Coherent
end Graph
end OperandFlow
