import OperandFlow.Proofs.Graph.Stability
import OperandFlow.Proofs.Links

/-! Results never change: whatever a host reports later, a settled node stays as it is, and so do
the origins of its values. -/
namespace OperandFlow.Graph

/-- From `g` to `g'` the settled nodes stay as they are. -/
def Retains (g g' : Graph) : Prop :=
  ∀ i, g.Settled i → g.Keeps g' i ∧ g'.Settled i

theorem Retains.refl (g : Graph) : g.Retains g := fun i hi => ⟨.refl g i, hi⟩

theorem Retains.trans {g g₁ g₂ : Graph} (h : g.Retains g₁) (h₁ : g₁.Retains g₂) :
    g.Retains g₂ := by
  intro i hi
  obtain ⟨hkeeps, hi₁⟩ := h i hi
  obtain ⟨hkeeps₁, hi₂⟩ := h₁ i hi₁
  exact ⟨hkeeps.trans hkeeps₁, hi₂⟩

theorem Coherent.retains {host : Host} {g g' : Graph} (hg : g.Coherent)
    (h : g.Traced host g') : g.Retains g' := by
  have hg' := hg.traced h
  intro i hi
  have hpend := hi.not_pending hg.paced
  have hkeeps : g.Keeps g' i := by
    cases h with
    | add ha h => exact Keeps.add hg ha h hpend
    | complete h => exact Keeps.complete hg h hpend
    | flush function => exact Keeps.flushWhere hg host _ hpend
  exact ⟨hkeeps, hi.keeps hg' hkeeps⟩

theorem fedBy_of_mem_writesOf {n : Node} {w : NodeId} (h : w ∈ writesOf n) : n.FedBy w := by
  unfold writesOf at h
  split_ifs at h
  · exact Node.fedBy_of_mem_predsAt h
  · cases h

/-- A search goes on behind a node at what supplies it, or supplies what it read. -/
theorem mem_behind {g : Graph} {n : Node} {p : NodeId} (h : p ∈ g.behind n) :
    n.FedBy p ∨ ∃ w m, n.FedBy w ∧ g.node? w = some m ∧ m.FedBy p := by
  unfold behind at h
  split_ifs at h with hnone hload
  · exact Or.inl (Node.fedBy_of_mem_predsAt h)
  · obtain ⟨s, hs, hp⟩ := List.mem_flatMap.mp h
    exact Or.inl ⟨s, hs, hp⟩
  · obtain ⟨w, hw, hp⟩ := List.mem_flatMap.mp h
    unfold writtenFrom at hp
    cases hm : g.node? w with
    | none => simp [hm] at hp
    | some m =>
      rw [hm] at hp
      exact Or.inr ⟨w, m, fedBy_of_mem_writesOf hw, hm, Node.fedBy_of_mem_predsAt hp⟩

theorem Coherent.settled_of_mem_behind {g : Graph} {i p : NodeId} {n : Node} (hg : g.Coherent)
    (hn : g.node? i = some n) (hkind : n.kind ≠ .exit) (hp : p ∈ g.behind n) : g.Settled p := by
  rcases mem_behind hp with hfed | ⟨w, m, hw, hm, hfed⟩
  · obtain ⟨k, hk, hwait, -⟩ := hg.settled_of_fedBy hn hkind hfed
    exact ⟨k, hk, hwait⟩
  · obtain ⟨m', hm', -, hmkind⟩ := hg.settled_of_fedBy hn hkind hw
    rw [hm] at hm'
    cases hm'
    obtain ⟨k, hk, hwait, -⟩ := hg.settled_of_fedBy hm hmkind hfed
    exact ⟨k, hk, hwait⟩

section Origins

variable {g g' : Graph} (hg : g.Coherent) (h : g.Retains g')
include hg h

theorem writtenFrom_retains {i w : NodeId} {n : Node} (hn : g.node? i = some n)
    (hkind : n.kind ≠ .exit) (hw : n.FedBy w) : g'.writtenFrom w = g.writtenFrom w := by
  obtain ⟨m, hm, hwait, hmkind⟩ := hg.settled_of_fedBy hn hkind hw
  obtain ⟨k, hk, -, hsame⟩ := (h w ⟨m, hm, hwait⟩).1 m hm
  unfold writtenFrom
  rw [hk, hm, hsame hmkind]
  rfl

theorem isOrigin_retains {i : NodeId} {n : Node} (hn : g.node? i = some n)
    (hwait : n.awaiting = false) (hkind : n.kind ≠ .exit) : g'.isOrigin i = g.isOrigin i := by
  obtain ⟨k, hk, -, hsame⟩ := (h i ⟨n, hn, hwait⟩).1 n hn
  have hpreds : k.predecessors = n.predecessors := by
    rw [hsame hkind]
    rfl
  unfold isOrigin
  rw [hk, hn, Option.map_some, Option.map_some, hpreds]
  split
  · rfl
  · rename_i only honly
    have hfed : n.FedBy only := by
      rw [← n.mem_predecessors, Option.some.inj honly]
      exact List.mem_singleton_self only
    obtain ⟨m, hm, hmwait, -⟩ := hg.settled_of_fedBy hn hkind hfed
    obtain ⟨l, hl, hlkind, -⟩ := (h only ⟨m, hm, hmwait⟩).1 m hm
    rw [hl, hm, Option.any_some, Option.any_some, Node.isEntry, Node.isEntry, hlkind]
  · rfl

theorem constantWritesOf_retains {i : NodeId} {n : Node} (hn : g.node? i = some n)
    (hkind : n.kind ≠ .exit) : g'.constantWritesOf n = g.constantWritesOf n := by
  unfold constantWritesOf
  apply List.filter_congr
  intro w hw
  rw [writtenFrom_retains hg h hn hkind (fedBy_of_mem_writesOf hw)]

theorem behind_retains {i : NodeId} {n : Node} (hn : g.node? i = some n)
    (hkind : n.kind ≠ .exit) : g'.behind n = g.behind n := by
  have hwrites : (writesOf n).map g'.writtenFrom = (writesOf n).map g.writtenFrom := by
    apply List.map_congr_left
    intro w hw
    exact writtenFrom_retains hg h hn hkind (fedBy_of_mem_writesOf hw)
  unfold behind
  rw [List.flatMap_def, List.flatMap_def, List.flatMap_def, hwrites]

/-- A visit to a settled node finds the same, and goes on to settled nodes. -/
theorem visitOrigin_retains (found : Origins) {i : NodeId} (hi : g.Settled i) :
    g'.visitOrigin found i = g.visitOrigin found i ∧
      ∀ p ∈ (g.visitOrigin found i).2, g.Settled p := by
  obtain ⟨n, hn, hwait⟩ := hi
  obtain ⟨k, hk, hkkind, hsame⟩ := (h i ⟨n, hn, hwait⟩).1 n hn
  have hends : endsSearch k = endsSearch n := by
    unfold endsSearch Node.isSentinel Node.isDeleted
    rw [hkkind]
  unfold visitOrigin
  simp only [hn, hk, hends]
  by_cases hend : endsSearch n = true
  · simp [hend]
  · have hkind : n.kind ≠ .exit := by
      intro hexit
      simp [endsSearch, Node.isSentinel, hexit] at hend
    have hcount : found.count k = found.count n := by
      rw [hsame hkind]
      rfl
    have hwrites : g'.constantWritesOf k = g.constantWritesOf n := by
      rw [← constantWritesOf_retains hg h hn hkind, hsame hkind]
      rfl
    have hbehind : g'.behind k = g.behind n := by
      rw [← behind_retains hg h hn hkind, hsame hkind]
      rfl
    rw [if_neg hend, if_neg hend, isOrigin_retains hg h hn hwait hkind, hcount, hwrites, hbehind]
    refine ⟨rfl, ?_⟩
    split_ifs
    · simp
    · exact fun p hp => hg.settled_of_mem_behind hn hkind hp

theorem searchOrigins_retains (left : Nat) (s : OriginSearch) (queue : List (NodeId × Nat))
    (hqueue : ∀ q ∈ queue, g.Settled q.1) :
    g'.searchOrigins left s queue = g.searchOrigins left s queue := by
  induction left generalizing s queue with
  | zero => cases queue <;> rfl
  | succ left ih =>
    cases queue with
    | nil => rfl
    | cons q queue =>
      have hrest : ∀ r ∈ queue, g.Settled r.1 := fun r hr => hqueue r (List.mem_cons_of_mem q hr)
      obtain ⟨hvisit, hnext⟩ := visitOrigin_retains hg h s.found (hqueue q List.mem_cons_self)
      unfold searchOrigins
      dsimp only
      split_ifs
      · exact ih _ _ hrest
      · rw [hvisit]
        apply ih
        intro r hr
        rcases List.mem_append.mp hr with hr | hr
        · exact hrest r hr
        · obtain ⟨p, hp, rfl⟩ := List.mem_map.mp hr
          exact hnext p hp

theorem origins_retains (host : Host) (seeds : List NodeId) (limit : Nat)
    (hseeds : ∀ i ∈ seeds, g.Settled i) :
    (g'.origins host seeds limit).value = (g.origins host seeds limit).value := by
  rw [origins_value, origins_value, searchOrigins_retains hg h]
  intro q hq
  obtain ⟨i, hi, rfl⟩ := List.mem_map.mp hq
  exact hseeds i hi

end Origins
end OperandFlow.Graph

namespace OperandFlow.Analysis

theorem Grows.retains {s t : Analysis} (h : s.Grows t) (hs : s.graph.Coherent) :
    s.graph.Retains t.graph := by
  have key := h.induction (P := fun g => g.Coherent ∧ s.graph.Retains g) ⟨hs, .refl _⟩
    fun _ _ hg htraced => ⟨hg.1.traced htraced, hg.2.trans (hg.1.retains htraced)⟩
  exact key.2

/-- After any orderly session, whatever is reported then, a node that does not wait and is no exit
keeps what it is and what supplies it, and origins stay the same. -/
theorem results_stable (host : Host) (actions more : List Action)
    (h : ∀ action ∈ actions, action.isOrderly = true)
    (hmore : ∀ action ∈ more, action.isTracing = true) :
    let s := (start host).performAll actions
    let t := s.performAll more
    (∀ i n, s.graph.node? i = some n → n.awaiting = false → n.kind ≠ .exit →
      ∃ m, t.graph.node? i = some m ∧ m.kind = n.kind ∧ m.slots = n.slots ∧
        m.leader? = n.leader? ∧ m.output = n.output) ∧
    ∀ seeds limit, (∀ i ∈ seeds, ∃ n, s.graph.node? i = some n ∧ n.awaiting = false) →
      (t.origins seeds limit).1 = (s.origins seeds limit).1 := by
  intro s t
  have hs : s.graph.Coherent := coherent_performAll host h
  have hgrows : s.Grows t := s.grows_performAll hmore
  have hretains : s.graph.Retains t.graph := hgrows.retains hs
  refine ⟨?_, ?_⟩
  · intro i n hn hwait hkind
    obtain ⟨m, hm, hmkind, hsame⟩ := (hretains i ⟨n, hn, hwait⟩).1 n hn
    have hm' := hsame hkind
    exact ⟨m, hm, hmkind, by rw [hm'], by rw [hm']; rfl, by rw [hm']⟩
  · intro seeds limit hseeds
    change (t.graph.origins t.host seeds limit).value = (s.graph.origins s.host seeds limit).value
    rw [hgrows.1]
    exact Graph.origins_retains hs hretains s.host seeds limit hseeds

/-- The caller stays what it was when it is stored. -/
theorem results_stable_storeOfCaller :
    (∀ action ∈ storeOfCaller.take 2, action.isOrderly = true) ∧
      (∀ action ∈ storeOfCaller.drop 2, action.isTracing = true) ∧
      let s := (start ⟨{}, .text, 0⟩).performAll (storeOfCaller.take 2)
      let t := s.performAll (storeOfCaller.drop 2)
      ∃ n m, s.graph.node? 2 = some n ∧ n.awaiting = false ∧ n.kind ≠ .exit ∧
        t.graph.node? 2 = some m ∧ m.kind = n.kind ∧ m.slots = n.slots ∧
        m.leader? = n.leader? ∧ m.output = n.output ∧ n.output ≠ none ∧
        m.successors ≠ n.successors ∧ (t.origins [2] 5).1 = (s.origins [2] 5).1 ∧
        (t.origins [2] 5).1.ids = [2] := by
  have horderly : ∀ action ∈ storeOfCaller.take 2, action.isOrderly = true := by decide
  have htracing : ∀ action ∈ storeOfCaller.drop 2, action.isTracing = true := by decide
  refine ⟨horderly, htracing, ?_⟩
  intro s t
  obtain ⟨hkept, horigins⟩ := results_stable ⟨{}, .text, 0⟩ _ _ horderly htracing
  obtain ⟨n, hn⟩ : ∃ n, s.graph.node? 2 = some n := Option.isSome_iff_exists.mp (by decide +kernel)
  have hcaller : (s.graph.node? 2).any fun n =>
      !n.awaiting && n.kind ≠ .exit && n.output ≠ none && n.successors = [1] := by decide +kernel
  simp only [hn, Option.any_some, Bool.and_eq_true, decide_eq_true_eq, Bool.not_eq_true'] at hcaller
  obtain ⟨⟨⟨hwait, hkind⟩, houtput⟩, hsucc⟩ := hcaller
  obtain ⟨m, hm, rest⟩ := hkept 2 n hn hwait hkind
  change t.graph.node? 2 = some m at hm
  have hstored : (t.graph.node? 2).any fun m => m.successors = [3] := by decide +kernel
  simp only [hm, Option.any_some, decide_eq_true_eq] at hstored
  have hseeds : ∀ i ∈ [2], ∃ n, s.graph.node? i = some n ∧ n.awaiting = false := by
    simpa using ⟨n, hn, hwait⟩
  refine ⟨n, m, hn, hwait, hkind, hm, rest.1, rest.2.1, rest.2.2.1, rest.2.2.2, houtput, ?_,
    horigins [2] 5 hseeds, by decide +kernel⟩
  simp [hstored, hsucc]

end OperandFlow.Analysis
