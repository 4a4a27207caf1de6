import OperandFlow.Proofs.Graph.Growth

/-! Waiting for results: the nodes that wait are listed in their order, and nothing of the same
call arrives while a node waits. -/
namespace OperandFlow.Graph

theorem pending_connect (g : Graph) (pred uid : NodeId) (slot : Nat) :
    (g.connect pred uid slot).pending = g.pending := by
  unfold connect
  dsimp only
  split <;> rfl

theorem Links.pending {g g₁ : Graph} {n : Node} (h : g.Links n g₁) : g₁.pending = g.pending := by
  obtain ⟨links, -, rfl⟩ := h
  apply linkAll_induction (P := fun g' => g'.pending = g.pending) rfl
  intro g' pred slot m s ih _ _ _ _ _
  rw [pending_connect, ih]

/-- Of a removed node the core is buried. -/
theorem cores_detach {g : Graph} (hg : Formed g.outlines) {uid : NodeId} {n : Node}
    (hn : g.node? uid = some n) (hsent : n.isSentinel = false) (i : NodeId) :
    (g.detach uid).pending = g.pending.filter (· ≠ uid) ∧
      (g.detach uid).cores[i]? = if i = uid then some n.core.bury else g.cores[i]? := by
  have hinstr := hg.instruction_ne_none hn hsent
  obtain ⟨s, hs, -, -⟩ := boundaries?_of_instruction hg hn hinstr
  rw [detach_eq hn hs]
  refine ⟨rfl, ?_⟩
  have hcores := cores_withdraw_releaseAll uid s.exit n.predecessors n.successors g
  obtain ⟨m, hm, hcore⟩ := node?_of_cores hcores hn
  change (Graph.update _ uid Node.bury).cores[i]? = _
  rw [getElem?_cores]
  by_cases hi : i = uid
  · subst hi
    rw [node?_update_self hm, if_pos rfl, ← hcore]
    rfl
  · rw [node?_update_of_ne hi, if_neg hi, ← getElem?_cores, hcores]

/-- The search for the edges of a node changes no core, unless it removes the node. -/
theorem Searched.cores_cases {g g' : Graph} {uid : NodeId} (h : g.Searched uid g')
    (hg : Formed g.outlines) :
    (g'.cores = g.cores ∧ g'.pending = g.pending) ∨
      ∃ n, g.node? uid = some n ∧ n.isSentinel = false ∧
        g'.pending = g.pending.filter (· ≠ uid) ∧
        ∀ i : NodeId, g'.cores[i]? = if i = uid then some n.core.bury else g.cores[i]? := by
  cases h with
  | unchanged => exact Or.inl ⟨rfl, rfl⟩
  | linked hn hlive hsent hlinks => exact Or.inl ⟨hlinks.cores, hlinks.pending⟩
  | removed hn hlive hsent hlinks =>
    right
    rename_i n g₁
    obtain ⟨m, hm, hcore⟩ := node?_of_cores hlinks.cores hn
    have hsent' : m.isSentinel = false := isSentinel_of_outlines hlinks.outlines hn hm ▸ hsent
    have hdetach := fun i => cores_detach (hlinks.outlines ▸ hg) hm hsent' i
    refine ⟨n, hn, hsent, ?_, ?_⟩
    · rw [(hdetach uid).1, hlinks.pending]
    · intro i
      rw [(hdetach i).2, hcore, hlinks.cores]
  | collapsed hn hlive hsent hlinks hm hs hrest =>
    refine Or.inl ⟨?_, hlinks.pending⟩
    rw [cores_update (by intro n _; rfl), hlinks.cores]

theorem Searched.outlines {g g' : Graph} {uid : NodeId} (h : g.Searched uid g')
    (hg : Formed g.outlines) : g'.outlines = g.outlines := by
  rcases h.cores_cases hg with ⟨hcores, -⟩ | ⟨n, hn, hsent, -, hcores⟩
  · exact outlines_of_cores hcores
  · apply Array.ext_getElem?
    intro i
    have hcore := congrArg (Option.map Node.outline) (hcores i)
    simp only [getElem?_cores, Option.map_map] at hcore
    rw [getElem?_outlines, getElem?_outlines]
    change Option.map (Node.outline ∘ Node.core) (g'.node? i) = _
    rw [hcore]
    split_ifs with hi
    · rw [hi, hn]
      exact congrArg some (Node.outline_bury (n := n.core) hsent)
    · rw [Option.map_map]
      rfl

/-- The search for the edges of a node that does not wait changes no wait. -/
theorem Searched.pending {g g' : Graph} {uid : NodeId} (h : g.Searched uid g')
    (hg : Formed g.outlines) (huid : uid ∉ g.pending) : g'.pending = g.pending := by
  rcases h.cores_cases hg with ⟨-, hpend⟩ | ⟨-, -, -, hpend, -⟩
  · exact hpend
  · rw [hpend, List.filter_eq_self]
    rintro i hi
    rw [decide_eq_true_eq]
    rintro rfl
    exact huid hi

/-- A node that is finished waits no longer. -/
theorem pending_finish (host : Host) {g : Graph} (hg : Formed g.outlines) (uid : NodeId) :
    (finish host g uid).value.pending = g.pending.filter (· ≠ uid) := by
  rw [finish_value]
  apply (searched_runEdgeSearch host (outlines_unpend g uid ▸ hg) uid).pending
    (outlines_unpend g uid ▸ hg)
  simp [unpend]

theorem outlines_finish (host : Host) {g : Graph} (hg : Formed g.outlines) (uid : NodeId) :
    (finish host g uid).value.outlines = g.outlines := by
  have hunpend := outlines_unpend g uid
  rw [finish_value, (searched_runEdgeSearch host (hunpend ▸ hg) uid).outlines (hunpend ▸ hg),
    hunpend]

/-- What the end of one wait keeps, the end of several keeps. -/
theorem finishAll_induction (host : Host) {P : Graph → Prop} {uids : List NodeId}
    (hformed : ∀ g, P g → Formed g.outlines)
    (step : ∀ g uid, P g → uid ∈ g.pending → P (finish host g uid).value)
    (hnodup : uids.Nodup) {g : Graph} (hsub : ∀ uid ∈ uids, uid ∈ g.pending) (hg : P g) :
    P (uids.foldl (fun g uid => (finish host g uid).value) g) := by
  induction uids generalizing g with
  | nil => exact hg
  | cons uid uids ih =>
    rw [List.nodup_cons] at hnodup
    rw [List.foldl_cons]
    apply ih hnodup.2 _ (step g uid hg (hsub uid List.mem_cons_self))
    intro i hi
    rw [pending_finish host (hformed g hg), List.mem_filter]
    refine ⟨hsub i (List.mem_cons_of_mem uid hi), ?_⟩
    rw [decide_eq_true_eq]
    rintro rfl
    exact hnodup.1 hi

/-- After a flush the others wait. -/
theorem pending_flushWhere (host : Host) (p : Node → Bool) {g : Graph} (hg : Formed g.outlines) :
    (g.flushWhere host p).value.pending = g.pending.filter (· ∉ g.pendingWhere p) := by
  have key : ∀ (uids : List NodeId) (g : Graph), Formed g.outlines →
      (uids.foldl (fun g uid => (finish host g uid).value) g).pending =
        g.pending.filter (· ∉ uids) := by
    intro uids
    induction uids with
    | nil => intro g _; simp
    | cons uid uids ih =>
      intro g hg
      rw [List.foldl_cons, ih _ (outlines_finish host hg uid ▸ hg), pending_finish host hg,
        List.filter_filter]
      apply List.filter_congr
      intro i _
      simp [Bool.and_comm]
  rw [flushWhere_value]
  exact key _ g hg

/-- After a flush nothing waits that was flushed. -/
theorem mem_pending_flushWhere {host : Host} {p : Node → Bool} {g : Graph}
    (hg : Formed g.outlines) {i : NodeId} (hi : i ∈ (g.flushWhere host p).value.pending) :
    i ∈ g.pending ∧ i ∉ g.pendingWhere p := by
  rwa [pending_flushWhere host p hg, List.mem_filter, decide_eq_true_eq] at hi

theorem outlines_flushWhere (host : Host) (p : Node → Bool) {g : Graph} (hg : Formed g.outlines) :
    (g.flushWhere host p).value.outlines = g.outlines := by
  rw [flushWhere_value]
  apply List.foldlRecOn (g.pendingWhere p) (motive := fun g' : Graph => g'.outlines = g.outlines)
    _ rfl
  intro g' ih uid _
  rw [outlines_finish host (ih ▸ hg), ih]

/-- Nothing of a call waits when a node of it arrives. -/
theorem free_readyFor {g : Graph} (hg : Formed g.outlines) (host : Host) (a : Arrival) {i : NodeId}
    {m : Node} (hi : i ∈ (g.readyFor host a).1.pending)
    (hm : (g.readyFor host a).1.node? i = some m) :
    ¬(m.function = a.function ∧ m.tx? = some a.tx) := by
  rintro ⟨hfun, htx⟩
  unfold readyFor at hi hm
  rw [pending_withFunction] at hi
  obtain ⟨hpend, hnot⟩ := mem_pending_flushWhere hg hi
  rcases node?_withFunction hm with hm | ⟨-, kind, -, rfl⟩
  · have hout := outlines_of_node? hm
    rw [outlines_flushWhere host _ hg] at hout
    obtain ⟨n, hn, hout⟩ := node?_of_outlines hout
    have hfun' : n.function = a.function := (congrArg Outline.function hout).trans hfun
    have htx' : n.tx? = some a.tx := (congrArg Outline.tx? hout).trans htx
    exact hnot (List.mem_filter.mpr ⟨hpend, by simp [hn, hfun', htx']⟩)
  · cases htx

/-- The waiting nodes are live instructions in their order, and nothing of their calls comes
after them. -/
structure Paced (g : Graph) : Prop where
  increasing : g.pending.Pairwise (· < ·)
  awaiting_iff : ∀ {i : NodeId} {n : Node}, g.node? i = some n →
    (n.awaiting = true ↔ i ∈ g.pending)
  live : ∀ {i : NodeId}, i ∈ g.pending →
    ∃ n, g.node? i = some n ∧ n.instruction ≠ none ∧ n.isDeleted = false
  last : ∀ {i b : NodeId}, i ∈ g.pending → ¬ Precedes g.outlines i b

theorem paced_empty : empty.Paced where
  increasing := List.Pairwise.nil
  awaiting_iff := by
    intro i n hn
    cases hn
  live := by
    intro i hi
    cases hi
  last := by
    intro i b hi
    cases hi

namespace Paced

variable {g g' : Graph}

theorem lt_size (hg : g.Paced) {i : NodeId} (hi : i ∈ g.pending) : i < g.size := by
  obtain ⟨n, hn, -⟩ := hg.live hi
  exact lt_size_of_node? hn

/-- Some nodes wait no longer, and the others keep their cores. -/
theorem shrink {p : NodeId → Bool} (hg : g.Paced) (hout : g'.outlines = g.outlines)
    (hpend : g'.pending = g.pending.filter p)
    (hkept : ∀ i : NodeId, p i = true → g'.cores[i]? = g.cores[i]?)
    (hgone : ∀ i n, p i = false → g'.node? i = some n → n.awaiting = false) : g'.Paced := by
  constructor
  case increasing => exact hpend ▸ hg.increasing.filter p
  case awaiting_iff =>
    intro i n hn
    rw [hpend, List.mem_filter]
    cases hp : p i with
    | false => simp [hgone i n hp hn]
    | true =>
      have hcore := hkept i hp
      rw [getElem?_cores, getElem?_cores, hn] at hcore
      obtain ⟨m, hm, hcore⟩ := Option.map_eq_some_iff.mp hcore.symm
      simp [← hg.awaiting_iff hm, (Node.of_core hcore).2.2]
  case live =>
    intro i hi
    rw [hpend, List.mem_filter] at hi
    obtain ⟨n, hn, hinstr, hlive⟩ := hg.live hi.1
    have hcore := hkept i hi.2
    rw [getElem?_cores, getElem?_cores, hn] at hcore
    obtain ⟨m, hm, hcore⟩ := Option.map_eq_some_iff.mp hcore
    obtain ⟨hinstr', hkind, -⟩ := Node.of_core hcore
    refine ⟨m, hm, hinstr' ▸ hinstr, ?_⟩
    rwa [Node.isDeleted, hkind]
  case last =>
    intro i b hi
    rw [hpend, List.mem_filter] at hi
    rw [hout]
    exact hg.last hi.1

theorem congr (hg : g.Paced) (hcores : g'.cores = g.cores) (hpend : g'.pending = g.pending) :
    g'.Paced := by
  apply hg.shrink (p := fun _ => true) (outlines_of_cores hcores) (by simp [hpend])
  · intro i _
    rw [hcores]
  · intro i n h
    cases h

theorem searched {uid : NodeId} (hg : g.Paced) (hformed : Formed g.outlines)
    (h : g.Searched uid g') : g'.Paced := by
  rcases h.cores_cases hformed with ⟨hcores, hpend⟩ | ⟨n, hn, hsent, hpend, hcores⟩
  · exact hg.congr hcores hpend
  · apply hg.shrink (h.outlines hformed) hpend
    · intro i hi
      rw [hcores, if_neg (by simpa using hi)]
    · intro i m hi hm
      have hcore := hcores i
      rw [getElem?_cores, hm, if_pos (by simpa using hi)] at hcore
      exact (Node.of_core (n := n.bury) (Option.some.inj hcore)).2.2

theorem unpend (hg : g.Paced) (uid : NodeId) : (g.unpend uid).Paced := by
  apply hg.shrink (outlines_unpend g uid) rfl
  · intro i hi
    rw [getElem?_cores, getElem?_cores, node?_unpend, if_neg (by simpa using hi)]
  · intro i n hi hn
    rw [node?_unpend, if_pos (by simpa using hi)] at hn
    obtain ⟨m, -, rfl⟩ := Option.map_eq_some_iff.mp hn
    rfl

theorem withFunction (hg : g.Paced) (o : Options) (function : String) :
    (g.withFunction o function).value.1.Paced := by
  have hold : ∀ i < g.outlines.size,
      (g.withFunction o function).value.1.outlines[i]? = g.outlines[i]? := by
    intro i hi
    obtain ⟨n, hn⟩ := exists_node?_of_lt (size_outlines g ▸ hi)
    rw [outlines_of_node? hn, outlines_of_node? (node?_withFunction_of_some hn o function)]
  constructor
  case increasing =>
    rw [pending_withFunction]
    exact hg.increasing
  case awaiting_iff =>
    intro i n hn
    rw [pending_withFunction]
    rcases node?_withFunction hn with hn | ⟨hle, kind, -, rfl⟩
    · exact hg.awaiting_iff hn
    · have hnot : i ∉ g.pending := fun hi => Nat.not_lt.mpr hle (hg.lt_size hi)
      simp [sentinel, hnot]
  case live =>
    intro i hi
    rw [pending_withFunction] at hi
    obtain ⟨n, hn, hlive⟩ := hg.live hi
    exact ⟨n, node?_withFunction_of_some hn o function, hlive⟩
  case last =>
    intro i b hi hprec
    rw [pending_withFunction] at hi
    obtain ⟨-, p, q, -, hq, -, -, hinstr, -⟩ := id hprec
    obtain ⟨n, hn, rfl⟩ := node?_of_outlines hq
    rcases node?_withFunction hn with hn | ⟨-, kind, -, rfl⟩
    · exact hg.last hi (hprec.restrict hold (size_outlines g ▸ lt_size_of_node? hn))
    · exact hinstr rfl

theorem mem_pending_arrive {n : Node} {i : NodeId} (exit : NodeId) (huid : n.uid = g.size) :
    i ∈ (g.arrive n exit).pending ↔ i ∈ g.pending ∨ (n.awaiting = true ∧ i = g.size) := by
  unfold Graph.arrive
  rw [List.mem_append, ← huid]
  split_ifs with hawait <;> simp [hawait]

/-- The node of an instruction arrives, and waits perhaps, when nothing of its call waits. -/
theorem arrive {o : Options} {s : Sentinels} {a : Arrival} (hg : g.Paced)
    (hformed : Formed g.outlines) (hs : g.sentinels? a.function = some s)
    (hfree : ∀ i ∈ g.pending, ∀ m, g.node? i = some m →
      ¬(m.function = a.function ∧ m.tx? = some a.tx)) (category : Category) :
    (g.arrive (g.nodeOf o s a category) s.exit).Paced := by
  obtain ⟨-, -, hx⟩ := hformed.of_sentinels? hs
  have hexit : s.exit < g.size := size_outlines g ▸ (Array.getElem?_eq_some_iff.mp hx).1
  have hlive : (g.nodeOf o s a category).isDeleted = false :=
    decide_eq_false (a.kind_ne category).2.2
  have hinstr : (g.nodeOf o s a category).instruction ≠ none := by simp [nodeOf]
  have huid : (g.nodeOf o s a category).uid = g.size := rfl
  have hfun : (g.nodeOf o s a category).function = a.function := rfl
  have htx : (g.nodeOf o s a category).tx? = some a.tx := rfl
  generalize g.nodeOf o s a category = n at *
  constructor
  case increasing =>
    unfold Graph.arrive
    rw [List.pairwise_append]
    refine ⟨hg.increasing, ?_, ?_⟩
    · split_ifs <;> simp
    · intro i hi j hj
      split_ifs at hj
      · rw [List.mem_singleton, huid] at hj
        exact hj ▸ hg.lt_size hi
      · cases hj
  case awaiting_iff =>
    intro i m hm
    rw [mem_pending_arrive s.exit huid]
    rw [node?_arrive hexit] at hm
    split_ifs at hm with hi hx
    · cases hm
      subst hi
      have hnot : g.size ∉ g.pending := fun h => Nat.lt_irrefl _ (hg.lt_size h)
      simp [hnot]
    · obtain ⟨k, hk, rfl⟩ := Option.map_eq_some_iff.mp hm
      simpa [hi, Node.addPred] using hg.awaiting_iff hk
    · simpa [hi] using hg.awaiting_iff hm
  case live =>
    intro i hi
    rw [node?_arrive hexit]
    rcases (mem_pending_arrive s.exit huid).mp hi with hi | ⟨-, rfl⟩
    · obtain ⟨m, hm, hlive⟩ := hg.live hi
      rw [if_neg (Nat.ne_of_lt (hg.lt_size hi)), hm]
      split_ifs
      · exact ⟨_, rfl, hlive⟩
      · exact ⟨m, rfl, hlive⟩
    · rw [if_pos rfl]
      exact ⟨n, rfl, hinstr, hlive⟩
  case last =>
    intro i b hi hprec
    rw [outlines_arrive] at hprec
    obtain ⟨hlt, -, q, -, hq, -⟩ := id hprec
    have hle : b ≤ g.size := by
      have := (Array.getElem?_eq_some_iff.mp hq).1
      rw [Array.size_push, size_outlines] at this
      exact Nat.le_of_lt_succ this
    rcases (mem_pending_arrive s.exit huid).mp hi with hi | ⟨-, rfl⟩
    · rcases Nat.lt_or_eq_of_le hle with hb | rfl
      · refine hg.last hi (hprec.restrict ?_ (size_outlines g ▸ hb))
        intro j hj
        rw [Array.getElem?_push, if_neg (Nat.ne_of_lt hj)]
      · obtain ⟨-, p, q, hp, hq, hsame, -, -, hcall⟩ := hprec
        obtain ⟨m, hm, hminstr, -⟩ := hg.live hi
        rw [Array.getElem?_push, size_outlines, if_neg (Nat.ne_of_lt (lt_size_of_node? hm)),
          outlines_of_node? hm] at hp
        cases hp
        rw [← size_outlines, Array.getElem?_push_size] at hq
        cases hq
        refine hfree i hi m hm ⟨hsame.trans hfun, (hcall.resolve_left ?_).trans htx⟩
        intro hentry
        exact hminstr ((hformed.bare_iff (outlines_of_node? hm)).mpr (Or.inl hentry))
    · exact Nat.lt_irrefl _ (Nat.lt_of_lt_of_le hlt hle)

end Paced
end OperandFlow.Graph
