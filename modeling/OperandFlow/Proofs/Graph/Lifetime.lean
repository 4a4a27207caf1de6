import OperandFlow.Proofs.Graph.Moves

/-! The lifetime of a node. It keeps its identity, is removed at most once, and gets its result at
most once, while it waits. -/
namespace OperandFlow

/-- What can become of the node `n`. -/
structure Node.Evolves (n m : Node) : Prop where
  uid : m.uid = n.uid
  function : m.function = n.function
  instruction : m.instruction = n.instruction
  kind : m.kind = n.kind ∨ (n.isSentinel = false ∧ m.kind = .deleted)
  awaiting : m.awaiting = true → n.awaiting = true
  output : m.output = n.output ∨
    (n.isDeleted = false ∧ n.awaiting = true ∧ n.output = none ∧ m.awaiting = false)
  /-- Only a mask loses slots, and keeps one then. -/
  slots : m.slots.length = n.slots.length ∨
    (n.opcode?.any Opcode.isMask = true ∧ m.slots.length = 1 ∧ 1 ≤ n.slots.length)

/-- What a node is like when it is made. -/
structure Node.Begins (n : Node) : Prop where
  output : n.output = none
  awaiting : n.awaiting = true → n.opcode?.any Opcode.reportsResult = true
  slots : 1 ≤ n.slots.length
  storage : n.opcode?.any Opcode.isStorage = true → n.slots.length = 2
  bare : n.instruction = none → n.slots.length = 1

namespace Node.Evolves

variable {n m k : Node}

/-- Only edges changed. -/
theorem of_core (hcore : m.core = n.core) (houtput : m.output = n.output)
    (hslots : m.slots.length = n.slots.length) : n.Evolves m where
  uid := (congrArg Node.uid hcore :)
  function := (congrArg Node.function hcore :)
  instruction := (congrArg Node.instruction hcore :)
  kind := Or.inl (congrArg Node.kind hcore :)
  awaiting := (congrArg Node.awaiting hcore :).symm.trans
  output := Or.inl houtput
  slots := Or.inl hslots

theorem refl (n : Node) : n.Evolves n := of_core rfl rfl rfl

theorem isDeleted_eq_false (h : n.Evolves m) (hm : m.isDeleted = false) : n.isDeleted = false := by
  have hm : m.kind ≠ .deleted := of_decide_eq_false hm
  rcases h.kind with hkind | ⟨-, hkind⟩
  · exact decide_eq_false (hkind ▸ hm)
  · exact absurd hkind hm

theorem isSentinel_eq (h : n.Evolves m) : m.isSentinel = n.isSentinel := by
  unfold isSentinel
  rcases h.kind with hkind | ⟨hsent, hkind⟩
  · rw [hkind]
  · rw [isSentinel] at hsent
    rw [hsent, hkind]
    rfl

theorem opcode?_eq (h : n.Evolves m) : m.opcode? = n.opcode? := by
  rw [opcode?, opcode?, h.instruction]

theorem trans (h : n.Evolves m) (h' : m.Evolves k) : n.Evolves k where
  uid := h'.uid.trans h.uid
  function := h'.function.trans h.function
  instruction := h'.instruction.trans h.instruction
  kind := by
    rcases h'.kind with hkind | ⟨hsent, hkind⟩
    · rw [hkind]
      exact h.kind
    · exact Or.inr ⟨h.isSentinel_eq ▸ hsent, hkind⟩
  awaiting := fun hk => h.awaiting (h'.awaiting hk)
  output := by
    rcases h.output with hsame | ⟨hlive, hwait, hnone, hdone⟩
    · rcases h'.output with hsame' | ⟨hlive, hwait, hnone, hdone⟩
      · exact Or.inl (hsame'.trans hsame)
      · exact Or.inr ⟨h.isDeleted_eq_false hlive, h.awaiting hwait, hsame ▸ hnone, hdone⟩
    -- A node that got its result waits no longer, and never again.
    · refine Or.inr ⟨hlive, hwait, hnone, ?_⟩
      by_contra hk
      cases hdone.symm.trans (h'.awaiting (by simpa using hk))
  slots := by
    rcases h'.slots with hlen | ⟨hmask, hone, hpos⟩
    · rw [hlen]
      exact h.slots
    · refine Or.inr ⟨h.opcode?_eq ▸ hmask, hone, ?_⟩
      rcases h.slots with hlen' | ⟨-, -, hpos'⟩
      · exact hlen' ▸ hpos
      · exact hpos'

theorem length_slots_le (h : n.Evolves m) : m.slots.length ≤ n.slots.length := by
  rcases h.slots with hlen | ⟨-, hone, hpos⟩
  · exact Nat.le_of_eq hlen
  · exact hone ▸ hpos

/-- Whatever became of a node, it has a slot. -/
theorem slots_pos (h : n.Evolves m) (hn : n.Begins) : 1 ≤ m.slots.length := by
  rcases h.slots with hlen | ⟨-, hone, -⟩
  · exact hlen ▸ hn.slots
  · exact Nat.le_of_eq hone.symm

theorem slots_storage (h : n.Evolves m) (hn : n.Begins)
    (hstorage : m.opcode?.any Opcode.isStorage = true) : m.slots.length = 2 := by
  rw [h.opcode?_eq] at hstorage
  rcases h.slots with hlen | ⟨hmask, -⟩
  · exact hlen.trans (hn.storage hstorage)
  · obtain ⟨o, ho, hstorage⟩ := (Option.any_eq_true ..).mp hstorage
    rw [ho] at hmask
    cases o <;> cases hstorage <;> cases hmask

/-- A sentinel has a single slot. -/
theorem slots_bare (h : n.Evolves m) (hn : n.Begins) (hbare : m.instruction = none) :
    m.slots.length = 1 := by
  rw [h.instruction] at hbare
  rcases h.slots with hlen | ⟨hmask, -⟩
  · exact hlen.trans (hn.bare hbare)
  · simp [opcode?, hbare] at hmask

theorem output_eq_none (h : n.Evolves m) (hn : n.Begins) (hwait : m.awaiting = true) :
    m.output = none := by
  rcases h.output with hsame | ⟨-, -, -, hdone⟩
  · exact hsame.trans hn.output
  · cases hdone.symm.trans hwait

theorem reportsResult (h : n.Evolves m) (hn : n.Begins) (hwait : m.awaiting = true) :
    m.opcode?.any Opcode.reportsResult = true := by
  rw [h.opcode?_eq]
  exact hn.awaiting (h.awaiting hwait)

/-- A removed node keeps all that it is. -/
theorem bury (hn : n.isSentinel = false) : n.Evolves n.bury where
  uid := rfl
  function := rfl
  instruction := rfl
  kind := Or.inr ⟨hn, rfl⟩
  awaiting := by
    intro h
    cases h
  output := Or.inl rfl
  slots := Or.inl (List.length_map _)

/-- A node that gets its result waits no longer. -/
theorem supply (hlive : n.isDeleted = false) (hwait : n.awaiting = true) (hnone : n.output = none)
    (o : Options) (opcode : Opcode) (result : Value) (state : Option String) :
    n.Evolves (Graph.supply o opcode result state { n with awaiting := false }) where
  uid := rfl
  function := rfl
  instruction := rfl
  kind := Or.inl rfl
  awaiting := by
    intro h
    cases h
  output := Or.inr ⟨hlive, hwait, hnone, rfl⟩
  slots := by
    left
    unfold Graph.supply
    dsimp only
    split_ifs
    · exact List.length_modify ..
    · rfl

end Node.Evolves

theorem Arrival.length_orEmpty_pos (values : List Value) : 1 ≤ (orEmpty values).length := by
  unfold orEmpty
  cases values <;> simp

theorem Arrival.length_slotValues_pos (a : Arrival) (category : Category) :
    1 ≤ (a.slotValues category).length := by
  unfold slotValues
  by_cases hstorage : a.opcode.isStorage = true
  · rw [if_pos hstorage]
    exact Nat.le_succ 1
  · rw [if_neg hstorage]
    cases category with
    | stateVariable => exact Nat.le_succ 1
    | controlFlow => exact Nat.le_refl 1
    | _ => exact length_orEmpty_pos _

namespace Graph

theorem begins_sentinel (o : Options) (uid : NodeId) (function : String) (kind : Kind) :
    (sentinel o uid function kind).Begins where
  output := rfl
  awaiting := by
    intro h
    cases h
  slots := Nat.le_refl 1
  storage := by
    intro h
    cases h
  bare _ := rfl

theorem begins_nodeOf (o : Options) (g : Graph) (s : Sentinels) (a : Arrival)
    (category : Category) : (g.nodeOf o s a category).Begins where
  output := rfl
  awaiting := by
    intro h
    simp only [nodeOf, Arrival.isDeferred, Bool.and_eq_true] at h
    exact h.1.1
  slots := by
    have hlen : (g.nodeOf o s a category).slots.length = (a.slotValues category).length := by
      simp [nodeOf, Options.slots]
    rw [hlen]
    exact a.length_slotValues_pos category
  storage := by
    intro h
    have hstorage : a.opcode.isStorage = true := h
    simp [nodeOf, Options.slots, Arrival.slotValues, hstorage]
  bare := by
    intro h
    cases h

/-- The nodes of `g` are still there in `g'`, each as it evolved. -/
def Extends (g g' : Graph) : Prop :=
  ∀ ⦃i : NodeId⦄ ⦃n : Node⦄, g.node? i = some n → ∃ m, g'.node? i = some m ∧ n.Evolves m

namespace Extends

variable {g g₁ g₂ : Graph} {uid : NodeId}

theorem of_node? (h : ∀ i n, g.node? i = some n → g₁.node? i = some n) : g.Extends g₁ :=
  fun i n hn => ⟨n, h i n hn, .refl n⟩

theorem refl (g : Graph) : g.Extends g := of_node? fun _ _ hn => hn

theorem trans (h : g.Extends g₁) (h₁ : g₁.Extends g₂) : g.Extends g₂ := by
  intro i n hn
  obtain ⟨m, hm, hevolves⟩ := h hn
  obtain ⟨k, hk, hevolves₁⟩ := h₁ hm
  exact ⟨k, hk, hevolves.trans hevolves₁⟩

theorem size_le (h : g.Extends g₁) : g.size ≤ g₁.size := by
  by_contra hlt
  obtain ⟨n, hn⟩ := exists_node?_of_lt (Nat.lt_of_not_le hlt)
  obtain ⟨m, hm, -⟩ := h hn
  exact Nat.lt_irrefl _ (lt_size_of_node? hm)

theorem update {f : Node → Node} (hf : ∀ n, g.node? uid = some n → n.Evolves (f n)) :
    g.Extends (g.update uid f) := by
  intro i n hn
  by_cases hi : i = uid
  · subst hi
    exact ⟨f n, node?_update_self hn f, hf n hn⟩
  · exact ⟨n, (node?_update_of_ne hi g f).trans hn, .refl n⟩

theorem connect (g : Graph) (pred uid : NodeId) (slot : Nat) :
    g.Extends (g.connect pred uid slot) := by
  have hadd : g.Extends (g.update uid (·.addPred slot pred)) :=
    update fun n _ => .of_core rfl rfl (List.length_modify ..)
  have hgoes : ∀ n : Node, n.Evolves (n.addSuccessor uid) := fun n =>
    .of_core (n.core_addSuccessor uid) (by rw [Node.addSuccessor_eq])
      (by rw [Node.addSuccessor_eq])
  have hturns : ∀ (n : Node) (exit : NodeId), n.Evolves ((n.eraseSuccessor exit).addSuccessor uid) :=
    fun n exit => Node.Evolves.trans (m := n.eraseSuccessor exit) (.of_core rfl rfl rfl) (hgoes _)
  unfold Graph.connect
  dsimp only
  split
  · exact hadd.trans (update fun n _ => hgoes n)
  · exact (hadd.trans (update fun n _ => hturns n _)).trans
      (update fun n _ => .of_core rfl rfl (List.length_map _))

theorem links {n : Node} (h : g.Links n g₁) : g.Extends g₁ := by
  obtain ⟨links, -, rfl⟩ := h
  apply linkAll_induction (P := fun g' => g.Extends g') (refl g)
  intro g' pred slot _ _ hext _ _ _ _ _
  exact hext.trans (connect g' pred n.uid slot)

theorem release (g : Graph) (uid pred exit : NodeId) :
    g.Extends (release (some exit) uid g pred) := by
  have hredirect : ∀ f : Node → List NodeId,
      g.Extends (g.update pred fun m => { m with successors := f m }) :=
    fun f => update fun n _ => .of_core rfl rfl rfl
  by_cases h : g.Stranded uid pred
  · rw [release_of_stranded h]
    exact (hredirect _).trans (update fun n _ => .of_core rfl rfl (List.length_modify ..))
  · rw [release_of_not_stranded h]
    exact hredirect _

theorem detach {n : Node} (hg : Formed g.outlines) (hn : g.node? uid = some n)
    (hsent : n.isSentinel = false) : g.Extends (g.detach uid) := by
  obtain ⟨s, hs, -, -⟩ := boundaries?_of_instruction hg hn (hg.instruction_ne_none hn hsent)
  have hreleased : g.Extends (n.predecessors.foldl (Graph.release (some s.exit) uid) g) := by
    apply List.foldlRecOn n.predecessors (motive := fun g' : Graph => g.Extends g') _ (refl g)
    intro g' hext pred _
    exact hext.trans (release g' uid pred s.exit)
  have hwithdrawn : g.Extends ((n.predecessors.foldl (Graph.release (some s.exit) uid) g).withdraw
      uid n.successors) := by
    unfold withdraw
    apply List.foldlRecOn n.successors (motive := fun g' : Graph => g.Extends g') _ hreleased
    intro g' hext succ _
    exact hext.trans (update fun m _ => .of_core rfl rfl (List.length_map _))
  rw [detach_eq hn hs]
  refine hwithdrawn.trans (update fun m hm => .bury ?_)
  obtain ⟨m', hm', hevolves⟩ := hwithdrawn hn
  rw [hm] at hm'
  cases hm'
  exact hevolves.isSentinel_eq ▸ hsent

theorem searched (hg : Formed g.outlines) (h : g.Searched uid g₁) : g.Extends g₁ := by
  cases h with
  | unchanged => exact refl g
  | linked hn hlive hsent hlinks => exact links hlinks
  | removed hn hlive hsent hlinks =>
    obtain ⟨m, hm, hevolves⟩ := links hlinks hn
    exact (links hlinks).trans
      (detach (hlinks.outlines ▸ hg) hm (hevolves.isSentinel_eq ▸ hsent))
  | collapsed hn hlive hsent hlinks hm hs hrest hmask =>
    refine (links hlinks).trans (update fun m' hm' => ?_)
    obtain ⟨k, hk, hevolves⟩ := links hlinks hn
    rw [hm] at hk hm'
    cases hk
    cases hm'
    have hpos := Nat.zero_lt_of_lt (List.getElem?_eq_some_iff.mp hs).1
    exact { Node.Evolves.refl _ with slots := Or.inr ⟨hevolves.opcode?_eq ▸ hmask, rfl, hpos⟩ }

theorem unpend (g : Graph) (uid : NodeId) : g.Extends (g.unpend uid) := by
  have hupdate : g.Extends (g.update uid fun n => { n with awaiting := false }) := by
    apply update
    intro n _
    refine { Node.Evolves.refl n with awaiting := ?_, output := Or.inl rfl }
    intro h
    cases h
  exact hupdate

theorem arrive {n : Node} {exit : NodeId} (hexit : exit < g.size) :
    g.Extends (g.arrive n exit) := by
  intro i m hm
  rw [node?_arrive hexit, if_neg (Nat.ne_of_lt (lt_size_of_node? hm)), hm]
  split_ifs
  · exact ⟨_, rfl, .of_core rfl rfl (List.length_modify ..)⟩
  · exact ⟨m, rfl, .refl m⟩

end Extends

/-- Every node of the graph evolved from one that was made. -/
def Evolved (g : Graph) : Prop :=
  ∀ ⦃i : NodeId⦄ ⦃m : Node⦄, g.node? i = some m → ∃ n : Node, n.Begins ∧ n.Evolves m

theorem Evolved.extend {g g' : Graph} (hg : g.Evolved) (h : g.Extends g')
    (hnew : ∀ i m, g.size ≤ i → g'.node? i = some m → m.Begins) : g'.Evolved := by
  intro i m hm
  rcases Nat.lt_or_ge i g.size with hlt | hge
  · obtain ⟨n, hn⟩ := exists_node?_of_lt hlt
    obtain ⟨m', hm', hevolves⟩ := h hn
    rw [hm] at hm'
    cases hm'
    obtain ⟨k, hbegins, hk⟩ := hg hn
    exact ⟨k, hbegins, hk.trans hevolves⟩
  · exact ⟨m, hnew i m hge hm, .refl m⟩

/-- What holds of a graph after any moves. -/
structure Consistent (g : Graph) : Prop where
  causal : g.Causal
  paced : g.Paced
  evolved : g.Evolved

theorem consistent_empty : empty.Consistent where
  causal := causal_empty
  paced := paced_empty
  evolved := by
    intro i m hm
    cases hm

namespace Consistent

variable {host : Host} {g g' : Graph}

/-- A node that waits is live and has no result yet. -/
theorem of_pending (hg : g.Consistent) {uid : NodeId} {n : Node} (hn : g.node? uid = some n)
    (huid : uid ∈ g.pending) : n.isDeleted = false ∧ n.awaiting = true ∧ n.output = none := by
  have hwait := (hg.paced.awaiting_iff hn).mpr huid
  obtain ⟨m, hm, -, hlive⟩ := hg.paced.live huid
  rw [hn] at hm
  cases hm
  obtain ⟨k, hbegins, hevolves⟩ := hg.evolved hn
  exact ⟨hlive, hwait, hevolves.output_eq_none hbegins hwait⟩

theorem extends_moves (hg : g.Consistent) (h : g.Moves host g') : g.Extends g' := by
  cases h with
  | search h => exact .searched hg.causal.formed h
  | unpend uid => exact .unpend g uid
  | supply huid hn ho result state =>
    rename_i uid n opcode
    have hwait := hg.of_pending hn huid
    have heq : (g.unpend uid).update uid (Graph.supply host.options opcode result state) =
        { g.update uid fun n => Graph.supply host.options opcode result state
            { n with awaiting := false } with pending := g.pending.filter (· ≠ uid) } := by
      unfold Graph.unpend
      exact congrArg (fun g' : Graph => { g' with pending := g.pending.filter (· ≠ uid) })
        (update_update g uid _ _)
    rw [heq]
    have hupdate : g.Extends (g.update uid fun n =>
        Graph.supply host.options opcode result state { n with awaiting := false }) := by
      apply Extends.update
      intro m hm
      rw [hn] at hm
      cases hm
      exact .supply hwait.1 hwait.2.1 hwait.2.2 host.options opcode result state
    exact hupdate
  | withFunction function =>
    exact .of_node? fun i n hn => node?_withFunction_of_some hn host.options function
  | arrive category hs hfree =>
    obtain ⟨-, -, hx⟩ := hg.causal.formed.of_sentinels? hs
    exact .arrive (size_outlines g ▸ (Array.getElem?_eq_some_iff.mp hx).1)

/-- A node that a move makes. -/
theorem begins_of_moves (hg : g.Consistent) (h : g.Moves host g') {i : NodeId} {m : Node}
    (hi : g.size ≤ i) (hm : g'.node? i = some m) : m.Begins := by
  have hkept : g'.outlines = g.outlines → m.Begins := by
    intro hout
    exact absurd (size_of_outlines hout ▸ lt_size_of_node? hm) (Nat.not_lt.mpr hi)
  cases h with
  | search h => exact hkept (h.outlines hg.causal.formed)
  | unpend uid => exact hkept (outlines_unpend g uid)
  | supply => exact hkept ((outlines_update (by intro n _; rfl)).trans (outlines_unpend g _))
  | withFunction function =>
    rcases node?_withFunction hm with hold | ⟨-, kind, -, rfl⟩
    · exact absurd (lt_size_of_node? hold) (Nat.not_lt.mpr hi)
    · exact begins_sentinel _ _ _ _
  | arrive category hs hfree =>
    obtain ⟨-, -, hx⟩ := hg.causal.formed.of_sentinels? hs
    rw [node?_arrive (size_outlines g ▸ (Array.getElem?_eq_some_iff.mp hx).1)] at hm
    split_ifs at hm with hnew hexit
    · cases hm
      exact begins_nodeOf _ _ _ _ _
    · obtain ⟨k, hk, rfl⟩ := Option.map_eq_some_iff.mp hm
      exact absurd (lt_size_of_node? hk) (Nat.not_lt.mpr hi)
    · exact absurd (lt_size_of_node? hm) (Nat.not_lt.mpr hi)

theorem moves (hg : g.Consistent) (h : g.Moves host g') : g'.Consistent where
  causal := hg.causal.moves h
  paced := hg.paced.moves hg.causal h
  evolved := hg.evolved.extend (hg.extends_moves h) fun _ _ hi hm => hg.begins_of_moves h hi hm

/-- What each move keeps, a row of moves keeps. -/
theorem becomes_induction {P : Graph → Prop} (hg : g.Consistent) (h : g.Becomes host g') (hP : P g)
    (step : ∀ g g', g.Consistent → P g → g.Moves host g' → P g') : g'.Consistent ∧ P g' := by
  induction h with
  | refl => exact ⟨hg, hP⟩
  | tail _ hmove ih => exact ⟨ih.1.moves hmove, step _ _ ih.1 ih.2 hmove⟩

theorem becomes (hg : g.Consistent) (h : g.Becomes host g') : g'.Consistent ∧ g.Extends g' :=
  hg.becomes_induction h (.refl g) fun _ _ hg' hext hmove => hext.trans (hg'.extends_moves hmove)

end Consistent
end Graph
end OperandFlow
