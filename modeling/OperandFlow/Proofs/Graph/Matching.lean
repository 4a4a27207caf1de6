import OperandFlow.Proofs.Graph.Resolution

/-! Operands are linked by their values: a result that supplies an operand equals it, whichever way
the operand was looked for. -/
namespace OperandFlow

/-- The operands of such a node are linked by their values, unless it is a hash. -/
def Kind.usesValues : Kind → Bool
  | environment | stateVariable | dataFlow | log _ | call _ => true
  | _ => false

/-- An unknown text equals none, so that only the values themselves are left to be compared. -/
theorem Operand.of_equal_unknown {o : Oracle} {l r : Operand} (h : equal o l r = true)
    (hunknown : l.canonical = "") :
    l.value.isEmpty = false ∧ (l.value.trimmed = r.value.trimmed ∨
      ∃ k, l.value.concrete? = some k ∧ r.value.concrete? = some k) := by
  unfold equal textEqual? at h
  by_cases hempty : (l.value.isEmpty || r.value.isEmpty) = true
  · rw [if_pos hempty] at h
    cases h
  rw [if_neg hempty] at h
  rw [Bool.or_eq_true, not_or, Bool.not_eq_true, Bool.not_eq_true] at hempty
  refine ⟨hempty.1, ?_⟩
  by_cases hsize : l.value.size ≠ 0 ∧ r.value.size ≠ 0 ∧ l.value.size ≠ r.value.size
  · rw [if_pos hsize] at h
    cases h
  rw [if_neg hsize] at h
  by_cases htrimmed : l.value.trimmed = r.value.trimmed
  · exact Or.inl htrimmed
  rw [if_neg htrimmed] at h
  cases hl : l.value.concrete? <;> cases hr : r.value.concrete? <;> simp_all

namespace Graph

variable {host : Host} {g g' g₁ : Graph} {n m : Node} {d : Datum} {p uid i : NodeId}

theorem of_sameValue_unknown {l r : Datum} (h : (sameValue host l r).value = true)
    (hunknown : l.rendering.text = "") :
    l.value.isEmpty = false ∧ (l.value.trimmed = r.value.trimmed ∨
      ∃ k, l.value.concrete? = some k ∧ r.value.concrete? = some k) := by
  rw [sameValue_value] at h
  have hvalues := Operand.of_equal_unknown h hunknown
  exact hvalues

/-- The result of the node `p`, if its instruction has one, equals the value. -/
def Agrees (host : Host) (g : Graph) (d : Datum) (p : NodeId) : Prop :=
  ∀ m out, g.node? p = some m → m.opcode?.any Opcode.reportsResult = true →
    m.output = some out → (sameValue host out d).value = true

/-- What supplies a slot agrees with it. -/
def Matched (host : Host) (g : Graph) (n : Node) : Prop :=
  ∀ s ∈ n.slots, ∀ p ∈ s.preds, g.Agrees host s.datum p

section Agrees

theorem agrees_of_silent (hm : g.node? p = some m)
    (hsilent : m.opcode?.any Opcode.reportsResult = false) : g.Agrees host d p := by
  intro k out hk hreports _
  cases hm.symm.trans hk
  cases hsilent.symm.trans hreports

theorem agrees_of_produces (hm : g.node? m.uid = some m) (h : (produces host d m).value = true) :
    g.Agrees host d m.uid := by
  intro k out hk _ hout
  cases hm.symm.trans hk
  simp only [produces, hout] at h
  split_ifs at h
  exact h

theorem agrees_of_resolve {candidates : List Node} {s : Slot}
    (hc : ∀ m ∈ candidates, g.node? m.uid = some m)
    (h : (resolve host candidates s).value.1 = some p) : g.Agrees host s.datum p := by
  unfold resolve at h
  split_ifs at h
  simp only [producer?, Logged.value_bind, Logged.value_find?, Logged.value_pure] at h
  obtain ⟨m, hm, rfl⟩ := Option.map_eq_some_iff.mp h
  have hproduces : (produces host s.datum m).value = true := by simpa using List.find?_some hm
  exact agrees_of_produces (hc m (List.mem_of_find?_eq_some hm)) hproduces

/-- A write reports no result. -/
theorem agrees_of_sstore (hm : g.node? p = some m) (h : m.is .sstore = true) :
    g.Agrees host d p := by
  apply agrees_of_silent hm
  rw [show m.opcode? = some .sstore from of_decide_eq_true h]
  rfl

theorem agrees_entry {s : Sentinels} (hg : Formed g.outlines) (hn : g.node? uid = some n)
    (hs : g.boundaries? uid = some s) : g.Agrees host d s.entry := by
  obtain ⟨e, -, hs', he, -⟩ := hg.boundaries hn
  rw [boundaries?_of_node? hn, hs'] at hs
  cases hs
  obtain ⟨m, hm, ho⟩ := node?_of_outlines he
  apply agrees_of_silent hm
  rw [Node.opcode?, show m.instruction = none from congrArg Outline.instruction ho]
  rfl

/-- An earlier node of a call agrees with the same values after a change elsewhere. -/
theorem Agrees.touches (h : g.Touches uid g') (hg : g.Coherent)
    (hprec : Precedes g.outlines p i) (hold : g.Agrees host d p) : g'.Agrees host d p := by
  intro k out hk hreports hout
  obtain ⟨-, q, -, hq, -⟩ := id hprec
  obtain ⟨m, hm, -⟩ := node?_of_outlines hq
  obtain ⟨successors, hm'⟩ := h.node?_of_precedes hg hprec hm
  cases hm'.symm.trans hk
  exact hold m out hm hreports hout

end Agrees

/-- From `g` to `g'`, slots of `n` were linked to nodes that agree with them. -/
def LinksByValue (host : Host) (g : Graph) (n : Node) (g' : Graph) : Prop :=
  ∃ links, (∀ l ∈ links, ∀ s, n.slots[l.2]? = some s → g.Agrees host s.datum l.1) ∧
    g' = g.linkAll n.uid links

namespace LinksByValue

theorem refl (host : Host) (g : Graph) (n : Node) : g.LinksByValue host n g :=
  ⟨[], by simp, rfl⟩

theorem linkFound (h : g.LinksByValue host n g₁) {found : Option NodeId} {slot : Nat}
    (hfound : ∀ pred s, found = some pred → n.slots[slot]? = some s →
      g.Agrees host s.datum pred) :
    g.LinksByValue host n (g₁.linkFound n.uid found slot).value := by
  obtain ⟨links, hlinks, rfl⟩ := h
  refine ⟨links ++ found.toList.map (·, slot), ?_, by rw [linkFound_value, linkAll_append]⟩
  intro l hl s hs
  rcases List.mem_append.mp hl with hl | hl
  · exact hlinks l hl s hs
  · obtain ⟨pred, hpred, rfl⟩ := List.mem_map.mp hl
    exact hfound pred s (Option.mem_toList.mp hpred) hs

theorem linkSlot (h : g.LinksByValue host n g₁) {candidates : List Node}
    (hc : ∀ m ∈ candidates, g.node? m.uid = some m) (slot : Nat) :
    g.LinksByValue host n (g₁.linkSlot host n slot candidates).value := by
  unfold Graph.linkSlot
  cases hs : n.slots[slot]? with
  | none => exact h
  | some s =>
    apply h.linkFound
    intro pred t hpred ht
    cases hs.symm.trans ht
    exact agrees_of_resolve hc hpred

theorem linkKey (h : g.LinksByValue host n g₁) {candidates : List Node}
    (hc : ∀ m ∈ candidates, g.node? m.uid = some m) :
    g.LinksByValue host n (g₁.linkKey host n candidates).value :=
  h.linkSlot (fun m hm => hc m (List.mem_of_mem_filter hm)) 0

theorem outlines (h : g.LinksByValue host n g₁) : g₁.outlines = g.outlines := by
  obtain ⟨links, -, rfl⟩ := h
  exact outlines_of_cores (cores_linkAll g n.uid links)

theorem linkFromEntry (h : g.LinksByValue host n g₁) (hg : Formed g.outlines)
    (hn : g.node? n.uid = some n) : g.LinksByValue host n (g₁.linkFromEntry n.uid).value := by
  apply h.linkFound
  intro pred s hpred _
  obtain ⟨b, hb, rfl⟩ := Option.map_eq_some_iff.mp hpred
  rw [boundaries?_congr h.outlines] at hb
  exact agrees_entry hg hn hb

/-- A node that nothing supplied before agrees with all that supplies it then. -/
theorem matched (h : g.LinksByValue host n g') (hg : Formed g.outlines)
    (hn : g.node? n.uid = some n) (hinstr : n.instruction ≠ none)
    (hunlinked : ∀ s ∈ n.slots, s.preds = []) (hm : g'.node? n.uid = some m) :
    g.Matched host m := by
  obtain ⟨links, hlinks, rfl⟩ := h
  rw [node?_linkAll hg hn hinstr] at hm
  cases hm
  intro t ht p hp
  obtain ⟨slot, hslot⟩ := List.mem_iff_getElem?.mp ht
  rw [n.slots_gain] at hslot
  obtain ⟨s, hs, rfl⟩ := Option.map_eq_some_iff.mp hslot
  rw [mem_gains, hunlinked s (List.mem_of_getElem? hs)] at hp
  rcases hp with hp | ⟨hp, -⟩
  · cases hp
  · exact hlinks (p, slot) hp s hs

end LinksByValue

section Strategies

theorem node?_of_mem_candidates (hg : Formed g.outlines) (limit : Nat) (n : Node) :
    ∀ m ∈ g.candidates limit n, g.node? m.uid = some m :=
  fun _ hm => (mem_liveBefore hg (List.mem_of_mem_filter hm)).1

variable (host : Host) (hg : Formed g.outlines)
include hg

theorem linksByValue_linkSlots (n : Node) :
    g.LinksByValue host n (g.linkSlots host n).value.1 := by
  rw [linkSlots_value]
  refine ⟨_, ?_, rfl⟩
  intro l hl s hs
  rw [mem_linksTo, List.getElem?_map, hs, Option.map_some, Option.some_inj] at hl
  exact agrees_of_resolve (node?_of_mem_candidates hg _ n) hl

theorem linksByValue_linkStore (n : Node) :
    g.LinksByValue host n (g.linkStore host n).value :=
  ((LinksByValue.refl host g n).linkKey (node?_of_mem_candidates hg _ n)).linkSlot
    (node?_of_mem_candidates hg _ n) 1

/-- What is read comes from a write. -/
theorem linksByValue_linkLoad (n : Node) : g.LinksByValue host n (g.linkLoad host n).value := by
  have hc := node?_of_mem_candidates hg host.options.reach n
  have hkey := (LinksByValue.refl host g n).linkKey hc
  unfold linkLoad
  simp only [Logged.value_bind]
  split
  · split_ifs
    · exact hkey
    · simp only [Logged.value_bind, Logged.value_find?, writesTo_value]
      apply hkey.linkFound
      intro pred s hpred _
      obtain ⟨w, hw, rfl⟩ := Option.map_eq_some_iff.mp hpred
      have hwrites := List.find?_some hw
      simp only [Node.writes, Bool.and_eq_true] at hwrites
      exact agrees_of_sstore (hc w (List.mem_of_find?_eq_some hw)) hwrites.1
  · exact hkey

theorem linksByValue_linkParameter (hn : g.node? n.uid = some n) :
    g.LinksByValue host n (g.linkParameter host n).value := by
  unfold linkParameter
  split
  · exact .refl host g n
  · split_ifs
    · exact .refl host g n
    · simp only [Logged.value_bind]
      split_ifs
      · exact linksByValue_linkSlots host hg n
      · exact (linksByValue_linkSlots host hg n).linkFromEntry hg hn
    · exact (LinksByValue.refl host g n).linkFromEntry hg hn

/-- Whichever way the operands of such a node are linked, it is by their values. -/
theorem linkNode_by_value {o : Opcode} (hn : g.node? n.uid = some n)
    (hvalues : n.kind.usesValues = true) (ho : o ≠ .sha3) :
    ∃ g', (g.linkNode host n o).value = (.ok (), g') ∧
      (g.LinksByValue host n g' ∨ g' = (g.settleMask host n).value) := by
  have hslots := linksByValue_linkSlots host hg n
  unfold linkNode
  split
  · exact ⟨_, rfl, Or.inl (linksByValue_linkStore host hg n)⟩
  · exact ⟨_, rfl, Or.inl (linksByValue_linkLoad host hg n)⟩
  · exact absurd rfl ho
  · exact ⟨_, rfl, Or.inr rfl⟩
  · exact ⟨_, rfl, Or.inr rfl⟩
  · exact ⟨_, rfl, Or.inl (linksByValue_linkParameter host hg hn)⟩
  · split_ifs
    · exact ⟨_, rfl, Or.inl ((LinksByValue.refl host g n).linkFromEntry hg hn)⟩
    · exact ⟨_, rfl, Or.inl hslots⟩
  -- Control flow is not linked by values, four kinds link all their slots, and four link none.
  · rename_i hkind
    rw [hkind] at hvalues
    cases hvalues
  · rename_i hkind _
    rw [hkind] at hvalues
    cases hvalues
  iterate 4 exact ⟨_, rfl, Or.inl hslots⟩
  iterate 4
    rename_i hkind
    rw [hkind] at hvalues
    cases hvalues

/-- A mask that is not removed keeps slots that were linked by their values. -/
theorem matched_settleMask (hn : g.node? n.uid = some n) (hinstr : n.instruction ≠ none)
    (hunlinked : ∀ s ∈ n.slots, s.preds = [])
    (hm : (g.settleMask host n).value.node? n.uid = some m) (hlive : m.isDeleted = false) :
    g.Matched host m := by
  have hslots := linksByValue_linkSlots host hg n
  have hsettles := settles_settleMask host hg hn hinstr
  generalize (g.settleMask host n).value = g' at hm hsettles
  cases hsettles with
  | kept => exact hslots.matched hg hn hinstr hunlinked hm
  | removed =>
    rw [(links_linkSlots host hg hn).isDeleted_detach hg hn hinstr hm] at hlive
    cases hlive
  | collapsed _ _ hk hs =>
    rw [node?_update_self hk] at hm
    cases hm
    intro t ht
    rw [List.mem_singleton.mp ht]
    exact hslots.matched hg hn hinstr hunlinked hk _ (List.mem_of_getElem? hs)

end Strategies

/-- A node that the search for its edges does not remove keeps its kind. -/
theorem kind_runEdgeSearch (hg : Formed g.outlines) (hn : g.node? uid = some n)
    (hm : (g.runEdgeSearch host uid).value.node? uid = some m) (hlive : m.isDeleted = false) :
    m.kind = n.kind := by
  rcases (searched_runEdgeSearch host hg uid).cores_cases hg with
    ⟨hcores, -⟩ | ⟨k, -, -, -, hcores⟩
  · obtain ⟨k, hk, hcore⟩ := node?_of_cores hcores hn
    cases hm.symm.trans hk
    exact (Node.of_core hcore).2.1
  · have hcore := hcores uid
    rw [getElem?_cores, hm, if_pos rfl, Option.map_some] at hcore
    have hkind : m.kind = .deleted := (Node.of_core (n := k.bury) (Option.some.inj hcore)).2.1
    exact absurd hkind (of_decide_eq_false hlive)

/-- The search for its edges matches a fresh node with what is linked. -/
theorem matched_runEdgeSearch {o : Opcode} (hg : Formed g.outlines) (hn : g.node? n.uid = some n)
    (hfresh : n.Fresh) (ho : n.opcode? = some o) (hvalues : n.kind.usesValues = true)
    (hne : o ≠ .sha3) (hm : (g.runEdgeSearch host n.uid).value.node? n.uid = some m)
    (hlive : m.isDeleted = false) : g.Matched host m := by
  have hinstr : n.instruction ≠ none := by
    intro hnone
    simp [Node.opcode?, hnone] at ho
  obtain ⟨g', hg', hby⟩ := linkNode_by_value host hg hn hvalues hne
  rw [runEdgeSearch_value, findEdges_value hg hn hfresh.isDeleted ho, hg'] at hm
  rcases hby with hby | rfl
  · exact hby.matched hg hn hinstr hfresh.unlinked hm
  · exact matched_settleMask host hg hn hinstr hfresh.unlinked hm hlive

/-- A node whose operands are linked by their values is matched with what supplies them. -/
def Matches (host : Host) (g : Graph) (i : NodeId) : Prop :=
  ∀ n, g.node? i = some n → n.instruction ≠ none → n.kind.usesValues = true →
    n.is .sha3 = false → g.Matched host n

theorem matches_of_unlinked (hn : g.node? i = some n) (h : ∀ s ∈ n.slots, s.preds = []) :
    g.Matches host i := by
  intro m hm _ _ _ s hs p hp
  cases hn.symm.trans hm
  rw [h s hs] at hp
  cases hp

theorem Matches.touches (h : g.Touches uid g') (hg : g.Coherent) (hg' : Formed g'.outlines)
    (hi : i ≠ uid) (hold : g.Matches host i) : g'.Matches host i := by
  intro m hm hinstr hvalues hsha3 s hs p hp
  obtain ⟨n, successors, hn, -, rfl⟩ := h.exists_node? hg' hi hm hinstr
  have hprec := hg.causal.precedes_of_fedBy hn hinstr ⟨s, hs, hp⟩
  exact (hold n hn hinstr hvalues hsha3 s hs p hp).touches h hg hprec

theorem matches_search (hg : g.Coherent) (hlink : g.Linkable uid)
    (hlast : ∀ b, ¬ Precedes g.outlines uid b) (hn : g.node? uid = some n) (hfresh : n.Fresh) :
    (g.runEdgeSearch host uid).value.Matches host uid := by
  have hformed := hg.causal.formed
  have htouches := Touches.search hg hlink hlast host
  have hsearched := searched_runEdgeSearch host hformed uid
  intro m hm hinstr hvalues hsha3 s hs p hp
  have huid : n.uid = uid := hformed.uid_node hn
  subst huid
  have hout := htouches.outline_eq hn hm
  have hopcode : m.opcode? = n.opcode? := by
    rw [Node.opcode?, show m.instruction = n.instruction from congrArg Outline.instruction hout]
    rfl
  have hlive : m.isDeleted = false := by
    by_contra hdeleted
    rw [show m.kind = .deleted by simpa [Node.isDeleted] using hdeleted] at hvalues
    cases hvalues
  obtain ⟨a, ho, -⟩ := hfresh.kind
  have hne : a.opcode ≠ .sha3 := by
    rw [Node.is_eq (hopcode.trans ho), decide_eq_false_iff_not] at hsha3
    exact hsha3
  rw [kind_runEdgeSearch hformed hn hm hlive] at hvalues
  have hprec : Precedes g.outlines p n.uid := by
    rw [← hsearched.outlines hformed]
    exact (hg.searched hlink hsearched).causal.precedes_of_fedBy hm hinstr ⟨s, hs, hp⟩
  exact (matched_runEdgeSearch hformed hn hfresh ho hvalues hne hm hlive s hs p hp).touches
    htouches hg hprec

theorem upheld_matches (host : Host) :
    Upheld host fun g i => g.Accounts host (fun _ => True) i ∧ g.Matches host i := by
  refine upheld_beside_accounts ?_ (fun htouch hg hg' hi h => h.touches htouch hg hg' hi)
    matches_search
  exact fun h n hn hinstr => absurd (h n hn) hinstr

end Graph
end OperandFlow
