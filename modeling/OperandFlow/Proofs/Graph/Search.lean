import OperandFlow.Proofs.Graph.Edge

/-! What the search for the edges of a node can do: it links the node to some nodes before it, and
may remove it or keep a single slot of it then. -/
namespace OperandFlow

/-- What supplies slot `i` of `uid` after the links, if `preds` did before. Each link is made once,
and none to the node itself. -/
def gains (uid : NodeId) (links : List (NodeId × Nat)) (i : Nat) (preds : List NodeId) :
    List NodeId :=
  links.foldl (fun preds l => if l.2 = i ∧ l.1 ≠ uid ∧ l.1 ∉ preds then preds ++ [l.1] else preds)
    preds

section Gains

variable {uid p : NodeId} {l : NodeId × Nat} {links : List (NodeId × Nat)} {i : Nat}
  {preds : List NodeId}

theorem gains_cons : gains uid (l :: links) i preds = gains uid links i (gains uid [l] i preds) :=
  rfl

theorem gains_singleton (pred : NodeId) (slot : Nat) : gains uid [(pred, slot)] i preds =
    if slot = i ∧ pred ≠ uid ∧ pred ∉ preds then preds ++ [pred] else preds := rfl

theorem gains_of_ne (h : ∀ l ∈ links, l.2 ≠ i) : gains uid links i preds = preds := by
  induction links with
  | nil => rfl
  | cons l links ih =>
    have hone : gains uid [l] i preds = preds := if_neg fun hif => h l List.mem_cons_self hif.1
    rw [gains_cons, hone, ih fun l hl => h l (List.mem_cons_of_mem _ hl)]

theorem mem_gains : p ∈ gains uid links i preds ↔ p ∈ preds ∨ (p, i) ∈ links ∧ p ≠ uid := by
  induction links generalizing preds with
  | nil => simp [gains]
  | cons l links ih =>
    obtain ⟨q, j⟩ := l
    rw [gains_cons, ih, gains_singleton]
    grind

end Gains

/-- The node with the links. -/
def Node.gain (n : Node) (links : List (NodeId × Nat)) : Node :=
  { n with slots := n.slots.mapIdx fun i s => { s with preds := gains n.uid links i s.preds } }

theorem Node.gain_cons (n : Node) (l : NodeId × Nat) (links : List (NodeId × Nat)) :
    n.gain (l :: links) = (n.gain [l]).gain links := by
  unfold gain
  simp only [List.mapIdx_mapIdx]
  rfl

theorem Node.slots_gain (n : Node) (links : List (NodeId × Nat)) (i : Nat) :
    (n.gain links).slots[i]? =
      n.slots[i]?.map fun s => { s with preds := gains n.uid links i s.preds } :=
  List.getElem?_mapIdx

theorem Node.data_gain (n : Node) (links : List (NodeId × Nat)) :
    (n.gain links).slots.map (·.datum) = n.slots.map (·.datum) := by
  apply List.ext_getElem?
  intro i
  rw [List.getElem?_map, List.getElem?_map, slots_gain, Option.map_map]
  rfl

theorem Node.gain_eq {n : Node} {links : List (NodeId × Nat)} (slots : List Slot)
    (h : ∀ i : Nat, slots[i]? =
      n.slots[i]?.map fun s => { s with preds := gains n.uid links i s.preds }) :
    n.gain links = { n with slots } := by
  have hslots : (n.gain links).slots = slots :=
    List.ext_getElem? fun i => (n.slots_gain links i).trans (h i).symm
  rw [← hslots]
  rfl

namespace Graph

theorem link_value_cases (g : Graph) (pred uid : NodeId) (slot : Nat) :
    (g.link pred uid slot).value = g ∨
      ∃ n s, g.node? uid = some n ∧ n.slots[slot]? = some s ∧ pred ≠ uid ∧ pred ∉ s.preds ∧
        (g.link pred uid slot).value = g.connect pred uid slot := by
  unfold link
  cases hn : g.node? uid with
  | none => exact Or.inl rfl
  | some n =>
    cases hs : n.slots[slot]? with
    | none => exact Or.inl (by simp [hs])
    | some s =>
      simp only [Option.bind_some, hs]
      split_ifs with hif
      · exact Or.inl rfl
      · rw [not_or] at hif
        exact Or.inr ⟨n, s, rfl, hs, hif.1, hif.2, rfl⟩

/-- Links a node to the given nodes, each at a slot. -/
def linkAll (g : Graph) (uid : NodeId) (links : List (NodeId × Nat)) : Graph :=
  links.foldl (fun g l => (g.link l.1 uid l.2).value) g

/-- What every single link keeps, a row of links keeps. -/
theorem linkAll_induction {P : Graph → Prop} {g : Graph} {uid : NodeId}
    {links : List (NodeId × Nat)} (h : P g)
    (step : ∀ g' pred slot n s, P g' → (pred, slot) ∈ links → g'.node? uid = some n →
      n.slots[slot]? = some s → pred ≠ uid → pred ∉ s.preds → P (g'.connect pred uid slot)) :
    P (g.linkAll uid links) := by
  unfold linkAll
  apply List.foldlRecOn links _ h
  intro g' hg' l hl
  rcases link_value_cases g' l.1 uid l.2 with heq | ⟨n, s, hn, hs, hne, hnot, heq⟩
  · rw [heq]
    exact hg'
  · rw [heq]
    exact step g' l.1 l.2 n s hg' hl hn hs hne hnot

theorem linkFound_value (g : Graph) (uid : NodeId) (found : Option NodeId) (slot : Nat) :
    (g.linkFound uid found slot).value = g.linkAll uid (found.toList.map (·, slot)) := by
  cases found <;> rfl

theorem linkAll_append (g : Graph) (uid : NodeId) (links more : List (NodeId × Nat)) :
    (g.linkAll uid links).linkAll uid more = g.linkAll uid (links ++ more) := by
  unfold linkAll
  rw [List.foldl_append]

theorem foldl_linkFound {α : Type} (uid : NodeId) (found : α → Option NodeId) (slot : α → Nat)
    (l : List α) (g : Graph) :
    l.foldl (fun g a => (g.linkFound uid (found a) (slot a)).value) g =
      g.linkAll uid (l.flatMap fun a => (found a).toList.map (·, slot a)) := by
  induction l generalizing g with
  | nil => rfl
  | cons a l ih => rw [List.foldl_cons, ih, linkFound_value, linkAll_append, List.flatMap_cons]

theorem cores_linkAll (g : Graph) (uid : NodeId) (links : List (NodeId × Nat)) :
    (g.linkAll uid links).cores = g.cores := by
  apply linkAll_induction (P := fun g' => g'.cores = g.cores) rfl
  intro g' pred slot n s ih _ _ _ _ _
  rw [cores_connect, ih]

section Self

variable {g : Graph} {n : Node} (hg : Formed g.outlines) (hn : g.node? n.uid = some n)
  (hinstr : n.instruction ≠ none)
include hg hn hinstr

theorem node?_link_self (pred : NodeId) (slot : Nat) :
    (g.link pred n.uid slot).value.node? n.uid = some (n.gain [(pred, slot)]) := by
  have hsame : (∀ s, n.slots[slot]? = some s → pred = n.uid ∨ pred ∈ s.preds) →
      g.node? n.uid = some (n.gain [(pred, slot)]) := by
    intro hno
    rw [hn, Node.gain_eq n.slots]
    intro i
    cases hs : n.slots[i]? with
    | none => rfl
    | some s =>
      rw [Option.map_some, gains_singleton, if_neg]
      rintro ⟨rfl, hne, hnot⟩
      exact (hno s hs).elim hne hnot
  unfold link
  rw [hn, Option.bind_some]
  cases hs : n.slots[slot]? with
  | none => exact hsame fun s hs' => by cases hs.symm.trans hs'
  | some s =>
    dsimp only
    split_ifs with hif
    · exact hsame fun s' hs' => by cases hs.symm.trans hs'; exact hif
    · rw [not_or] at hif
      obtain ⟨b, hb, hexit, -⟩ := boundaries?_of_instruction hg hn hinstr
      rw [Logged.value_bind, Logged.value_pure, node?_connect_self hn hb hif.1 hexit,
        Node.gain_eq (n.addPred slot pred).slots]
      · rfl
      · intro i
        rw [Node.slots_addPred]
        by_cases hi : i = slot
        · rw [if_pos hi, hi, hs, Option.map_some, Option.map_some, gains_singleton,
            if_pos ⟨rfl, hif⟩]
        · rw [if_neg hi]
          cases n.slots[i]? <;> simp [gains_singleton, Ne.symm hi]

/-- Links change the slots of a node only. -/
theorem node?_linkAll (links : List (NodeId × Nat)) :
    (g.linkAll n.uid links).node? n.uid = some (n.gain links) := by
  induction links generalizing g n with
  | nil =>
    rw [Node.gain_eq n.slots fun i => by cases n.slots[i]? <;> rfl]
    exact hn
  | cons l links ih =>
    have hone := node?_link_self hg hn hinstr l.1 l.2
    have hout : (g.link l.1 n.uid l.2).value.outlines = g.outlines :=
      outlines_of_cores (cores_linkAll g n.uid [l])
    rw [Node.gain_cons]
    exact ih (n := n.gain [l]) (hout ▸ hg) hone hinstr

end Self

/-- The node `pred` lies on the way to `n`: it leads the block of `n`, is an entry, or stands in one
of the blocks that were executed up to `n`. -/
def OnWay (g : Graph) (n : Node) (pred : NodeId) : Prop :=
  n.leader? = some pred ∨ ∃ m, g.node? pred = some m ∧
    (m.isEntry = true ∨ ∃ l ∈ g.leadersTo n.uid, m.leader? = some l)

/-- The nodes that `n` may be linked to. Only the leader of its block may be gone by then, and only
a jump destination may be linked to a node off the way. -/
def MayLink (g : Graph) (n : Node) (pred : NodeId) : Prop :=
  Precedes g.outlines pred n.uid ∧ (∃ m, g.node? pred = some m ∧
    (m.isDeleted = false ∨ (n.leader? = some pred ∧ ∃ target, n.kind = .controlFlow target))) ∧
    (n.is .jumpdest = true ∨ g.OnWay n pred)

theorem mem_traceBefore {g : Graph} (hg : Formed g.outlines) {n m : Node} {limit : Nat}
    (hm : m ∈ g.traceBefore limit n) :
    g.node? m.uid = some m ∧ m.uid < n.uid ∧ n.function = m.function ∧ n.tx? = m.tx? ∧
      n.instruction ≠ none := by
  unfold traceBefore at hm
  split_ifs at hm with hinstr
  · cases hm
  · have hm := List.mem_of_mem_take hm
    rw [List.mem_filter, List.mem_reverse] at hm
    obtain ⟨hm, htrace⟩ := hm
    obtain ⟨i, hi⟩ := List.mem_iff_getElem?.mp hm
    rw [List.getElem?_take] at hi
    split_ifs at hi with hlt
    rw [Array.getElem?_toList] at hi
    have huid : m.uid = i := hg.uid_node hi
    simp only [Node.sameTrace, Bool.and_eq_true, decide_eq_true_eq] at htrace
    refine ⟨huid ▸ hi, huid ▸ hlt, htrace.1, htrace.2, ?_⟩
    intro hnone
    simp [hnone] at hinstr

theorem mem_liveBefore {g : Graph} (hg : Formed g.outlines) {n m : Node} {limit : Nat}
    (hm : m ∈ g.liveBefore limit n) :
    g.node? m.uid = some m ∧ m.uid < n.uid ∧ n.function = m.function ∧ n.tx? = m.tx? ∧
      n.instruction ≠ none ∧ m.isDeleted = false := by
  obtain ⟨hm, hlive⟩ := List.mem_filter.mp hm
  obtain ⟨hnode, hlt, hfun, htx, hinstr⟩ := mem_traceBefore hg hm
  exact ⟨hnode, hlt, hfun, htx, hinstr, by simpa using hlive⟩

theorem precedes_of_mem_liveBefore {g : Graph} (hg : Formed g.outlines) {n m : Node} {limit : Nat}
    (hn : g.node? n.uid = some n) (hm : m ∈ g.liveBefore limit n) :
    Precedes g.outlines m.uid n.uid := by
  obtain ⟨hnode, hlt, hfun, htx, hinstr, -⟩ := mem_liveBefore hg hm
  have hbare := hg.bare_iff (outlines_of_node? hnode)
  have hm' : m.instruction ≠ none := by
    intro hnone
    simp only [Node.tx?, hnone, Option.map_none, Option.map_eq_none_iff] at htx
    exact hinstr htx
  have hexit : m.outline.isExit = false := by
    by_contra hexit
    exact hm' (hbare.mpr (Or.inr (by simpa using hexit)))
  exact ⟨hlt, m.outline, n.outline, outlines_of_node? hnode, outlines_of_node? hn, hfun.symm,
    hexit, hinstr, Or.inr htx.symm⟩

theorem mayLink_of_mem_liveBefore {g : Graph} (hg : Formed g.outlines) {n m : Node} {limit : Nat}
    (hn : g.node? n.uid = some n) (hm : m ∈ g.liveBefore limit n)
    (hway : n.is .jumpdest = true ∨ g.OnWay n m.uid) : g.MayLink n m.uid := by
  obtain ⟨hnode, -, -, -, -, hlive⟩ := mem_liveBefore hg hm
  exact ⟨precedes_of_mem_liveBefore hg hn hm, ⟨m, hnode, Or.inl hlive⟩, hway⟩

/-- A candidate stands in a block on the way. -/
theorem leader_of_mem_candidates {g : Graph} {n m : Node} {limit : Nat}
    (hm : m ∈ g.candidates limit n) : ∃ l ∈ g.leadersTo n.uid, m.leader? = some l := by
  obtain ⟨-, hlead⟩ := List.mem_filter.mp hm
  obtain ⟨l, hl, hcontains⟩ := (Option.any_eq_true _ _).mp hlead
  exact ⟨l, List.contains_iff_mem.mp hcontains, hl⟩

theorem mayLink_of_mem_candidates {g : Graph} (hg : Formed g.outlines) {n m : Node} {limit : Nat}
    (hn : g.node? n.uid = some n) (hm : m ∈ g.candidates limit n) : g.MayLink n m.uid := by
  have hlive : m ∈ g.liveBefore limit n := List.mem_of_mem_filter hm
  refine mayLink_of_mem_liveBefore hg hn hlive (Or.inr (Or.inr ⟨m, ?_, Or.inr ?_⟩))
  · exact (mem_liveBefore hg hlive).1
  · exact leader_of_mem_candidates hm

/-- An instruction may be linked to the entry of its function. -/
theorem mayLink_entry {g : Graph} (hg : Formed g.outlines) {n : Node} {s : Sentinels}
    (hn : g.node? n.uid = some n) (hinstr : n.instruction ≠ none)
    (hs : g.boundaries? n.uid = some s) : g.MayLink n s.entry := by
  unfold boundaries? at hs
  rw [hn, Option.bind_some] at hs
  obtain ⟨e, hle, hs', he, -⟩ := hg.boundaries hn
  rw [hs] at hs'
  cases hs'
  obtain ⟨m, hm, ho⟩ := node?_of_outlines he
  have hne : e ≠ n.uid := by
    intro heq
    rw [heq, hn] at hm
    cases hm
    exact hinstr (congrArg Outline.instruction ho)
  have hentry : m.kind = .entry := m.isEntry_iff.mp (congrArg Outline.isEntry ho)
  exact ⟨⟨Nat.lt_of_le_of_ne hle hne, _, _, he, outlines_of_node? hn, rfl, rfl, hinstr,
    Or.inl rfl⟩, ⟨m, hm, Or.inl (by simp [Node.isDeleted, hentry])⟩,
    Or.inr (Or.inr ⟨m, hm, Or.inl (m.isEntry_iff.mpr hentry)⟩)⟩

/-- From `g` to `g'`, the node `n` was linked to nodes that it may be linked to. -/
def Links (g : Graph) (n : Node) (g' : Graph) : Prop :=
  ∃ links, (∀ l ∈ links, g.MayLink n l.1) ∧ g' = g.linkAll n.uid links

theorem Links.refl (g : Graph) (n : Node) : g.Links n g :=
  ⟨[], by simp, rfl⟩

theorem Links.linkFound {g g₁ : Graph} {n : Node} (h : g.Links n g₁) {found : Option NodeId}
    (hfound : ∀ pred, found = some pred → g.MayLink n pred) (slot : Nat) :
    g.Links n (g₁.linkFound n.uid found slot).value := by
  obtain ⟨links, hlinks, rfl⟩ := h
  refine ⟨links ++ found.toList.map (·, slot), ?_, ?_⟩
  · intro l hl
    rcases List.mem_append.mp hl with hl | hl
    · exact hlinks l hl
    · obtain ⟨pred, hpred, rfl⟩ := List.mem_map.mp hl
      exact hfound pred (Option.mem_toList.mp hpred)
  · rw [linkFound_value, linkAll_append]

theorem producer?_value {host : Host} {candidates : List Node} {d : Datum} {pred : NodeId}
    (h : (producer? host candidates d).value = some pred) : ∃ m ∈ candidates, m.uid = pred := by
  simp only [producer?, Logged.value_bind, Logged.value_find?, Logged.value_pure] at h
  obtain ⟨m, hm, huid⟩ := Option.map_eq_some_iff.mp h
  exact ⟨m, List.mem_of_find?_eq_some hm, huid⟩

theorem resolve_value {host : Host} {candidates : List Node} {s : Slot} {pred : NodeId}
    (h : (resolve host candidates s).value.1 = some pred) : ∃ m ∈ candidates, m.uid = pred := by
  unfold resolve at h
  split_ifs at h
  exact producer?_value h

/-- Only for a slot without a producer one is found. -/
theorem preds_of_resolve {host : Host} {candidates : List Node} {s : Slot} {pred : NodeId}
    (h : (resolve host candidates s).value.1 = some pred) : s.preds = [] := by
  by_contra hpreds
  simp [resolve, hpreds] at h

/-- A slot that is not resolved has no producer, neither before nor found. -/
theorem resolve_unresolved {host : Host} {candidates : List Node} {s : Slot}
    (h : (resolve host candidates s).value.2 = false) :
    s.preds = [] ∧ (resolve host candidates s).value.1 = none := by
  unfold resolve at h ⊢
  by_cases hp : s.preds = []
  · refine ⟨hp, ?_⟩
    simp only [hp, List.isEmpty_nil, Bool.not_true, Bool.false_eq_true, if_false] at h ⊢
    split_ifs at h ⊢ with hseek
    · exact Option.isSome_eq_false_iff.mp h |> Option.isNone_iff_eq_none.mp
    · rfl
  · simp [hp] at h

/-- The links to what was found for each of the slots. -/
def linksTo (found : List (Option NodeId)) : List (NodeId × Nat) :=
  found.zipIdx.flatMap fun f => f.1.toList.map (·, f.2)

theorem mem_linksTo {found : List (Option NodeId)} {l : NodeId × Nat} :
    l ∈ linksTo found ↔ found[l.2]? = some (some l.1) := by
  unfold linksTo
  simp only [List.mem_flatMap, List.mem_zipIdx_iff_getElem?, List.mem_map, Option.mem_toList]
  constructor
  · rintro ⟨f, hf, pred, hpred, rfl⟩
    rw [hf, hpred]
  · intro h
    exact ⟨(some l.1, l.2), h, l.1, rfl, rfl⟩

theorem linkSlots_value (host : Host) (g : Graph) (n : Node) :
    (g.linkSlots host n).value =
      (g.linkAll n.uid (linksTo
        (n.slots.map fun s => (resolve host (g.candidates host.options.reach n) s).value.1)),
        n.slots.map fun s => (resolve host (g.candidates host.options.reach n) s).value.2) := by
  simp only [linkSlots, Logged.value_bind, Logged.value_map, Logged.value_fold, Logged.value_pure,
    foldl_linkFound, List.map_map]
  rfl

theorem length_linkSlots (host : Host) (g : Graph) (n : Node) :
    (g.linkSlots host n).value.2.length = n.slots.length := by
  rw [linkSlots_value, List.length_map]

section Strategies

variable (host : Host) {g g₁ : Graph} {n : Node} {candidates : List Node}

theorem links_linkSlots (hg : Formed g.outlines) (hn : g.node? n.uid = some n) :
    g.Links n (g.linkSlots host n).value.1 := by
  rw [linkSlots_value]
  refine ⟨_, ?_, rfl⟩
  intro l hl
  rw [mem_linksTo, List.getElem?_map, Option.map_eq_some_iff] at hl
  obtain ⟨s, -, hs⟩ := hl
  obtain ⟨m, hm, huid⟩ := resolve_value hs
  exact huid ▸ mayLink_of_mem_candidates hg hn hm

theorem Links.linkSlot (h : g.Links n g₁) (hc : ∀ m ∈ candidates, g.MayLink n m.uid)
    (slot : Nat) : g.Links n (g₁.linkSlot host n slot candidates).value := by
  unfold Graph.linkSlot
  cases hs : n.slots[slot]? with
  | none => exact h
  | some s =>
    apply h.linkFound
    intro pred hpred
    obtain ⟨m, hm, huid⟩ := resolve_value hpred
    exact huid ▸ hc m hm

theorem Links.linkKey (h : g.Links n g₁) (hc : ∀ m ∈ candidates, g.MayLink n m.uid) :
    g.Links n (g₁.linkKey host n candidates).value :=
  h.linkSlot host (fun m hm => hc m (List.mem_of_mem_filter hm)) 0

theorem links_linkStore (hg : Formed g.outlines) (hn : g.node? n.uid = some n) :
    g.Links n (g.linkStore host n).value := by
  have hc : ∀ m ∈ g.candidates host.options.reach n, g.MayLink n m.uid :=
    fun m hm => mayLink_of_mem_candidates hg hn hm
  exact ((Links.refl g n).linkKey host hc).linkSlot host hc 1

theorem Links.linkNearest (h : g.Links n g₁) (hc : ∀ m ∈ candidates, g.MayLink n m.uid)
    (p : Node → Bool) (slot : Nat) :
    g.Links n (g₁.linkFound n.uid ((candidates.find? p).map (·.uid)) slot).value := by
  apply h.linkFound
  intro pred hpred
  obtain ⟨m, hm, huid⟩ := Option.map_eq_some_iff.mp hpred
  exact huid ▸ hc m (List.mem_of_find?_eq_some hm)

theorem links_linkLoad (hg : Formed g.outlines) (hn : g.node? n.uid = some n) :
    g.Links n (g.linkLoad host n).value := by
  have hc : ∀ m ∈ g.candidates host.options.reach n, g.MayLink n m.uid :=
    fun m hm => mayLink_of_mem_candidates hg hn hm
  have hkey := (Links.refl g n).linkKey host hc
  unfold linkLoad
  simp only [Logged.value_bind]
  split
  · split_ifs
    · exact hkey
    · simp only [Logged.value_bind, Logged.value_find?]
      exact hkey.linkNearest hc _ 1
  · exact hkey

/-- Where the preimage is malformed no link is made. -/
theorem links_linkPreimage (hg : Formed g.outlines) (hn : g.node? n.uid = some n) :
    g.Links n (g.linkPreimage host n).value.2 := by
  have hc : ∀ m ∈ g.candidates host.options.reach n, g.MayLink n m.uid :=
    fun m hm => mayLink_of_mem_candidates hg hn hm
  unfold linkPreimage
  cases n.slots with
  | nil => exact Links.refl g n
  | cons slot rest =>
    dsimp only
    split_ifs
    · exact Links.refl g n
    simp only [Logged.value_bind]
    split_ifs
    · exact Links.refl g n
    · exact (Links.refl g n).linkNearest hc _ 0
    · exact Links.refl g n
    · simp only [Logged.value_bind, Logged.value_pure, Logged.value_map, Logged.value_find?,
        Logged.value_fold]
      apply List.foldlRecOn _ _ (Links.refl g n)
      intro g₂ hg₂ f hf
      obtain ⟨key, -, rfl⟩ := List.mem_map.mp hf
      exact hg₂.linkNearest hc _ 0

theorem Links.cores (h : g.Links n g₁) : g₁.cores = g.cores := by
  obtain ⟨links, -, rfl⟩ := h
  exact cores_linkAll g n.uid links

theorem Links.outlines (h : g.Links n g₁) : g₁.outlines = g.outlines :=
  outlines_of_cores h.cores

theorem Links.linkFromEntry (hg : Formed g.outlines) (hn : g.node? n.uid = some n)
    (hinstr : n.instruction ≠ none) (h : g.Links n g₁) :
    g.Links n (g₁.linkFromEntry n.uid).value := by
  apply h.linkFound
  intro pred hpred
  obtain ⟨s, hs, rfl⟩ := Option.map_eq_some_iff.mp hpred
  rw [boundaries?_congr h.outlines] at hs
  exact mayLink_entry hg hn hinstr hs

theorem links_linkParameter (hg : Formed g.outlines) (hn : g.node? n.uid = some n)
    (hinstr : n.instruction ≠ none) : g.Links n (g.linkParameter host n).value := by
  unfold linkParameter
  split
  · exact Links.refl g n
  · split_ifs
    · exact Links.refl g n
    · have hslots := links_linkSlots host hg hn
      simp only [Logged.value_bind]
      split_ifs
      · exact hslots
      · exact hslots.linkFromEntry hg hn hinstr
    · exact (Links.refl g n).linkFromEntry hg hn hinstr

/-- A node that leads its own block is not linked to itself. -/
theorem links_linkFromLeader (hg : Formed g.outlines) (hn : g.node? n.uid = some n)
    {target : Option Nat} (hkind : n.kind = .controlFlow target) :
    g.Links n (g.linkFromLeader n).value := by
  unfold linkFromLeader
  cases hx : n.instruction with
  | none =>
    have hl : n.leader? = none := by simp [Node.leader?, hx]
    rw [hl]
    exact Links.refl g n
  | some x =>
    have hl : n.leader? = some x.leader := by simp [Node.leader?, hx]
    rcases hg.leader (outlines_of_node? hn) hx with hself | hprec
    · rw [hl, hself]
      have hself : (g.link n.uid n.uid 0).value = g := by
        rcases link_value_cases g n.uid n.uid 0 with h | ⟨_, _, _, _, hne, _⟩
        · exact h
        · exact absurd rfl hne
      change g.Links n (g.link n.uid n.uid 0).value
      rw [hself]
      exact Links.refl g n
    · apply (Links.refl g n).linkFound
      intro pred hpred
      rw [hl] at hpred
      cases hpred
      obtain ⟨-, p, -, hp, -⟩ := id hprec
      obtain ⟨m, hm, -⟩ := node?_of_outlines hp
      exact ⟨hprec, ⟨m, hm, Or.inr ⟨hl, target, hkind⟩⟩, Or.inr (Or.inl hl)⟩

end Strategies

/-- What the search for the edges of `uid` can do to a graph. -/
inductive Searched (g : Graph) (uid : NodeId) : Graph → Prop where
  | unchanged : Searched g uid g
  | linked {n : Node} {g₁ : Graph} (hn : g.node? uid = some n) (hlive : n.isDeleted = false)
      (hsent : n.isSentinel = false) (hlinks : g.Links n g₁) : Searched g uid g₁
  | removed {n : Node} {g₁ : Graph} (hn : g.node? uid = some n) (hlive : n.isDeleted = false)
      (hsent : n.isSentinel = false) (hlinks : g.Links n g₁) : Searched g uid (g₁.detach uid)
  | collapsed {n m : Node} {g₁ : Graph} {keep : Nat} {s : Slot} (hn : g.node? uid = some n)
      (hlive : n.isDeleted = false) (hsent : n.isSentinel = false) (hlinks : g.Links n g₁)
      (hm : g₁.node? uid = some m) (hs : m.slots[keep]? = some s)
      (hrest : ∀ (i : Nat) (t : Slot), m.slots[i]? = some t → i ≠ keep → t.preds = [])
      (hmask : n.opcode?.any Opcode.isMask = true) :
      Searched g uid (g₁.update uid fun n => { n with slots := [s] })

/-- A slot that no link is made at stays as it is. -/
theorem slots_linkAll {g : Graph} {uid : NodeId} {n m : Node} {links : List (NodeId × Nat)}
    (hg : Formed g.outlines) (hn : g.node? uid = some n) (hinstr : n.instruction ≠ none)
    (hm : (g.linkAll uid links).node? uid = some m) {i : Nat} (hi : ∀ l ∈ links, l.2 ≠ i) :
    m.slots[i]? = n.slots[i]? := by
  have huid : n.uid = uid := hg.uid_node hn
  subst huid
  rw [node?_linkAll hg hn hinstr] at hm
  cases hm
  rw [n.slots_gain]
  cases n.slots[i]? with
  | none => rfl
  | some s => rw [Option.map_some, gains_of_ne hi]

theorem mem_resolved {resolved : List Bool} {i : Nat} :
    i ∈ (resolved.zipIdx.filter (·.1)).map (·.2) ↔ resolved[i]? = some true := by
  simp [List.mem_zipIdx_iff_getElem?]

section Unresolved

variable {host : Host} {g : Graph} {n : Node}

/-- A slot without a producer is not linked. -/
theorem ne_of_mem_linksTo {i : Nat} (hun : (g.linkSlots host n).value.2[i]? ≠ some true)
    {l : NodeId × Nat} (hl : l ∈ linksTo (n.slots.map fun s =>
      (resolve host (g.candidates host.options.reach n) s).value.1)) : l.2 ≠ i := by
  rintro rfl
  rw [mem_linksTo, List.getElem?_map, Option.map_eq_some_iff] at hl
  obtain ⟨t, ht, hfound⟩ := hl
  rw [linkSlots_value, List.getElem?_map, ht] at hun
  have hres : (resolve host (g.candidates host.options.reach n) t).value.2 = false := by
    simpa using hun
  rw [(resolve_unresolved hres).2] at hfound
  cases hfound

/-- A slot without a producer has none after the others are linked. -/
theorem preds_linkSlots {m : Node} {i : Nat} {t : Slot} (hg : Formed g.outlines)
    (hn : g.node? n.uid = some n) (hinstr : n.instruction ≠ none)
    (hm : (g.linkSlots host n).value.1.node? n.uid = some m) (ht : m.slots[i]? = some t)
    (hun : (g.linkSlots host n).value.2[i]? ≠ some true) : t.preds = [] := by
  have hi := fun l hl => ne_of_mem_linksTo hun (l := l) hl
  rw [linkSlots_value] at hm hun
  have ht' : n.slots[i]? = some t := (slots_linkAll hg hn hinstr hm hi).symm.trans ht
  rw [List.getElem?_map, ht'] at hun
  have hres : (resolve host (g.candidates host.options.reach n) t).value.2 = false := by
    simpa using hun
  exact (resolve_unresolved hres).1

/-- A node without a producer is not linked. -/
theorem linkSlots_of_unresolved
    (h : ((g.linkSlots host n).value.2.zipIdx.filter (·.1)).map (·.2) = []) :
    (g.linkSlots host n).value.1 = g := by
  have hun : ∀ i : Nat, (g.linkSlots host n).value.2[i]? ≠ some true := by
    intro i hi
    have hmem := mem_resolved.mpr hi
    rw [h] at hmem
    cases hmem
  have hnone : linksTo (n.slots.map fun s =>
      (resolve host (g.candidates host.options.reach n) s).value.1) = [] :=
    List.eq_nil_iff_forall_not_mem.mpr fun l hl => ne_of_mem_linksTo (hun l.2) hl rfl
  rw [linkSlots_value, hnone]
  rfl

end Unresolved

/-- What becomes of a mask: it keeps its slots, is removed for want of a producer, or keeps the only
slot that has one. -/
inductive Settles (host : Host) (g : Graph) (n : Node) : Graph → Prop where
  | kept (h : n.slots.length < 2 ∨
        2 ≤ (((g.linkSlots host n).value.2.zipIdx.filter (·.1)).map (·.2)).length) :
      Settles host g n (g.linkSlots host n).value.1
  | removed (h : 2 ≤ n.slots.length)
      (hkept : ((g.linkSlots host n).value.2.zipIdx.filter (·.1)).map (·.2) = []) :
      Settles host g n ((g.linkSlots host n).value.1.detach n.uid)
  | collapsed {only : Nat} {m : Node} {s : Slot} (h : 2 ≤ n.slots.length)
      (hkept : ((g.linkSlots host n).value.2.zipIdx.filter (·.1)).map (·.2) = [only])
      (hm : (g.linkSlots host n).value.1.node? n.uid = some m) (hs : m.slots[only]? = some s) :
      Settles host g n
        ((g.linkSlots host n).value.1.update n.uid fun n => { n with slots := [s] })

theorem settles_settleMask (host : Host) {g : Graph} {n : Node} (hg : Formed g.outlines)
    (hn : g.node? n.uid = some n) (hinstr : n.instruction ≠ none) :
    g.Settles host n (g.settleMask host n).value := by
  have hlength := length_linkSlots host g n
  unfold settleMask
  simp only [Logged.value_bind]
  split_ifs with hlen
  · exact .kept (Or.inl (hlength ▸ hlen))
  · have hlen : 2 ≤ n.slots.length := hlength ▸ Nat.not_lt.mp hlen
    split
    · exact .removed hlen ‹_›
    · rename_i only hkept
      obtain ⟨m, hm⟩ : ∃ m, (g.linkSlots host n).value.1.node? n.uid = some m ∧
          m.slots.length = n.slots.length := by
        rw [linkSlots_value]
        exact ⟨_, node?_linkAll hg hn hinstr _, List.length_mapIdx⟩
      obtain ⟨s, hs⟩ : ∃ s, m.slots[only]? = some s := by
        have honly := mem_resolved.mp (hkept ▸ List.mem_singleton_self only)
        have hlt := (List.getElem?_eq_some_iff.mp honly).1
        exact ⟨_, List.getElem?_eq_getElem (hm.2 ▸ hlength ▸ hlt)⟩
      unfold collapse
      simp only [hm.1, Option.bind_some, hs, Logged.value_bind, Logged.value_pure]
      exact .collapsed hlen hkept hm.1 hs
    · rename_i hnil hone
      refine .kept (Or.inr ?_)
      generalize ((g.linkSlots host n).value.2.zipIdx.filter (·.1)).map (·.2) = kept at hnil hone
      rcases kept with _ | ⟨i, _ | ⟨j, rest⟩⟩
      · exact absurd rfl hnil
      · exact absurd rfl (hone i)
      · exact Nat.le_add_left 2 rest.length

theorem searched_settleMask {host : Host} {g : Graph} {n : Node} (hg : Formed g.outlines)
    (hn : g.node? n.uid = some n) (hlive : n.isDeleted = false) (hsent : n.isSentinel = false)
    (hmask : n.opcode?.any Opcode.isMask = true) :
    g.Searched n.uid (g.settleMask host n).value := by
  have hlinks := links_linkSlots host hg hn
  have hinstr := hg.instruction_ne_none hn hsent
  have hsettles := settles_settleMask host hg hn hinstr
  generalize (g.settleMask host n).value = g' at hsettles
  cases hsettles with
  | kept => exact .linked hn hlive hsent hlinks
  | removed => exact .removed hn hlive hsent hlinks
  | collapsed _ hkept hm hs =>
    refine .collapsed hn hlive hsent hlinks hm hs ?_ hmask
    intro i t ht hne
    apply preds_linkSlots hg hn hinstr hm ht
    rw [Ne, ← mem_resolved, hkept, List.mem_singleton]
    exact hne

theorem searched_linkDestination {host : Host} {g : Graph} {n : Node} (hg : Formed g.outlines)
    (hn : g.node? n.uid = some n) (hlive : n.isDeleted = false) (hsent : n.isSentinel = false)
    (hinstr : n.instruction ≠ none) (hdest : n.is .jumpdest = true) :
    g.Searched n.uid (g.linkDestination host n).value := by
  unfold linkDestination
  split_ifs
  · exact .unchanged
  · dsimp only
    split
    · rename_i source hsource
      have hmay := mayLink_of_mem_liveBefore hg hn (List.mem_of_find?_eq_some hsource)
        (Or.inl hdest)
      have hlinks : g.Links n (g.linkFound n.uid (some source.uid) 0).value :=
        (Links.refl g n).linkFound (by rintro pred ⟨rfl⟩; exact hmay) 0
      exact .linked hn hlive hsent hlinks
    · split_ifs
      · exact .removed hn hlive hsent (Links.refl g n)
      · exact .linked hn hlive hsent ((Links.refl g n).linkFromEntry hg hn hinstr)

theorem searched_linkNode {host : Host} {g : Graph} {n : Node} {o : Opcode}
    (hg : Formed g.outlines) (hn : g.node? n.uid = some n) (hlive : n.isDeleted = false)
    (hsent : n.isSentinel = false) (hinstr : n.instruction ≠ none) (ho : n.opcode? = some o) :
    g.Searched n.uid (g.linkNode host n o).value.2 := by
  have hlinked : ∀ g₁, g.Links n g₁ → g.Searched n.uid g₁ := fun g₁ => .linked hn hlive hsent
  have hslots := links_linkSlots host hg hn
  unfold linkNode
  split
  · exact hlinked _ (links_linkStore host hg hn)
  · exact hlinked _ (links_linkLoad host hg hn)
  · exact hlinked _ (links_linkPreimage host hg hn)
  · exact searched_settleMask hg hn hlive hsent (by simp [ho, Opcode.isMask])
  · exact searched_settleMask hg hn hlive hsent (by simp [ho, Opcode.isMask])
  · exact hlinked _ (links_linkParameter host hg hn hinstr)
  · split_ifs
    · exact hlinked _ ((Links.refl g n).linkFromEntry hg hn hinstr)
    · exact hlinked _ hslots
  · exact searched_linkDestination hg hn hlive hsent hinstr (by simp [Node.is, ho])
  · rename_i target _ hkind _
    exact hlinked _ (links_linkFromLeader hg hn hkind)
  -- Four kinds of nodes link all their slots, and four are not linked.
  iterate 4
    exact hlinked _ hslots
  all_goals exact .unchanged

/-- The search for the edges of a node, whether it succeeds or not. -/
theorem searched_findEdges (host : Host) {g : Graph} (hg : Formed g.outlines) (uid : NodeId) :
    g.Searched uid (g.findEdges host uid).value.2 := by
  unfold findEdges
  cases hn : g.node? uid with
  | none => exact .unchanged
  | some n =>
    have huid : n.uid = uid := hg.uid_node hn
    subst huid
    cases hx : n.instruction with
    | none =>
      have ho : n.opcode? = none := by simp [Node.opcode?, hx]
      simp only [ho, (hg.sentinel_iff hn).mpr hx, Bool.or_true]
      exact .unchanged
    | some x =>
      have hinstr : n.instruction ≠ none := by simp [hx]
      have ho : n.opcode? = some x.opcode := by simp [Node.opcode?, hx]
      have hsent : n.isSentinel = false := by
        by_contra hsent
        exact hinstr ((hg.sentinel_iff hn).mp (by simpa using hsent))
      cases hlive : n.isDeleted with
      | true =>
        simp only [ho, hlive, Bool.true_or]
        exact .unchanged
      | false =>
        simp only [ho, hlive, hsent, Bool.or_false, Logged.value_bind]
        exact searched_linkNode hg hn hlive hsent hinstr ho

end Graph
end OperandFlow
