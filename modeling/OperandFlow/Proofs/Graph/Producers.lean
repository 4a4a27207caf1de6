import OperandFlow.Proofs.Graph.Scope

/-! What the search for the edges of an instruction finds: each of its operands is supplied by the
newest node in reach that produced it, and a storage read by the newest write to its key. -/
namespace OperandFlow

/-- `ids` names the newest of the nodes with `p`, if there is one. -/
def Newest (p : Node → Bool) (nodes : List Node) (ids : List NodeId) : Prop :=
  (∃ m ∈ nodes, p m = true ∧ (∀ k ∈ nodes, p k = true → k.uid ≤ m.uid) ∧ ids = [m.uid]) ∨
    (∀ m ∈ nodes, p m = false) ∧ ids = []

namespace Newest

variable {p : Node → Bool} {nodes : List Node} {ids : List NodeId}

/-- The first one found is the newest if the newest stand in front. -/
theorem of_find? (h : nodes.Pairwise fun m k => k.uid < m.uid) :
    Newest p nodes ((nodes.find? p).map (·.uid)).toList := by
  cases hfind : nodes.find? p with
  | none =>
    refine Or.inr ⟨?_, rfl⟩
    intro m hm
    simpa using List.find?_eq_none.mp hfind m hm
  | some m =>
    obtain ⟨hm, before, after, rfl, hbefore⟩ := List.find?_eq_some_iff_append.mp hfind
    refine Or.inl ⟨m, by simp, hm, ?_, rfl⟩
    intro k hk hpk
    rcases List.mem_append.mp hk with hk | hk
    · exact absurd hpk (by simpa using hbefore k hk)
    · rcases List.mem_cons.mp hk with rfl | hk
      · exact Nat.le_refl _
      · exact Nat.le_of_lt ((List.pairwise_cons.mp (List.pairwise_append.mp h).2.1).1 k hk)

theorem mem (h : Newest p nodes ids) {c : NodeId} (hc : c ∈ ids) :
    ∃ m ∈ nodes, m.uid = c ∧ p m = true := by
  rcases h with ⟨m, hm, hpm, -, rfl⟩ | ⟨-, rfl⟩
  · exact ⟨m, hm, (List.mem_singleton.mp hc).symm, hpm⟩
  · cases hc

/-- What uses a node does not matter. -/
theorem map_upstream (hp : ∀ m, p m.upstream = p m) :
    Newest p (nodes.map Node.upstream) ids ↔ Newest p nodes ids := by
  unfold Newest
  simp only [List.mem_map, exists_exists_and_eq_and, forall_exists_index, and_imp,
    forall_apply_eq_imp_iff₂, hp]
  rfl

end Newest

/-- A symbolic operand is supplied by the newest of the candidates that produced it, and any other
by nothing. -/
def Slot.Supplied (host : Host) (candidates : List Node) (s : Slot) : Prop :=
  if s.seeksProducer then
    Newest (fun m => (Graph.produces host s.datum m).value) candidates s.preds
  else s.preds = []

/-- All the operands of these instructions are linked alike. -/
def Opcode.computes : Opcode → Bool
  | add | sub | iszero | and | or | call | delegatecall | log _ => true
  | _ => false

/-- The slot holds an operand of the node, which nodes with `eligible` may supply. -/
inductive Node.Operand (n : Node) : Slot → (Node → Bool) → Prop where
  | computed {o : Opcode} {s : Slot} (ho : n.opcode? = some o) (h : o.computes = true)
      (hs : s ∈ n.slots) : Operand n s fun _ => true
  | key {s : Slot} (h : n.is .sstore = true ∨ n.is .sload = true) (hs : n.slots[0]? = some s) :
      Operand n s (·.isOneOf Graph.storageKeyProducers)
  | stored {s : Slot} (h : n.is .sstore = true) (hs : n.slots[1]? = some s) :
      Operand n s fun _ => true

theorem Node.Operand.instruction_ne_none {n : Node} {s : Slot} {eligible : Node → Bool}
    (h : n.Operand s eligible) : n.instruction ≠ none := by
  cases h with
  | computed ho _ _ =>
    intro hnone
    simp [Node.opcode?, hnone] at ho
  | key haccess _ => exact haccess.elim Node.instruction_ne_none_of_is Node.instruction_ne_none_of_is
  | stored hstore _ => exact Node.instruction_ne_none_of_is hstore

/-- The node wrote to an equal key. -/
def Node.writes (host : Host) (key : Datum) (n : Node) : Bool :=
  n.is .sstore && n.slots.head?.any fun s => (Graph.sameValue host s.datum key).value

/-- All operands of the node are supplied as they should be. -/
structure Node.Resolved (host : Host) (candidates : List Node) (n : Node) : Prop where
  storage : n.is .sstore = true ∨ n.is .sload = true → n.slots.length = 2
  operand : ∀ s eligible, n.Operand s eligible → s.Supplied host (candidates.filter eligible)
  loaded : n.is .sload = true → ∀ key value, n.slots = [key, value] →
    Newest (Node.writes host key.datum) candidates value.preds

theorem Slot.Supplied.congr {host : Host} {s : Slot} {nodes nodes' : List Node}
    (h : s.Supplied host nodes) (hnodes : nodes'.map Node.upstream = nodes.map Node.upstream) :
    s.Supplied host nodes' := by
  unfold Supplied at h ⊢
  split_ifs at h ⊢
  · rw [← Newest.map_upstream fun _ => rfl] at h ⊢
    rwa [hnodes]
  · exact h

theorem Node.Operand.eligible_upstream {n : Node} {s : Slot} {eligible : Node → Bool}
    (h : n.Operand s eligible) (m : Node) : eligible m.upstream = eligible m := by
  cases h <;> rfl

theorem Node.Resolved.congr {host : Host} {n : Node} {nodes nodes' : List Node}
    (h : n.Resolved host nodes) (hnodes : nodes'.map Node.upstream = nodes.map Node.upstream) :
    n.Resolved host nodes' where
  storage := h.storage
  operand := by
    intro s eligible hs
    exact (h.operand s eligible hs).congr (filter_upstream hs.eligible_upstream hnodes)
  loaded := by
    intro hload key value hslots
    have hnewest := h.loaded hload key value hslots
    rw [← Newest.map_upstream fun _ => rfl] at hnewest ⊢
    rwa [hnodes]

theorem Node.Resolved.redirect {host : Host} {n : Node} {nodes : List Node}
    (h : n.Resolved host nodes) (successors : List NodeId) :
    ({ n with successors } : Node).Resolved host nodes where
  storage := h.storage
  operand := by
    intro s eligible hs
    cases hs with
    | computed ho hcomputes hs => exact h.operand s _ (.computed ho hcomputes hs)
    | key hopcode hs => exact h.operand s _ (.key hopcode hs)
    | stored hopcode hs => exact h.operand s _ (.stored hopcode hs)
  loaded := h.loaded

namespace Node

variable {host : Host} {nodes : List Node} {n : Node} {o : Opcode}

theorem is_eq (ho : n.opcode? = some o) (o' : Opcode) : n.is o' = decide (o = o') := by
  simp [is, ho]

theorem not_access (ho : n.opcode? = some o) (h : o.isStorage = false) :
    n.is .sstore = false ∧ n.is .sload = false := by
  rw [is_eq ho, is_eq ho, decide_eq_false_iff_not, decide_eq_false_iff_not]
  constructor <;> rintro rfl <;> cases h

theorem resolved_of_computes (ho : n.opcode? = some o) (h : o.computes = true)
    (hslots : ∀ s ∈ n.slots, s.Supplied host nodes) : n.Resolved host nodes := by
  have hstorage : o.isStorage = false := by
    cases o <;> first | rfl | cases h
  obtain ⟨hstore, hload⟩ := not_access ho hstorage
  constructor
  case storage => simp [hstore, hload]
  case operand =>
    intro s eligible hs
    cases hs with
    | computed _ _ hs => simpa using hslots s hs
    | key h _ => simp [hstore, hload] at h
    | stored h _ => simp [hstore] at h
  case loaded => simp [hload]

theorem resolved_of_access {key value : Slot} (ho : n.opcode? = some o) (h : o.computes = false)
    (hslots : n.slots = [key, value])
    (hkey : key.Supplied host (nodes.filter (·.isOneOf Graph.storageKeyProducers)))
    (hstored : n.is .sstore = true → value.Supplied host nodes)
    (hloaded : n.is .sload = true → Newest (writes host key.datum) nodes value.preds) :
    n.Resolved host nodes := by
  constructor
  case storage => simp [hslots]
  case operand =>
    intro s eligible hs
    cases hs with
    | computed ho' h' _ =>
      rw [ho] at ho'
      cases ho'
      cases h.symm.trans h'
    | key _ hs =>
      rw [hslots] at hs
      cases hs
      exact hkey
    | stored hstore hs =>
      rw [hslots] at hs
      cases hs
      simpa using hstored hstore
  case loaded =>
    intro hload key' value' hslots'
    rw [hslots] at hslots'
    cases hslots'
    exact hloaded hload

theorem resolved_of_other (ho : n.opcode? = some o) (h : o.computes = false)
    (hstorage : o.isStorage = false) : n.Resolved host nodes := by
  obtain ⟨hstore, hload⟩ := not_access ho hstorage
  constructor
  case storage => simp [hstore, hload]
  case operand =>
    intro s eligible hs
    cases hs with
    | computed ho' h' _ =>
      rw [ho] at ho'
      cases ho'
      cases h.symm.trans h'
    | key h _ => simp [hstore, hload] at h
    | stored h _ => simp [hstore] at h
  case loaded => simp [hload]

end Node

/-- The node is as it arrived, but for its result: nothing is linked yet. -/
structure Node.Fresh (n : Node) : Prop where
  unlinked : ∀ s ∈ n.slots, s.preds = []
  kind : ∃ a : Arrival, n.opcode? = some a.opcode ∧ n.kind = a.kind a.opcode.category
  storage : ∀ o, n.opcode? = some o → o.isStorage = true → n.slots.length = 2
  single : ∀ target, n.kind = .controlFlow target → n.slots.length = 1
  leader : n.leader? = some n.uid ↔ n.is .jumpdest = true

namespace Graph

theorem sameValue_value (host : Host) (l r : Datum) :
    (sameValue host l r).value =
      Operand.equal host.oracle ⟨l.value, l.rendering.text⟩ ⟨r.value, r.rendering.text⟩ := by
  unfold sameValue Operand.equal
  simp only [Logged.value_bind, consult]
  cases Operand.textEqual? ⟨l.value, l.rendering.text⟩ ⟨r.value, r.rendering.text⟩ <;> rfl

theorem writesTo_value (host : Host) (key : Datum) (n : Node) :
    (writesTo host key n).value = n.writes host key := by
  unfold writesTo Node.writes
  cases n.is .sstore <;> cases n.slots.head? <;> rfl

/-- Nothing equals an empty key. -/
theorem writes_of_isEmpty {host : Host} {key : Datum} (h : key.value.isEmpty = true) (n : Node) :
    n.writes host key = false := by
  unfold Node.writes
  cases n.slots.head? <;> simp [sameValue_value, Operand.equal, Operand.textEqual?, h]

/-- An `SSTORE` produces nothing. -/
theorem not_sstore_of_produces {host : Host} {d : Datum} {n : Node}
    (h : (produces host d n).value = true) : n.is .sstore = false := by
  by_contra hstore
  have hstore : n.is .sstore = true := by simpa using hstore
  simp [produces, hstore] at h

/-- What is found for a slot without a predecessor supplies it as it should be. -/
theorem supplied_resolve {host : Host} {candidates : List Node} {s : Slot}
    (hdesc : candidates.Pairwise fun m k => k.uid < m.uid) (hs : s.preds = []) :
    ({ s with preds := (resolve host candidates s).value.1.toList } : Slot).Supplied host
      candidates := by
  unfold Slot.Supplied
  by_cases hseek : s.seeksProducer = true
  · have hfound : (resolve host candidates s).value.1 =
        (candidates.find? fun m => (produces host s.datum m).value).map (·.uid) := by
      simp only [resolve, hs, hseek, producer?, List.isEmpty_nil, Bool.not_true, Bool.false_eq_true,
        if_false, if_true, Logged.value_bind, Logged.value_find?, Logged.value_pure]
    rw [hfound, if_pos (by exact hseek)]
    exact Newest.of_find? hdesc
  · rw [if_neg (by exact hseek)]
    simp [resolve, hs, hseek]

section Linking

variable {g : Graph} {uid : NodeId} {n m : Node}

theorem pairwise_linksTo (found : List (Option NodeId)) :
    (linksTo found).Pairwise (·.2 < ·.2) := by
  unfold linksTo
  rw [List.pairwise_flatMap]
  refine ⟨?_, ?_⟩
  · intro f _
    cases f.1 <;> simp
  · have hidx : (found.zipIdx.map (·.2)).Pairwise (· < ·) := by
      rw [List.zipIdx_map_snd]
      exact List.pairwise_lt_range'
    rw [List.pairwise_map] at hidx
    refine hidx.imp ?_
    intro a b hab x hx y hy
    obtain ⟨_, -, rfl⟩ := List.mem_map.mp hx
    obtain ⟨_, -, rfl⟩ := List.mem_map.mp hy
    exact hab

/-- A slot that one link is made at. -/
theorem gains_of_mem {links : List (NodeId × Nat)} {pred : NodeId} {i : Nat}
    {preds : List NodeId} (hlinks : links.Pairwise (·.2 < ·.2)) (hl : (pred, i) ∈ links)
    (hne : pred ≠ uid) (hnot : pred ∉ preds) : gains uid links i preds = preds ++ [pred] := by
  induction links with
  | nil => cases hl
  | cons l links ih =>
    obtain ⟨hlt, hlinks⟩ := List.pairwise_cons.mp hlinks
    rw [gains_cons]
    rcases List.mem_cons.mp hl with rfl | hl
    · rw [gains_singleton, if_pos ⟨rfl, hne, hnot⟩]
      exact gains_of_ne fun l hl => (Nat.ne_of_lt (hlt l hl)).symm
    · have hother : gains uid [l] i preds = preds := by
        apply gains_of_ne
        intro l' hl'
        rw [List.mem_singleton.mp hl']
        exact Nat.ne_of_lt (hlt _ hl)
      rw [hother, ih hlinks hl]

theorem gains_linksTo {found : List (Option NodeId)} {i : Nat} {preds : List NodeId}
    (h : ∀ p, found[i]? = some (some p) → p ≠ uid ∧ p ∉ preds) :
    gains uid (linksTo found) i preds = preds ++ (found[i]?.getD none).toList := by
  cases hfound : found[i]?.getD none with
  | none =>
    rw [Option.toList_none, List.append_nil]
    apply gains_of_ne
    rintro l hl rfl
    rw [mem_linksTo] at hl
    rw [hl] at hfound
    cases hfound
  | some pred =>
    have hi : found[i]? = some (some pred) := by
      cases hf : found[i]? with
      | none => simp [hf] at hfound
      | some f =>
        rw [hf] at hfound
        exact congrArg some hfound
    exact gains_of_mem (pairwise_linksTo found) (mem_linksTo.mpr hi) (h pred hi).1 (h pred hi).2

/-- The slots of a node once it is linked to what was found for each of them. -/
theorem slots_gain_linksTo {found : List (Option NodeId)}
    (h : ∀ (i : Nat) (s : Slot) (p : NodeId), n.slots[i]? = some s → found[i]? = some (some p) →
      p ≠ n.uid ∧ p ∉ s.preds) :
    (n.gain (linksTo found)).slots = n.slots.mapIdx fun i s =>
      { s with preds := s.preds ++ (found[i]?.getD none).toList } := by
  apply List.ext_getElem?
  intro i
  rw [n.slots_gain, List.getElem?_mapIdx]
  cases hs : n.slots[i]? with
  | none => rfl
  | some s => rw [Option.map_some, Option.map_some, gains_linksTo fun p => h i s p hs]

theorem slots_linksTo {found : List (Option NodeId)} (hg : Formed g.outlines)
    (hn : g.node? uid = some n) (hinstr : n.instruction ≠ none)
    (hfresh : ∀ s ∈ n.slots, s.preds = []) (hne : ∀ p, some p ∈ found → p ≠ uid)
    (hm : (g.linkAll uid (linksTo found)).node? uid = some m) :
    m.slots = n.slots.mapIdx fun i s => { s with preds := (found[i]?.getD none).toList } := by
  have huid : n.uid = uid := hg.uid_node hn
  subst huid
  rw [node?_linkAll hg hn hinstr] at hm
  cases hm
  rw [slots_gain_linksTo]
  · apply List.ext_getElem?
    intro i
    rw [List.getElem?_mapIdx, List.getElem?_mapIdx]
    cases hs : n.slots[i]? with
    | none => rfl
    | some s => simp [hfresh s (List.mem_of_getElem? hs)]
  · intro i s p hs hp
    rw [hfresh s (List.mem_of_getElem? hs)]
    exact ⟨hne p (List.mem_of_getElem? hp), List.not_mem_nil⟩

end Linking

section Search

variable {host : Host} {g : Graph} {n m : Node} {key value : Slot}

theorem linkStore_value (hslots : n.slots = [key, value]) :
    (g.linkStore host n).value = g.linkAll n.uid (linksTo
      [(resolve host ((g.candidates host.options.reach n).filter
          (·.isOneOf storageKeyProducers)) key).value.1,
        (resolve host (g.candidates host.options.reach n) value).value.1]) := by
  simp [linkStore, linkKey, linkSlot, hslots, linkFound_value, linkAll_append, linksTo]

/-- An empty key needs no case of its own, since nothing writes to it. -/
theorem linkLoad_value (hslots : n.slots = [key, value]) :
    (g.linkLoad host n).value = g.linkAll n.uid (linksTo
      [(resolve host ((g.candidates host.options.reach n).filter
          (·.isOneOf storageKeyProducers)) key).value.1,
        if value.preds.isEmpty then
          ((g.candidates host.options.reach n).find? (Node.writes host key.datum)).map (·.uid)
        else none]) := by
  have hwrite : (g.candidates host.options.reach n).find?
      (fun m => (writesTo host key.datum m).value) =
        (g.candidates host.options.reach n).find? (Node.writes host key.datum) := by
    simp only [writesTo_value]
  by_cases hpreds : value.preds = []
  · by_cases hempty : key.value.isEmpty = true
    · have hnone : (g.candidates host.options.reach n).find? (Node.writes host key.datum) =
          none := by
        rw [List.find?_eq_none]
        intro m _
        simp [writes_of_isEmpty hempty]
      simp [linkLoad, linkKey, linkSlot, hslots, hpreds, hempty, hnone, linkFound_value, linksTo]
    · simp [linkLoad, linkKey, linkSlot, hslots, hpreds, hempty, hwrite, linkFound_value,
        linkAll_append, linksTo]
  · simp [linkLoad, linkKey, linkSlot, hslots, hpreds, linkFound_value, linksTo]

theorem linkLoad_of_unlinked (hslots : n.slots = [key, value]) (hnil : value.preds = []) :
    (g.linkLoad host n).value = g.linkAll n.uid (linksTo
      [(resolve host ((g.candidates host.options.reach n).filter
          (·.isOneOf storageKeyProducers)) key).value.1,
        ((g.candidates host.options.reach n).find? (Node.writes host key.datum)).map (·.uid)]) := by
  rw [linkLoad_value hslots, hnil]
  rfl

/-- A candidate is another node. -/
theorem ne_of_mem_candidates (hg : Formed g.outlines) {limit : Nat} {p : NodeId}
    (h : ∃ m ∈ g.candidates limit n, m.uid = p) : p ≠ n.uid := by
  obtain ⟨m, hm, rfl⟩ := h
  exact Nat.ne_of_lt (mem_liveBefore hg (List.mem_of_mem_filter hm)).2.1

/-- The slots of a node once all of them are linked. -/
theorem slots_linkSlots (hg : Formed g.outlines) (hn : g.node? n.uid = some n)
    (hinstr : n.instruction ≠ none)
    (hm : (g.linkSlots host n).value.1.node? n.uid = some m) :
    m.slots = n.slots.map fun s => { s with preds :=
      s.preds ++ (resolve host (g.candidates host.options.reach n) s).value.1.toList } := by
  rw [linkSlots_value, node?_linkAll hg hn hinstr] at hm
  cases hm
  rw [slots_gain_linksTo]
  · apply List.ext_getElem?
    intro i
    rw [List.getElem?_mapIdx, List.getElem?_map, List.getElem?_map]
    cases n.slots[i]? <;> rfl
  · intro i s p hs hp
    rw [List.getElem?_map, hs, Option.map_some, Option.some_inj] at hp
    rw [preds_of_resolve hp]
    exact ⟨ne_of_mem_candidates hg (resolve_value hp), List.not_mem_nil⟩

/-- Every slot of a fresh node is supplied as it should be once all of them are linked. -/
theorem supplied_linkSlots (hg : Formed g.outlines) (hn : g.node? n.uid = some n)
    (hinstr : n.instruction ≠ none) (hfresh : n.Fresh)
    (hm : (g.linkSlots host n).value.1.node? n.uid = some m) :
    ∀ s ∈ m.slots, s.Supplied host (g.candidates host.options.reach n) := by
  rw [slots_linkSlots hg hn hinstr hm]
  intro t ht
  obtain ⟨s, hs, rfl⟩ := List.mem_map.mp ht
  rw [hfresh.unlinked s hs, List.nil_append]
  exact supplied_resolve (pairwise_candidates hg _ n) (hfresh.unlinked s hs)

/-- A node that was removed is gone. -/
theorem isDeleted_detach (hg : Formed g.outlines) {uid : NodeId} (hn : g.node? uid = some n)
    (hsent : n.isSentinel = false) (hm : (g.detach uid).node? uid = some m) :
    m.isDeleted = true := by
  have hcore := (cores_detach hg hn hsent uid).2
  rw [getElem?_cores, hm, if_pos rfl, Option.map_some] at hcore
  have hkind : m.kind = n.core.bury.kind :=
    (Node.of_core (n := n.bury) (Option.some.inj hcore)).2.1
  rw [Node.isDeleted, hkind]
  rfl

theorem Links.isDeleted_detach {g' : Graph} (h : g.Links n g') (hg : Formed g.outlines)
    (hn : g.node? n.uid = some n) (hinstr : n.instruction ≠ none)
    (hm : (g'.detach n.uid).node? n.uid = some m) : m.isDeleted = true := by
  have hg' : Formed g'.outlines := h.outlines ▸ hg
  obtain ⟨k, hk, hcore⟩ := node?_of_cores h.cores hn
  have hinstr' : k.instruction ≠ none := (Node.of_core hcore).1 ▸ hinstr
  have hsent : k.isSentinel = false := by
    by_contra hsent
    exact hinstr' ((hg'.sentinel_iff hk).mp (by simpa using hsent))
  exact Graph.isDeleted_detach hg' hk hsent hm

/-- A mask that is not removed keeps all of its slots or one of them. -/
theorem supplied_settleMask (hg : Formed g.outlines) (hn : g.node? n.uid = some n)
    (hinstr : n.instruction ≠ none) (hfresh : n.Fresh)
    (hm : (g.settleMask host n).value.node? n.uid = some m) (hlive : m.isDeleted = false) :
    ∀ s ∈ m.slots, s.Supplied host (g.candidates host.options.reach n) := by
  have hlinks := links_linkSlots host hg hn
  have hsettles := settles_settleMask host hg hn hinstr
  generalize (g.settleMask host n).value = g' at hm hsettles
  cases hsettles with
  | kept => exact supplied_linkSlots hg hn hinstr hfresh hm
  | removed =>
    rw [hlinks.isDeleted_detach hg hn hinstr hm] at hlive
    cases hlive
  | collapsed _ _ hk hs =>
    rw [node?_update_self hk] at hm
    cases hm
    intro t ht
    rw [List.mem_singleton.mp ht]
    exact supplied_linkSlots hg hn hinstr hfresh hk _ (List.mem_of_getElem? hs)

theorem findEdges_value {uid : NodeId} {o : Opcode} (hg : Formed g.outlines)
    (hn : g.node? uid = some n) (hlive : n.isDeleted = false) (ho : n.opcode? = some o) :
    (g.findEdges host uid).value = (g.linkNode host n o).value := by
  have hsent : n.isSentinel = false := by
    by_contra hsent
    have hbare : n.instruction = none := (hg.sentinel_iff hn).mp (by simpa using hsent)
    simp [Node.opcode?, hbare] at ho
  unfold findEdges
  simp only [hn, hlive, hsent, ho, Bool.or_false, Logged.value_bind]

theorem linkNode_of_computes {a : Arrival} (h : a.opcode.computes = true)
    (hkind : n.kind = a.kind a.opcode.category) :
    (g.linkNode host n a.opcode).value =
      (.ok (), if a.opcode.isMask then (g.settleMask host n).value
        else (g.linkSlots host n).value.1) := by
  unfold Opcode.computes at h
  split at h
  case h_9 => cases h
  all_goals
    rename_i hopcode
    unfold Arrival.kind at hkind
    simp only [hopcode, Opcode.category, Opcode.isCall, if_true] at hkind ⊢
    simp [linkNode, hkind, Opcode.isMask]

theorem linkNode_sstore (hkind : n.kind = .stateVariable) :
    (g.linkNode host n .sstore).value = (.ok (), (g.linkStore host n).value) := by
  simp [linkNode, hkind]

theorem linkNode_sload (hkind : n.kind = .stateVariable) :
    (g.linkNode host n .sload).value = (.ok (), (g.linkLoad host n).value) := by
  simp [linkNode, hkind]

/-- The slots of a fresh storage access once its key and its value are linked. -/
theorem slots_access {found : List (Option NodeId)} {f₀ f₁ : Option NodeId} (hg : Formed g.outlines)
    (hn : g.node? n.uid = some n) (hinstr : n.instruction ≠ none) (hfresh : n.Fresh)
    (hslots : n.slots = [key, value]) (hfound : found = [f₀, f₁])
    (hne : ∀ p, some p ∈ found → p ≠ n.uid)
    (hm : (g.linkAll n.uid (linksTo found)).node? n.uid = some m) :
    m.slots = [{ key with preds := f₀.toList }, { value with preds := f₁.toList }] := by
  rw [slots_linksTo hg hn hinstr hfresh.unlinked hne hm, hslots, hfound]
  rfl

theorem resolved_linkStore (hg : Formed g.outlines) (hn : g.node? n.uid = some n)
    (hinstr : n.instruction ≠ none) (hfresh : n.Fresh) (ho : n.opcode? = some .sstore)
    (hmo : m.opcode? = some .sstore) (hm : (g.linkStore host n).value.node? n.uid = some m) :
    m.Resolved host (g.candidates host.options.reach n) := by
  obtain ⟨key, value, hslots⟩ := List.length_eq_two.mp (hfresh.storage _ ho rfl)
  have hdesc := pairwise_candidates hg host.options.reach n
  rw [linkStore_value hslots] at hm
  have hm' := slots_access hg hn hinstr hfresh hslots rfl ?_ hm
  · apply Node.resolved_of_access hmo rfl hm'
    · exact supplied_resolve (hdesc.filter _) (hfresh.unlinked key (by simp [hslots]))
    · intro _
      exact supplied_resolve hdesc (hfresh.unlinked value (by simp [hslots]))
    · intro hload
      rw [Node.is_eq hmo] at hload
      cases hload
  · intro p hp
    refine ne_of_mem_candidates hg (?_ : ∃ c ∈ g.candidates host.options.reach n, c.uid = p)
    simp only [List.mem_cons, List.not_mem_nil, or_false] at hp
    rcases hp with hp | hp
    · obtain ⟨c, hc, huid⟩ := resolve_value hp.symm
      exact ⟨c, List.mem_of_mem_filter hc, huid⟩
    · exact resolve_value hp.symm

theorem resolved_linkLoad (hg : Formed g.outlines) (hn : g.node? n.uid = some n)
    (hinstr : n.instruction ≠ none) (hfresh : n.Fresh) (ho : n.opcode? = some .sload)
    (hmo : m.opcode? = some .sload) (hm : (g.linkLoad host n).value.node? n.uid = some m) :
    m.Resolved host (g.candidates host.options.reach n) := by
  obtain ⟨key, value, hslots⟩ := List.length_eq_two.mp (hfresh.storage _ ho rfl)
  have hdesc := pairwise_candidates hg host.options.reach n
  rw [linkLoad_of_unlinked hslots (hfresh.unlinked value (by simp [hslots]))] at hm
  have hm' := slots_access hg hn hinstr hfresh hslots rfl ?_ hm
  · apply Node.resolved_of_access hmo rfl hm'
    · exact supplied_resolve (hdesc.filter _) (hfresh.unlinked key (by simp [hslots]))
    · intro hstore
      rw [Node.is_eq hmo] at hstore
      cases hstore
    · intro _
      exact Newest.of_find? hdesc
  · intro p hp
    refine ne_of_mem_candidates hg (?_ : ∃ c ∈ g.candidates host.options.reach n, c.uid = p)
    simp only [List.mem_cons, List.not_mem_nil, or_false] at hp
    rcases hp with hp | hp
    · obtain ⟨c, hc, huid⟩ := resolve_value hp.symm
      exact ⟨c, List.mem_of_mem_filter hc, huid⟩
    · obtain ⟨c, hc, huid⟩ := Option.map_eq_some_iff.mp hp.symm
      exact ⟨c, List.mem_of_find?_eq_some hc, huid⟩

/-- The search for the edges of a fresh node resolves its operands, unless it removes the node. -/
theorem resolved_runEdgeSearch {uid : NodeId} (hg : Formed g.outlines)
    (hn : g.node? uid = some n) (hfresh : n.Fresh) (hlive : n.isDeleted = false)
    (hm : (g.runEdgeSearch host uid).value.node? uid = some m) (hm' : m.isDeleted = false) :
    m.Resolved host (g.candidates host.options.reach n) := by
  obtain ⟨a, ho, hkind⟩ := hfresh.kind
  have huid : n.uid = uid := hg.uid_node hn
  subst huid
  have hinstr : n.instruction ≠ none := by
    intro hnone
    simp [Node.opcode?, hnone] at ho
  have hmo : m.opcode? = some a.opcode := by
    have hout := outlines_of_node? hm
    rw [(searched_runEdgeSearch host hg n.uid).outlines hg, outlines_of_node? hn] at hout
    rw [← ho]
    exact congrArg (fun o => o.instruction.map (·.opcode)) (Option.some.inj hout).symm
  rw [runEdgeSearch_value, findEdges_value hg hn hlive ho] at hm
  by_cases hcomputes : a.opcode.computes = true
  · rw [linkNode_of_computes hcomputes hkind] at hm
    apply Node.resolved_of_computes hmo hcomputes
    dsimp only at hm
    split_ifs at hm
    · exact supplied_settleMask hg hn hinstr hfresh hm hm'
    · exact supplied_linkSlots hg hn hinstr hfresh hm
  have hcomputes : a.opcode.computes = false := by simpa using hcomputes
  by_cases hstore : a.opcode = .sstore
  · rw [hstore] at hkind hm ho hmo
    rw [linkNode_sstore hkind] at hm
    exact resolved_linkStore hg hn hinstr hfresh ho hmo hm
  by_cases hload : a.opcode = .sload
  · rw [hload] at hkind hm ho hmo
    rw [linkNode_sload hkind] at hm
    exact resolved_linkLoad hg hn hinstr hfresh ho hmo hm
  have hstorage : a.opcode.isStorage = false := by
    unfold Opcode.isStorage
    split
    · exact absurd ‹_› hload
    · exact absurd ‹_› hstore
    · rfl
  exact Node.resolved_of_other hmo hcomputes hstorage

end Search
end Graph
end OperandFlow
