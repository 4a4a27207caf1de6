import Mathlib.Data.Nat.Count
import OperandFlow.Proofs.Graph.Stability

/-! A view of a graph: the nodes of some calls of one function, numbered anew in their order and
under another name of the function. -/
namespace OperandFlow

/-- A value under other ids. -/
def Datum.renumber (ρ : NodeId → NodeId) (d : Datum) : Datum :=
  { d with id := { d.id with node := ρ d.id.node } }

structure View where
  function : String
  /-- The calls that are seen. -/
  calls : UInt64 → Bool
  /-- What the function is called in the view. -/
  name : String
  /-- The nodes that are seen. -/
  keep : NodeId → Bool

namespace View

variable (v : View)

/-- Instructions of the calls that are seen, and the sentinels of the function. -/
def admits (o : Outline) : Bool :=
  o.function = v.function && o.tx?.all v.calls

/-- The nodes of a graph are seen as they should be. -/
def Fits (os : Outlines) : Prop :=
  ∀ i o, os[i]? = some o → v.keep i = v.admits o

/-- A node is numbered by how many are seen before it. -/
def number (i : NodeId) : NodeId := Nat.count (fun j => v.keep j = true) i

def ids (l : List NodeId) : List NodeId := (l.filter v.keep).map v.number

def slot (s : Slot) : Slot := ⟨s.datum.renumber v.number, v.ids s.preds⟩

def node (n : Node) : Node :=
  { n with
    uid := v.number n.uid
    function := v.name
    instruction := n.instruction.map fun x => { x with leader := v.number x.leader }
    slots := n.slots.map v.slot
    successors := v.ids n.successors
    output := n.output.map (·.renumber v.number) }

def sentinels (s : Sentinels) : Sentinels := ⟨v.number s.entry, v.number s.exit⟩

def graph (g : Graph) : Graph where
  nodes := ((g.nodes.toList.filter fun n => v.keep n.uid).map v.node).toArray
  pending := v.ids g.pending

section Fields

variable (n : Node)

@[simp] theorem uid_node : (v.node n).uid = v.number n.uid := rfl

@[simp] theorem function_node : (v.node n).function = v.name := rfl

@[simp] theorem kind_node : (v.node n).kind = n.kind := rfl

@[simp] theorem slots_node : (v.node n).slots = n.slots.map v.slot := rfl

@[simp] theorem successors_node : (v.node n).successors = v.ids n.successors := rfl

@[simp] theorem output_node : (v.node n).output = n.output.map (·.renumber v.number) := rfl

@[simp] theorem isDeleted_node : (v.node n).isDeleted = n.isDeleted := rfl

@[simp] theorem isEntry_node : (v.node n).isEntry = n.isEntry := rfl

@[simp] theorem isSentinel_node : (v.node n).isSentinel = n.isSentinel := rfl

@[simp] theorem destination?_node : (v.node n).destination? = n.destination? := rfl

@[simp] theorem isNone_instruction_node :
    (v.node n).instruction.isNone = n.instruction.isNone := by
  simp [node]

@[simp] theorem opcode?_node : (v.node n).opcode? = n.opcode? := by
  simp [node, Node.opcode?, Function.comp_def]

@[simp] theorem tx?_node : (v.node n).tx? = n.tx? := by
  simp [node, Node.tx?, Function.comp_def]

@[simp] theorem leader?_node : (v.node n).leader? = n.leader?.map v.number := by
  simp [node, Node.leader?, Function.comp_def]

@[simp] theorem address_node : (v.node n).address = n.address := by
  simp [node, Node.address, Function.comp_def]

@[simp] theorem is_node (o : Opcode) : (v.node n).is o = n.is o := by
  rw [Node.is, Node.is, opcode?_node]

@[simp] theorem isOneOf_node (os : List Opcode) : (v.node n).isOneOf os = n.isOneOf os := by
  unfold Node.isOneOf
  rw [show (v.node n).is = n.is from funext (v.is_node n)]

@[simp] theorem predsAt_node (i : Nat) : (v.node n).predsAt i = v.ids (n.predsAt i) := by
  unfold Node.predsAt
  rw [slots_node, List.getElem?_map]
  cases n.slots[i]? <;> rfl

end Fields

variable {v} {i j : NodeId}

theorem number_succ (h : v.keep i = true) : v.number (i + 1) = v.number i + 1 := by
  unfold number
  rw [Nat.count_succ, if_pos h]

theorem number_succ_of_unseen (h : v.keep i = false) : v.number (i + 1) = v.number i := by
  unfold number
  rw [Nat.count_succ, if_neg (by simp [h]), Nat.add_zero]

theorem number_le (h : i ≤ j) : v.number i ≤ v.number j :=
  Nat.count_monotone _ h

theorem number_lt (hi : v.keep i = true) (h : i < j) : v.number i < v.number j :=
  Nat.count_strict_mono hi h

theorem number_inj (hi : v.keep i = true) (hj : v.keep j = true) :
    v.number i = v.number j ↔ i = j :=
  ⟨Nat.count_injective hi hj, congrArg v.number⟩

/-- Every number below is given to some node below. -/
theorem exists_number {k n : Nat} (h : k < v.number n) :
    ∃ i < n, v.keep i = true ∧ v.number i = k := by
  induction n with
  | zero => cases h
  | succ n ih =>
    by_cases hn : v.keep n = true
    · rw [number_succ hn] at h
      rcases Nat.lt_succ_iff_lt_or_eq.mp h with hlt | rfl
      · obtain ⟨i, hi, hrest⟩ := ih hlt
        exact ⟨i, Nat.lt_succ_of_lt hi, hrest⟩
      · exact ⟨n, Nat.lt_succ_self n, hn, rfl⟩
    · rw [number_succ_of_unseen (by simpa using hn)] at h
      obtain ⟨i, hi, hrest⟩ := ih h
      exact ⟨i, Nat.lt_succ_of_lt hi, hrest⟩

section Ids

variable {l l' : List NodeId} {uid : NodeId}

@[simp] theorem ids_nil : v.ids [] = [] := rfl

theorem ids_append : v.ids (l ++ l') = v.ids l ++ v.ids l' := by
  simp [ids]

theorem ids_cons (h : v.keep i = true) : v.ids (i :: l) = v.number i :: v.ids l := by
  simp [ids, h]

theorem ids_cons_of_unseen (h : v.keep i = false) : v.ids (i :: l) = v.ids l := by
  simp [ids, h]

theorem ids_eq_map (h : ∀ i ∈ l, v.keep i = true) : v.ids l = l.map v.number := by
  rw [ids, List.filter_eq_self.mpr h]

theorem mem_ids (hi : v.keep i = true) : v.number i ∈ v.ids l ↔ i ∈ l := by
  unfold ids
  rw [List.mem_map]
  constructor
  · rintro ⟨j, hj, heq⟩
    rw [List.mem_filter] at hj
    exact (number_inj hj.2 hi).mp heq ▸ hj.1
  · intro hmem
    exact ⟨i, List.mem_filter.mpr ⟨hmem, hi⟩, rfl⟩

theorem ids_filter_ne (h : v.keep uid = true) :
    v.ids (l.filter (· ≠ uid)) = (v.ids l).filter (· ≠ v.number uid) := by
  unfold ids
  rw [List.filter_map, List.filter_filter, List.filter_filter]
  congr 1
  apply List.filter_congr
  intro i _
  cases hi : v.keep i with
  | false => simp
  | true => simp [number_inj hi h]

theorem ids_filter_ne_of_unseen (h : v.keep uid = false) :
    v.ids (l.filter (· ≠ uid)) = v.ids l := by
  unfold ids
  rw [List.filter_filter]
  congr 1
  apply List.filter_congr
  intro i _
  by_cases hi : i = uid
  · simp [hi, h]
  · simp [hi]

end Ids

section Edits

variable {n : Node} {uid : NodeId} {slot : Nat}

theorem node_addPred (h : v.keep uid = true) :
    v.node (n.addPred slot uid) = (v.node n).addPred slot (v.number uid) := by
  have hslots : (n.addPred slot uid).slots.map v.slot =
      ((v.node n).addPred slot (v.number uid)).slots := by
    apply List.ext_getElem?
    intro i
    rw [List.getElem?_map, Node.slots_addPred, Node.slots_addPred, slots_node, List.getElem?_map]
    split_ifs
    · cases n.slots[i]? with
      | none => rfl
      | some s => simp [View.slot, ids_append, ids_cons h]
    · rfl
  unfold node at hslots ⊢
  rw [hslots]
  rfl

theorem node_addPred_of_unseen (h : v.keep uid = false) :
    v.node (n.addPred slot uid) = v.node n := by
  have hslots : (n.addPred slot uid).slots.map v.slot = n.slots.map v.slot := by
    apply List.ext_getElem?
    intro i
    rw [List.getElem?_map, Node.slots_addPred, List.getElem?_map]
    split_ifs
    · cases n.slots[i]? with
      | none => rfl
      | some s => simp [View.slot, ids_append, ids_cons_of_unseen h]
    · rfl
  unfold node at hslots ⊢
  rw [hslots]
  rfl

theorem node_erasePred (h : v.keep uid = true) :
    v.node (n.erasePred uid) = (v.node n).erasePred (v.number uid) := by
  unfold node Node.erasePred Slot.erase View.slot
  simp only [List.map_map, Function.comp_def, ids_filter_ne h]

theorem node_erasePred_of_unseen (h : v.keep uid = false) :
    v.node (n.erasePred uid) = v.node n := by
  unfold node Node.erasePred Slot.erase View.slot
  simp only [List.map_map, Function.comp_def, ids_filter_ne_of_unseen h]

theorem node_eraseSuccessor (h : v.keep uid = true) :
    v.node (n.eraseSuccessor uid) = (v.node n).eraseSuccessor (v.number uid) := by
  unfold node Node.eraseSuccessor
  simp only [ids_filter_ne h]

theorem node_eraseSuccessor_of_unseen (h : v.keep uid = false) :
    v.node (n.eraseSuccessor uid) = v.node n := by
  unfold node Node.eraseSuccessor
  simp only [ids_filter_ne_of_unseen h]

theorem node_addSuccessor (h : v.keep uid = true) :
    v.node (n.addSuccessor uid) = (v.node n).addSuccessor (v.number uid) := by
  rw [Node.addSuccessor_eq, Node.addSuccessor_eq]
  unfold node
  simp only [mem_ids h]
  split_ifs
  · rfl
  · rw [ids_append, ids_cons h, ids_nil]

theorem node_addSuccessor_of_unseen (h : v.keep uid = false) :
    v.node (n.addSuccessor uid) = v.node n := by
  rw [Node.addSuccessor_eq]
  unfold node
  dsimp only
  split_ifs
  · rfl
  · rw [ids_append, ids_cons_of_unseen h, ids_nil, List.append_nil]

theorem node_bury : v.node n.bury = (v.node n).bury := by
  simp [node, Node.bury, View.slot, Function.comp_def]

end Edits

section Lookup

variable {g h : Graph} {uid : NodeId} {n : Node}

theorem length_seen (hg : Formed g.outlines) (hi : i ≤ g.size) :
    ((g.nodes.toList.take i).filter fun n => v.keep n.uid).length = v.number i := by
  induction i with
  | zero => rfl
  | succ i ih =>
    obtain ⟨n, hn⟩ := Graph.exists_node?_of_lt hi
    have huid : n.uid = i := hg.uid_node hn
    have hget : g.nodes.toList[i]? = some n := by rwa [Array.getElem?_toList]
    rw [List.take_add_one, hget, List.filter_append, List.length_append,
      ih (Nat.le_of_succ_le hi)]
    cases hk : v.keep i with
    | false => simp [huid, hk, number_succ_of_unseen hk]
    | true => simp [huid, hk, number_succ hk]

theorem take_graph (hg : Formed g.outlines) (hi : i ≤ g.size) :
    (v.graph g).nodes.toList.take (v.number i) =
      ((g.nodes.toList.take i).filter fun n => v.keep n.uid).map v.node := by
  unfold graph
  conv_lhs => rw [← List.take_append_drop i g.nodes.toList]
  rw [List.filter_append, List.map_append]
  apply List.take_left'
  rw [List.length_map, length_seen hg hi]

theorem size_graph (hg : Formed g.outlines) : (v.graph g).size = v.number g.size := by
  have hlen := length_seen (v := v) hg (Nat.le_refl g.size)
  rw [List.take_of_length_le (by simp [Graph.size])] at hlen
  rw [← hlen]
  simp [graph, Graph.size]

theorem node?_graph (hg : Formed g.outlines) (hi : v.keep i = true) :
    (v.graph g).node? (v.number i) = (g.node? i).map v.node := by
  cases hn : g.node? i with
  | none =>
    have hle : g.size ≤ i := by
      by_contra hlt
      obtain ⟨n, hn'⟩ := Graph.exists_node?_of_lt (Nat.lt_of_not_le hlt)
      cases hn.symm.trans hn'
    unfold Graph.node?
    rw [Option.map_none, Array.getElem?_eq_none_iff]
    exact (size_graph hg).le.trans (number_le hle)
  | some n =>
    have hlt := Graph.lt_size_of_node? hn
    have huid : n.uid = i := hg.uid_node hn
    have hget : g.nodes.toList[i]? = some n := by rwa [Array.getElem?_toList]
    have htake := congrArg (fun l : List Node => l[v.number i]?) (take_graph (v := v) hg hlt)
    simp only [number_succ hi, List.take_add_one (l := g.nodes.toList), hget, List.filter_append,
      List.map_append] at htake
    rw [List.getElem?_take_of_lt (Nat.lt_succ_self _), Array.getElem?_toList,
      List.getElem?_append_right (by rw [List.length_map, length_seen hg (Nat.le_of_lt hlt)]),
      List.length_map, length_seen hg (Nat.le_of_lt hlt), Nat.sub_self] at htake
    unfold Graph.node?
    simpa [huid, hi] using htake

/-- A graph is the view of another one if it has the same nodes as the view. -/
theorem eq_graph (hg : Formed g.outlines) (hsize : h.size = v.number g.size)
    (hnode : ∀ i, v.keep i = true → h.node? (v.number i) = (g.node? i).map v.node)
    (hpending : h.pending = v.ids g.pending) : v.graph g = h := by
  apply Graph.ext_node?
  · intro j
    by_cases hj : j < v.number g.size
    · obtain ⟨i, -, hi, rfl⟩ := exists_number hj
      rw [node?_graph hg hi, hnode i hi]
    · have hnone : ∀ k : Graph, k.size = v.number g.size → k.node? j = none := by
        intro k hk
        unfold Graph.node?
        rw [Array.getElem?_eq_none_iff]
        exact hk.le.trans (Nat.le_of_not_lt hj)
      rw [hnone _ (size_graph hg), hnone h hsize]
  · exact hpending.symm

theorem graph_update {f : Node → Node} (f' : Node → Node) (hg : Formed g.outlines)
    (hkeep : v.keep uid = true)
    (hout : ∀ n, g.node? uid = some n → (f n).outline = n.outline)
    (hf : ∀ n, g.node? uid = some n → v.node (f n) = f' (v.node n)) :
    v.graph (g.update uid f) = (v.graph g).update (v.number uid) f' := by
  apply eq_graph (Graph.outlines_update hout ▸ hg)
  · rw [Graph.size_update, Graph.size_update, size_graph hg]
  · intro i hi
    rw [Graph.node?_update, Graph.node?_update, node?_graph hg hi]
    simp only [number_inj hi hkeep]
    split_ifs with heq
    · subst heq
      cases hn : g.node? i with
      | none => rfl
      | some n => simp [hf n hn]
    · rfl
  · rfl

/-- A change that the view does not show. -/
theorem graph_update_of_unseen {f : Node → Node} (hg : Formed g.outlines)
    (hout : ∀ n, g.node? uid = some n → (f n).outline = n.outline)
    (hf : v.keep uid = true → ∀ n, g.node? uid = some n → v.node (f n) = v.node n) :
    v.graph (g.update uid f) = v.graph g := by
  apply eq_graph (Graph.outlines_update hout ▸ hg)
  · rw [Graph.size_update, size_graph hg]
  · intro i hi
    rw [Graph.node?_update, node?_graph hg hi]
    split_ifs with heq
    · subst heq
      cases hn : g.node? i with
      | none => rfl
      | some n => simp [hf hi n hn]
    · rfl
  · rfl

theorem graph_push (huid : v.keep n.uid = true) :
    v.graph (g.push n) = (v.graph g).push (v.node n) := by
  simp [graph, Graph.push, List.filter_append, huid]

theorem graph_push_of_unseen (huid : v.keep n.uid = false) : v.graph (g.push n) = v.graph g := by
  simp [graph, Graph.push, List.filter_append, huid]

end Lookup

namespace Fits

variable {os : Outlines} {g : Graph} {a b : NodeId} {n : Node} {s : Sentinels}

theorem restrict {os' : Outlines} (hv : v.Fits os') (hos : ∀ i < os.size, os'[i]? = os[i]?) :
    v.Fits os := by
  intro i o ho
  exact hv i o ((hos i (Array.getElem?_eq_some_iff.mp ho).1).trans ho)

theorem keep_node (hv : v.Fits g.outlines) (hn : g.node? i = some n) :
    v.keep i = true ↔ n.function = v.function ∧ n.tx?.all v.calls = true := by
  rw [hv i _ (Graph.outlines_of_node? hn), admits, Bool.and_eq_true, decide_eq_true_eq]
  rfl

theorem keep_of_bare (hv : v.Fits g.outlines) (hn : g.node? i = some n)
    (hbare : n.instruction = none) : v.keep i = true ↔ n.function = v.function := by
  rw [hv.keep_node hn]
  simp [Node.tx?, hbare]

/-- What may supply a node that is seen is seen. -/
theorem keep_of_precedes (hv : v.Fits os) (hos : Formed os) (h : Precedes os a b)
    (hb : v.keep b = true) : v.keep a = true := by
  obtain ⟨-, p, q, hp, hq, hfun, -, -, htx⟩ := h
  rw [hv b q hq] at hb
  rw [hv a p hp]
  simp only [admits, Bool.and_eq_true, decide_eq_true_eq] at hb ⊢
  refine ⟨hfun.trans hb.1, ?_⟩
  rcases htx with hentry | htx
  · have hbare : p.instruction = none := (hos.bare_iff hp).mpr (Or.inl hentry)
    simp [Outline.tx?, hbare]
  · rw [htx]
    exact hb.2

/-- What a node that is seen may supply is seen, unless the node is an entry. -/
theorem isEntry_of_precedes (hv : v.Fits os) (h : Precedes os a b) (ha : v.keep a = true)
    (hb : v.keep b = false) : ∃ p, os[a]? = some p ∧ p.isEntry = true := by
  obtain ⟨-, p, q, hp, hq, hfun, -, -, htx⟩ := h
  refine ⟨p, hp, htx.resolve_right ?_⟩
  intro htx
  rw [hv b q hq] at hb
  rw [hv a p hp] at ha
  simp only [admits, ← hfun, ← htx] at ha hb
  rw [ha] at hb
  cases hb

theorem keep_of_leaves (hv : v.Fits os) (hos : Formed os) (h : Leaves os a b)
    (ha : v.keep a = true) : v.keep b = true := by
  obtain ⟨p, q, hp, hq, hfun, -, hexit⟩ := h
  have hbare : q.instruction = none := (hos.bare_iff hq).mpr (Or.inr hexit)
  rw [hv a p hp] at ha
  rw [hv b q hq]
  simp only [admits, Bool.and_eq_true, decide_eq_true_eq] at ha ⊢
  exact ⟨hfun ▸ ha.1, by simp [Outline.tx?, hbare]⟩

theorem keep_sentinels (hv : v.Fits g.outlines) (hg : Formed g.outlines)
    (hs : g.sentinels? v.function = some s) : v.keep s.entry = true ∧ v.keep s.exit = true := by
  obtain ⟨-, hentry, hexit⟩ := hg.of_sentinels? hs
  rw [hv _ _ hentry, hv _ _ hexit]
  simp [admits, Outline.entry, Outline.exit, Outline.tx?]

theorem keep_boundaries (hv : v.Fits g.outlines) (hg : Formed g.outlines) (hi : v.keep i = true)
    (hs : g.boundaries? i = some s) : v.keep s.entry = true ∧ v.keep s.exit = true := by
  obtain ⟨n, hn, hs⟩ := Option.bind_eq_some_iff.mp hs
  rw [((hv.keep_node hn).mp hi).1] at hs
  exact hv.keep_sentinels hg hs

theorem keep_leader (hv : v.Fits g.outlines) (hg : Formed g.outlines) (hn : g.node? i = some n)
    (hi : v.keep i = true) {l : NodeId} (hl : n.leader? = some l) : v.keep l = true := by
  obtain ⟨x, hx, rfl⟩ := Option.map_eq_some_iff.mp hl
  rcases hg.leader (Graph.outlines_of_node? hn) hx with hself | hprec
  · rw [hself]
    exact hi
  · exact hv.keep_of_precedes hg hprec hi

theorem keep_pred (hv : v.Fits g.outlines) (hg : g.Causal) (hn : g.node? i = some n)
    (hi : v.keep i = true) (hkind : n.kind ≠ .exit) (ha : n.FedBy a) : v.keep a = true :=
  hv.keep_of_precedes hg.formed (hg.precedes_of_feeds hn hkind ⟨n, hn, ha⟩) hi

theorem keep_successor (hv : v.Fits g.outlines) (hg : g.Coherent) (hn : g.node? i = some n)
    (hi : v.keep i = true) (hinstr : n.instruction ≠ none) (hb : b ∈ n.successors) :
    v.keep b = true := by
  rcases hg.causal.sourced (hg.agree.mp ((Graph.flows_iff hn).mpr hb)) with hprec | hleaves
  · by_contra hunseen
    obtain ⟨p, hp, hentry⟩ := hv.isEntry_of_precedes hprec hi (by simpa using hunseen)
    rw [Graph.outlines_of_node? hn] at hp
    cases hp
    exact hinstr ((hg.causal.formed.bare_iff (Graph.outlines_of_node? hn)).mpr (Or.inl hentry))
  · exact hv.keep_of_leaves hg.causal.formed hleaves hi

end Fits

section Sentinels

variable {g : Graph}

theorem sentinels?_graph (hv : v.Fits g.outlines) (hg : Formed g.outlines) :
    (v.graph g).sentinels? v.name = (g.sentinels? v.function).map v.sentinels := by
  have hfind : (v.graph g).nodes.find? (fun n => n.isEntry && n.function = v.name) =
      (g.nodes.find? fun n => n.isEntry && n.function = v.function).map v.node := by
    unfold graph
    rw [List.find?_toArray, List.find?_map, List.find?_filter, ← Array.find?_toList]
    congr 1
    rw [← List.head?_filter, ← List.head?_filter]
    congr 1
    apply List.filter_congr
    intro n hn
    obtain ⟨i, hi⟩ := Graph.mem_nodes_iff.mp hn
    have huid : n.uid = i := hg.uid_node hi
    by_cases hentry : n.isEntry = true
    · have hbare : n.instruction = none :=
        (hg.bare_iff (Graph.outlines_of_node? hi)).mpr (Or.inl hentry)
      simp [huid, hentry, hv.keep_of_bare hi hbare]
    · simp [hentry]
  unfold Graph.sentinels?
  rw [hfind, Option.map_map, Option.map_map]
  cases hn : g.nodes.find? fun n => n.isEntry && n.function = v.function with
  | none => rfl
  | some n =>
    have hs : g.sentinels? v.function = some ⟨n.uid, n.uid + 1⟩ := by
      rw [Graph.sentinels?, hn, Option.map_some]
    simp [View.sentinels, number_succ (hv.keep_sentinels hg hs).1]

theorem boundaries?_graph (hv : v.Fits g.outlines) (hg : Formed g.outlines)
    (hi : v.keep i = true) :
    (v.graph g).boundaries? (v.number i) = (g.boundaries? i).map v.sentinels := by
  unfold Graph.boundaries?
  rw [node?_graph hg hi]
  cases hn : g.node? i with
  | none => rfl
  | some n =>
    simp only [Option.map_some, Option.bind_some, function_node]
    rw [sentinels?_graph hv hg, ((hv.keep_node hn).mp hi).1]

end Sentinels
end View
end OperandFlow
