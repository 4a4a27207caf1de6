import Mathlib.Algebra.GroupWithZero.Nat
import OperandFlow.Proofs.Graph.Lifetime
import OperandFlow.Proofs.Graph.Stability

/-! How many nodes of a kind and how many edges there are in a graph, and how each change to the graph
changes their number. -/
namespace OperandFlow

/-- Numbers of which one is replaced. -/
theorem sum_replace {l l' : List Nat} {i a b : Nat} (ha : l[i]? = some a) (hb : l'[i]? = some b)
    (hrest : ∀ j, j ≠ i → l'[j]? = l[j]?) : l'.sum + a = l.sum + b := by
  induction l generalizing l' i with
  | nil => cases ha
  | cons x l ih =>
    cases l' with
    | nil => cases hb
    | cons y l' =>
      cases i with
      | zero =>
        have htail : l' = l := List.ext_getElem? fun j => hrest (j + 1) (Nat.succ_ne_zero j)
        cases ha
        cases hb
        rw [htail, List.sum_cons, List.sum_cons]
        omega
      | succ i =>
        have hhead : y = x := Option.some.inj (hrest 0 (Nat.succ_ne_zero i).symm)
        have htail : l'.sum + a = l.sum + b :=
          ih ha hb fun j hj => hrest (j + 1) (by omega)
        rw [hhead, List.sum_cons, List.sum_cons]
        omega

/-- If the elements with `q` stand right behind those with `p`, there are as many. -/
theorem countP_behind {α : Type} {p q : α → Bool} {l : List α} (hhead : l[0]?.any q = false)
    (hbehind : ∀ k : Nat, l[k + 1]?.any q = l[k]?.any p) : l.countP q = l.countP p := by
  have hone : ∀ (r : α → Bool) (o : Option α), o.toList.countP r = if o.any r then 1 else 0 := by
    intro r o
    cases o <;> simp [List.countP_cons]
  have key : ∀ k, (l.take (k + 1)).countP q = (l.take k).countP p := by
    intro k
    induction k with
    | zero => rw [List.take_add_one, List.countP_append, hone, hhead]; rfl
    | succ k ih =>
      rw [List.take_add_one, List.countP_append, ih, List.take_add_one, List.countP_append, hone, hone,
        hbehind]
  have hall := key l.length
  rwa [List.take_of_length_le (Nat.le_succ _), List.take_length] at hall

namespace Node

/-- The number of entries in the slots. -/
def inDegree (n : Node) : Nat := (n.slots.map fun s => s.preds.length).sum

theorem inDegree_of_unlinked {n : Node} (h : ∀ s ∈ n.slots, s.preds = []) : n.inDegree = 0 := by
  have hzeros : n.slots.map (fun s => s.preds.length) = n.slots.map fun _ => 0 :=
    List.map_congr_left fun s hs => by rw [h s hs, List.length_nil]
  simp [inDegree, hzeros]

theorem inDegree_bury (n : Node) : n.bury.inDegree = 0 := by
  apply inDegree_of_unlinked
  intro s hs
  obtain ⟨t, -, rfl⟩ := List.mem_map.mp hs
  rfl

theorem inDegree_addPred {n : Node} {slot : Nat} {s : Slot} (hs : n.slots[slot]? = some s)
    (pred : NodeId) : (n.addPred slot pred).inDegree = n.inDegree + 1 := by
  have hsum : (n.addPred slot pred).inDegree + s.preds.length =
      n.inDegree + (s.preds.length + 1) := by
    apply sum_replace (i := slot)
    · simp [hs]
    · simp [slots_addPred, hs]
    · intro j hj
      simp [slots_addPred, hj]
  omega

/-- The other slots can be dropped if nothing supplies them. -/
theorem inDegree_collapse {n : Node} {keep : Nat} {s : Slot} (hs : n.slots[keep]? = some s)
    (hrest : ∀ (i : Nat) (t : Slot), n.slots[i]? = some t → i ≠ keep → t.preds = []) :
    ({ n with slots := [s] } : Node).inDegree = n.inDegree := by
  -- The entries are a row of zeros in which one is replaced.
  have hsum : n.inDegree + 0 = (List.replicate n.slots.length 0).sum + s.preds.length := by
    apply sum_replace (i := keep)
    · simp [(List.getElem?_eq_some_iff.mp hs).1]
    · simp [hs]
    · intro j hj
      rw [List.getElem?_map, List.getElem?_replicate]
      cases ht : n.slots[j]? with
      | none => simp [List.getElem?_eq_none_iff.mp ht]
      | some t => simp [hrest j t ht hj, (List.getElem?_eq_some_iff.mp ht).1]
  simpa [inDegree] using hsum.symm

end Node

/-- What an analysis keeps count of. -/
inductive Counter where
  | created
  | deleted
  | linked

/-- What a node adds to a count. The edges to an exit do not count. -/
def Counter.weight : Counter → Node → Nat
  | created, n => if n.isSentinel then 0 else 1
  | deleted, n => if n.isDeleted then 1 else 0
  | linked, n => if n.kind = .exit then 0 else n.inDegree

/-- The event is counted. -/
def Counter.counts : Counter → Event → Bool
  | created, .nodeAdded .. | deleted, .nodeRemoved _ | linked, .linked .. => true
  | _, _ => false

namespace Counter

theorem weight_linked {n : Node} (h : n.kind ≠ .exit) : linked.weight n = n.inDegree := if_neg h

theorem weight_of_exit {n : Node} (h : n.kind = .exit) (c : Counter) : c.weight n = 0 := by
  cases c <;> simp [weight, Node.isSentinel, Node.isDeleted, h]

theorem weight_congr {c : Counter} {n m : Node} (hkind : m.kind = n.kind)
    (hslots : c = .linked → n.kind ≠ .exit → m.inDegree = n.inDegree) :
    c.weight m = c.weight n := by
  by_cases hexit : n.kind = .exit
  · rw [weight_of_exit hexit, weight_of_exit (hkind.trans hexit)]
  cases c with
  | created =>
    have hsent : m.isSentinel = n.isSentinel := by rw [Node.isSentinel, hkind, Node.isSentinel]
    simp only [weight, hsent]
  | deleted =>
    have hdel : m.isDeleted = n.isDeleted := by rw [Node.isDeleted, hkind, Node.isDeleted]
    simp only [weight, hdel]
  | linked =>
    rw [weight_linked hexit, weight_linked (hkind ▸ hexit)]
    exact hslots rfl hexit

end Counter

namespace Graph

def census (c : Counter) (g : Graph) : Nat := (g.nodes.toList.map c.weight).sum

variable {c : Counter} {g g' : Graph} {uid : NodeId} {n m : Node} {f : Node → Node}

/-- A census of a graph in which one node weighs otherwise. -/
theorem census_of_ne (hn : g.node? uid = some n) (hm : g'.node? uid = some m)
    (hrest : ∀ i, i ≠ uid → (g'.node? i).map c.weight = (g.node? i).map c.weight) :
    g'.census c + c.weight n = g.census c + c.weight m := by
  have hget : ∀ (g : Graph) (i : Nat),
      (g.nodes.toList.map c.weight)[i]? = (g.node? i).map c.weight := by
    intro g i
    rw [List.getElem?_map, Array.getElem?_toList]
    rfl
  apply sum_replace (i := uid)
  · rw [hget, hn]
    rfl
  · rw [hget, hm]
    rfl
  · intro i hi
    rw [hget, hget, hrest i hi]

theorem census_congr (h : ∀ i, (g'.node? i).map c.weight = (g.node? i).map c.weight) :
    g'.census c = g.census c := by
  unfold census
  congr 1
  apply List.ext_getElem?
  intro i
  have hi := h i
  unfold node? at hi
  simpa using hi

theorem census_update_congr (h : ∀ n, g.node? uid = some n → c.weight (f n) = c.weight n) :
    (g.update uid f).census c = g.census c := by
  apply census_congr
  intro i
  rw [node?_update]
  split_ifs with hi
  · subst hi
    cases hn : g.node? i with
    | none => rfl
    | some n => simp [h n hn]
  · rfl

@[simp] theorem census_push (g : Graph) (n : Node) :
    (g.push n).census c = g.census c + c.weight n := by
  simp [census, push]

/-- A node that keeps all but its successors weighs as before. -/
theorem Keeps.weight {i : NodeId} (h : g.Keeps g' i) (hn : g.node? i = some n) :
    (g'.node? i).map c.weight = (g.node? i).map c.weight := by
  obtain ⟨m, hm, hkind, hsame⟩ := h n hn
  rw [hm, hn, Option.map_some, Option.map_some, Counter.weight_congr hkind]
  intro _ hexit
  rw [hsame hexit]
  rfl

theorem weight_of_keeps (hsize : g'.size = g.size) {i : NodeId} (h : g.Keeps g' i) :
    (g'.node? i).map c.weight = (g.node? i).map c.weight := by
  cases hn : g.node? i with
  | some n => rw [h.weight hn, hn]
  | none =>
    cases hm : g'.node? i with
    | none => rfl
    | some m =>
      obtain ⟨n, hn'⟩ := exists_node?_of_lt (hsize ▸ lt_size_of_node? hm)
      rw [hn] at hn'
      cases hn'

/-- But for edges, what a node weighs hangs on its core. -/
theorem weight_of_cores (hc : c ≠ .linked) {i : NodeId} (h : g'.cores[i]? = g.cores[i]?) :
    (g'.node? i).map c.weight = (g.node? i).map c.weight := by
  have hcore : c.weight ∘ Node.core = c.weight :=
    funext fun n => Counter.weight_congr rfl fun hlinked => absurd hlinked hc
  rw [getElem?_cores, getElem?_cores] at h
  have hweight := congrArg (Option.map c.weight) h
  rwa [Option.map_map, Option.map_map, hcore] at hweight

/-- One link is one edge. -/
theorem census_connect {pred : NodeId} {slot : Nat} {s : Slot} (hg : Formed g.outlines)
    (hn : g.node? uid = some n) (hinstr : n.instruction ≠ none) (hs : n.slots[slot]? = some s)
    (hne : pred ≠ uid) :
    (g.connect pred uid slot).census c =
      g.census c + [Event.linked pred uid slot].countP c.counts := by
  obtain ⟨b, hb, hexit, -⟩ := boundaries?_of_instruction hg hn hinstr
  have hself : (g.connect pred uid slot).node? uid = some (n.addPred slot pred) :=
    node?_connect_self hn hb hne hexit
  have hsum := census_of_ne (c := c) hn hself fun i hi =>
    weight_of_keeps (size_of_outlines (outlines_connect g pred uid slot))
      (Keeps.connect hg hn hinstr hi)
  have hweight : c.weight (n.addPred slot pred) =
      c.weight n + [Event.linked pred uid slot].countP c.counts := by
    cases c with
    | created => rfl
    | deleted => rfl
    | linked =>
      have hkind := hg.kind_ne_exit hn hinstr
      rw [Counter.weight_linked hkind, Counter.weight_linked (n := n.addPred slot pred) hkind,
        Node.inDegree_addPred hs]
      rfl
  omega

/-- Nothing is linked to the node, which goes to exits only. -/
def Loose (g : Graph) (uid : NodeId) : Prop :=
  ∀ n, g.node? uid = some n →
    (∀ s ∈ n.slots, s.preds = []) ∧ ∀ b ∈ n.successors, IsExit g.outlines b

/-- What changes neither edges nor successors of a node leaves it loose. -/
theorem Loose.update (h : g.Loose uid) (hf : ∀ n, (f n).outline = n.outline ∧
    (f n).successors = n.successors ∧ ∀ t ∈ (f n).slots, t ∈ n.slots ∨ t.preds = []) :
    (g.update uid f).Loose uid := by
  intro m hm
  rw [node?_update, if_pos rfl] at hm
  obtain ⟨n, hn, rfl⟩ := Option.map_eq_some_iff.mp hm
  obtain ⟨hout, hsucc, hslots⟩ := hf n
  refine ⟨fun t ht => (hslots t ht).elim ((h n hn).1 t) id, ?_⟩
  rw [hsucc, outlines_update fun n _ => (hf n).1]
  exact (h n hn).2

theorem Loose.unpend (h : g.Loose uid) : (g.unpend uid).Loose uid :=
  h.update (f := fun n => { n with awaiting := false }) fun _ => ⟨rfl, rfl, fun _ ht => Or.inl ht⟩

theorem Loose.supply (h : g.Loose uid) (o : Options) (opcode : Opcode) (result : Value)
    (state : Option String) : (g.update uid (supply o opcode result state)).Loose uid :=
  h.update fun _ => ⟨rfl, rfl, fun _ ht => slots_supply ht⟩

/-- The removal of a node that is loose removes no edge. -/
theorem census_detach (hg : Formed g.outlines) (hn : g.node? uid = some n)
    (hlive : n.isDeleted = false) (hsent : n.isSentinel = false)
    (hloose : c = .linked → g.Loose uid) :
    (g.detach uid).census c = g.census c + [Event.nodeRemoved uid].countP c.counts := by
  have hinstr := hg.instruction_ne_none hn hsent
  obtain ⟨k, hk⟩ : ∃ k : Node, (g.detach uid).node? uid = some k.bury := by
    obtain ⟨b, hb, -, -⟩ := boundaries?_of_instruction hg hn hinstr
    obtain ⟨k, hk, -⟩ := node?_of_cores
      (cores_withdraw_releaseAll uid b.exit n.predecessors n.successors g) hn
    rw [detach_eq hn hb]
    exact ⟨k, node?_update_self hk Node.bury⟩
  have hrest : ∀ i, i ≠ uid →
      ((g.detach uid).node? i).map c.weight = (g.node? i).map c.weight := by
    intro i hi
    by_cases hc : c = .linked
    · exact weight_of_keeps (size_of_outlines (outlines_detach hg hn hsent))
        (Keeps.detach hg hn hsent (hloose hc n hn).2 hi)
    · apply weight_of_cores hc
      rw [(cores_detach hg hn hsent i).2, if_neg hi]
  have hsum := census_of_ne hn hk hrest
  have hweight : c.weight k.bury = c.weight n + [Event.nodeRemoved uid].countP c.counts := by
    cases c with
    | created =>
      simp only [Counter.weight, hsent]
      rfl
    | deleted =>
      simp only [Counter.weight, hlive]
      rfl
    | linked =>
      have hbury : k.bury.kind ≠ .exit := by simp [Node.bury]
      rw [Counter.weight_linked (hg.kind_ne_exit hn hinstr), Counter.weight_linked hbury,
        k.inDegree_bury, Node.inDegree_of_unlinked (hloose rfl n hn).1]
      rfl
  omega

theorem census_collapse {keep : Nat} {s : Slot} (hn : g.node? uid = some n)
    (hs : n.slots[keep]? = some s)
    (hrest : ∀ (i : Nat) (t : Slot), n.slots[i]? = some t → i ≠ keep → t.preds = []) :
    (g.update uid fun n => { n with slots := [s] }).census c = g.census c := by
  apply census_update_congr
  intro m hm
  rw [hn] at hm
  cases hm
  exact Counter.weight_congr (m := { n with slots := [s] }) rfl fun _ _ =>
    Node.inDegree_collapse hs hrest

theorem census_unpend (g : Graph) (uid : NodeId) : (g.unpend uid).census c = g.census c :=
  census_update_congr (f := fun n => { n with awaiting := false }) fun _ _ =>
    Counter.weight_congr rfl fun _ _ => rfl

/-- A result that takes the place of an operand takes no edge with it if there is none. -/
theorem census_supply (hloose : c = .linked → g.Loose uid) (o : Options) (opcode : Opcode)
    (result : Value) (state : Option String) :
    (g.update uid (supply o opcode result state)).census c = g.census c := by
  apply census_update_congr
  intro n hn
  have hkind : (supply o opcode result state n).kind = n.kind := rfl
  apply Counter.weight_congr hkind
  intro hc _
  have hunlinked := (hloose hc n hn).1
  rw [Node.inDegree_of_unlinked hunlinked, Node.inDegree_of_unlinked]
  intro t ht
  rcases slots_supply ht with ht | hnil
  · exact hunlinked t ht
  · exact hnil

theorem census_withFunction (o : Options) (g : Graph) (function : String) :
    (g.withFunction o function).value.1.census c = g.census c := by
  have hentry : ∀ i, c.weight (sentinel o i function .entry) = 0 := by
    intro i
    cases c with
    | created => rfl
    | deleted => rfl
    | linked => exact Node.inDegree_of_unlinked fun s hs => preds_fresh hs
  unfold withFunction
  cases g.sentinels? function with
  | some s => rfl
  | none =>
    simp only [Logged.value_bind, Logged.value_pure, census_push, hentry]
    rw [Counter.weight_of_exit rfl, Nat.add_zero]

/-- Whatever arrives counts; its edge to the exit does not. -/
theorem census_arrive {exit : NodeId} (hx : IsExit g.outlines exit) :
    (g.arrive n exit).census c = g.census c + c.weight n := by
  change ((g.push n).update exit (·.addPred 0 n.uid)).census c = _
  rw [← census_push]
  apply census_update_congr
  intro x hnode
  obtain ⟨o, ho, hexit⟩ := hx
  obtain ⟨y, hy, rfl⟩ := node?_of_outlines ho
  rw [node?_push_of_some hy] at hnode
  cases hnode
  have hkind : x.kind = .exit := by simpa using hexit
  rw [Counter.weight_of_exit hkind, Counter.weight_of_exit (n := x.addPred 0 n.uid) hkind]

theorem weight_nodeOf (o : Options) (g : Graph) (s : Sentinels) (a : Arrival)
    (category : Category) :
    c.weight (g.nodeOf o s a category) = [Event.nodeAdded (g.nodeOf o s a category).uid
      (g.nodeOf o s a category).category a.opcode a.address a.function a.tx].countP c.counts := by
  have hkind := a.kind_ne category
  cases c with
  | created => simp [Counter.weight, Node.isSentinel, nodeOf, hkind, Counter.counts]
  | deleted => simp [Counter.weight, Node.isDeleted, nodeOf, hkind, Counter.counts]
  | linked =>
    rw [Counter.weight_linked hkind.2.1]
    exact Node.inDegree_of_unlinked fun t ht => preds_fresh ht

theorem census_deleted (g : Graph) :
    g.census .deleted = g.nodes.toList.countP Node.isDeleted := by
  unfold census
  induction g.nodes.toList with
  | nil => rfl
  | cons n l ih =>
    rw [List.map_cons, List.sum_cons, List.countP_cons, ih, Nat.add_comm]
    rfl

theorem census_linked (g : Graph) :
    g.census .linked = ((g.nodes.toList.filter (·.kind ≠ .exit)).map Node.inDegree).sum := by
  unfold census
  induction g.nodes.toList with
  | nil => rfl
  | cons n l ih =>
    rw [List.map_cons, List.sum_cons, ih]
    by_cases hexit : n.kind = .exit
    · rw [Counter.weight_of_exit hexit, Nat.zero_add, List.filter_cons_of_neg (by simp [hexit])]
    · rw [Counter.weight_linked hexit, List.filter_cons_of_pos (by simp [hexit]), List.map_cons,
        List.sum_cons]

section Functions

variable (hg : Formed g.outlines)
include hg

/-- No function is listed twice. -/
theorem nodup_functions : g.functions.Nodup := by
  unfold functions
  rw [(List.mergeSort_perm _ _).nodup_iff, List.Nodup, List.pairwise_map, List.pairwise_filter,
    List.pairwise_iff_getElem]
  intro i j hi hj hlt hentry hentry' hfun
  have hnode : ∀ {k : Nat} (hk : k < g.nodes.toList.length),
      g.node? k = some g.nodes.toList[k] := by
    intro k hk
    rw [node?, ← Array.getElem?_toList, List.getElem?_eq_getElem hk]
  exact Nat.ne_of_lt hlt (hg.entry_unique (outlines_of_node? (hnode hi))
    (outlines_of_node? (hnode hj)) hentry hentry' hfun)

/-- The exits stand right behind the entries, so that there are as many of them. -/
theorem countP_exit : g.nodes.toList.countP (fun n => n.kind = .exit) =
    g.nodes.toList.countP Node.isEntry := by
  have hget : ∀ (k : Nat) (p : Node → Bool), g.nodes.toList[k]?.any p = (g.node? k).any p := by
    intro k p
    rw [Array.getElem?_toList]
    rfl
  apply countP_behind
  · rw [hget, Bool.eq_false_iff]
    intro hexit
    obtain ⟨n, hn, hexit⟩ := (Option.any_eq_true ..).mp hexit
    obtain ⟨e, -, -, -, hx⟩ := hg.boundaries hn
    exact Nat.succ_ne_zero e (hg.exit_unique hx (outlines_of_node? hn) rfl hexit rfl)
  · intro k
    rw [hget, hget, Bool.eq_iff_iff]
    simp only [Option.any_eq_true]
    constructor
    · rintro ⟨n, hn, hexit⟩
      obtain ⟨e, -, -, he, hx⟩ := hg.boundaries hn
      have hk := hg.exit_unique hx (outlines_of_node? hn) rfl hexit rfl
      obtain ⟨m, hm, ho⟩ := node?_of_outlines he
      exact ⟨m, Nat.succ.inj hk ▸ hm, congrArg Outline.isEntry ho⟩
    · rintro ⟨n, hn, hentry⟩
      obtain ⟨e, -, -, he, hx⟩ := hg.boundaries hn
      have hk := hg.entry_unique he (outlines_of_node? hn) rfl hentry rfl
      obtain ⟨m, hm, ho⟩ := node?_of_outlines hx
      exact ⟨m, hk ▸ hm, congrArg Outline.isExit ho⟩

/-- Every node is that of an instruction, or one of the two of a function. -/
theorem census_created : g.census .created + 2 * g.functions.length = g.size := by
  have hkinds : ∀ l : List Node, (l.map Counter.created.weight).sum + l.countP Node.isEntry +
      l.countP (fun n => n.kind = .exit) = l.length := by
    intro l
    induction l with
    | nil => rfl
    | cons n l ih =>
      simp only [List.map_cons, List.sum_cons, List.countP_cons, List.length_cons, ← ih]
      cases hkind : n.kind <;> simp [Counter.weight, Node.isSentinel, Node.isEntry, hkind] <;> omega
  have hlength : g.functions.length = g.nodes.toList.countP Node.isEntry := by
    unfold functions
    rw [List.length_mergeSort, List.length_map, List.countP_eq_length_filter]
  have hsum := hkinds g.nodes.toList
  rw [countP_exit hg] at hsum
  rw [hlength, size, ← Array.length_toList, ← hsum, census]
  omega

end Functions

end Graph
end OperandFlow
