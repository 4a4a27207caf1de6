import Mathlib.Data.List.Find
import OperandFlow.Proofs.Arena.Linking

/-! How the tables of an arena keep up with its nodes. A function gets its sentinels once, and the
node of an arrival is entered into the lists of its call after its leader was looked for there. -/
namespace OperandFlow

/-- Whether a node can lead the block of an instruction at `address`; the entry always can. -/
def Node.leads (address : UInt64) (n : Node) : Bool :=
  n.isEntry || !n.isDeleted && (n.is .jumpdest && n.address ≤ address ||
    n.is .jumpi && n.address < address)

/-! ### What the tables have to list -/

namespace Graph

variable {g : Graph} {n : Node}

theorem members_push (g : Graph) (n : Node) (key : CallKey) :
    (g.push n).members key =
      g.members key ++ if n.function = key.1 && n.tx? = some key.2 then [n.uid] else [] := by
  unfold members push
  rw [Array.toList_push, List.filter_append, List.map_append, List.filter_cons]
  split_ifs <;> rfl

theorem blockStarts_push (g : Graph) (n : Node) (key : CallKey) :
    (g.push n).blockStarts key = g.blockStarts key ++
      if n.function = key.1 && n.tx? = some key.2 && (n.is .jumpdest || n.is .jumpi) then [n.uid]
      else [] := by
  unfold blockStarts push
  rw [Array.toList_push, List.filter_append, List.map_append, List.filter_cons]
  split_ifs <;> rfl

theorem sentinels?_push (g : Graph) (n : Node) (function : String) :
    (g.push n).sentinels? function = (g.sentinels? function).or
      (if n.isEntry && n.function = function then some ⟨n.uid, n.uid + 1⟩ else none) := by
  unfold sentinels? push
  rw [Array.find?_push, Option.map_or]
  split_ifs <;> rfl

/-- A sentinel belongs to no call. -/
theorem members_push_bare (h : n.instruction = none) (g : Graph) (key : CallKey) :
    (g.push n).members key = g.members key := by
  rw [members_push, if_neg (by simp [Node.tx?, h]), List.append_nil]

theorem blockStarts_push_bare (h : n.instruction = none) (g : Graph) (key : CallKey) :
    (g.push n).blockStarts key = g.blockStarts key := by
  rw [blockStarts_push, if_neg (by simp [Node.tx?, h]), List.append_nil]

theorem members_withFunction (o : Options) (g : Graph) (function : String) (key : CallKey) :
    (g.withFunction o function).value.1.members key = g.members key := by
  unfold withFunction
  cases g.sentinels? function with
  | some s => rfl
  | none => exact (members_push_bare rfl _ key).trans (members_push_bare rfl g key)

theorem blockStarts_withFunction (o : Options) (g : Graph) (function : String) (key : CallKey) :
    (g.withFunction o function).value.1.blockStarts key = g.blockStarts key := by
  unfold withFunction
  cases g.sentinels? function with
  | some s => rfl
  | none => exact (blockStarts_push_bare rfl _ key).trans (blockStarts_push_bare rfl g key)

theorem sentinels?_withFunction (o : Options) (g : Graph) (function other : String) :
    (g.withFunction o function).value.1.sentinels? other =
      if other = function then some (g.withFunction o function).value.2
      else g.sentinels? other := by
  unfold withFunction
  cases hs : g.sentinels? function with
  | some s =>
    split_ifs with hother
    · exact hother ▸ hs
    · rfl
  | none =>
    change ((g.push (sentinel o g.size function .entry)).push
      (sentinel o (g.size + 1) function .exit)).sentinels? other =
        if other = function then some ⟨g.size, g.size + 1⟩ else g.sentinels? other
    rw [sentinels?_push, sentinels?_push]
    by_cases hother : other = function
    · subst hother
      simp [hs, sentinel, Node.isEntry]
    · simp [hother, Ne.symm hother, sentinel, Node.isEntry]

/-- Where no node is listed no block starts. -/
theorem blockStarts_eq_nil {key : CallKey} (h : g.members key = []) : g.blockStarts key = [] := by
  have hsublist : (g.blockStarts key).Sublist (g.members key) := by
    unfold blockStarts members
    refine List.Sublist.map _ (List.monotone_filter_right _ fun n hn => ?_)
    exact (Bool.and_eq_true_iff.mp hn).1
  exact List.sublist_nil.mp (h ▸ hsublist)

/-- A function without sentinels has no nodes. -/
theorem members_eq_nil (hg : Formed g.outlines) {key : CallKey} (h : g.sentinels? key.1 = none) :
    g.members key = [] := by
  unfold members
  rw [List.map_eq_nil_iff, List.filter_eq_nil_iff]
  intro n hn
  obtain ⟨i, hi⟩ := mem_nodes_iff.mp hn
  have hne : n.function ≠ key.1 := hg.function_ne_of_sentinels? h (outlines_of_node? hi)
  simp [hne]

/-- The leader of a new instruction is found in the list of its call. -/
theorem leaderFor_blockStarts (hg : Formed g.outlines) (entry : NodeId) (function : String)
    (tx address : UInt64) :
    g.leaderFor entry function tx address = ((g.blockStarts (function, tx)).reverse.find?
      fun i => (g.node? i).any (Node.leads address)).getD entry := by
  unfold leaderFor blockStarts
  rw [← List.map_reverse, ← List.filter_reverse, List.find?_map, List.find?_filter]
  congr 2
  refine List.find?_congr fun n hn => ?_
  obtain ⟨i, hi⟩ := mem_nodes_iff.mp (List.mem_reverse.mp hn)
  obtain rfl := hg.uid_node hi
  have hentry : n.tx? = some tx → n.isEntry = false := fun htx =>
    hg.isEntry_eq_false hi fun hnone => by simp [Node.tx?, hnone] at htx
  rw [Function.comp_apply, hi, Option.any_some, canLead, Node.leads, Bool.eq_iff_iff]
  simp only [Bool.and_eq_true, Bool.or_eq_true, decide_eq_true_eq]
  grind

end Graph

namespace Item

theorem consistent_sentinel {o : Options} (uid : NodeId) (function : String) (kind : Kind) :
    (sentinel uid function kind).Consistent o where
  fields f hf := by
    rw [List.mem_singleton.mp hf]
    exact Cell.consistent_new uid (.operand 0) .empty
  output c hc := by cases hc

end Item

/-! ### The table of sentinels -/

namespace Arena

theorem isRanking_byName : Ordered.IsRanking byName where
  trans a b c hab hbc := by
    simp only [byName, decide_eq_true_eq] at *
    exact String.lt_trans hab hbc
  transLeft a b c hab hba hbc := by
    simp only [byName, decide_eq_true_eq, decide_eq_false_iff_not] at *
    exact String.le_antisymm hba hab ▸ hbc

theorem lookup_cons (name : String) (s : Sentinels) (table : List (String × Sentinels))
    (other : String) :
    List.lookup other ((name, s) :: table) =
      if other = name then some s else table.lookup other := by
  rw [List.lookup_cons]
  by_cases h : other = name
  · rw [beq_iff_eq.mpr h, if_pos h]
  · rw [beq_false_of_ne h, if_neg h]

theorem lookup_insert (function : String) (s : Sentinels) (table : List (String × Sentinels))
    (other : String) :
    (Ordered.insert byName (function, s) table).lookup other =
      if other = function then some s else table.lookup other := by
  induction table with
  | nil => exact lookup_cons function s [] other
  | cons b table ih =>
    obtain ⟨name, t⟩ := b
    simp only [Ordered.insert, byName, decide_eq_true_eq]
    by_cases hbefore : function < name
    · rw [if_pos hbefore, lookup_cons]
    by_cases hbehind : name < function
    · have hne : name ≠ function := fun heq => String.lt_irrefl name (heq ▸ hbehind)
      rw [if_neg hbefore, if_pos hbehind, lookup_cons, lookup_cons, ih]
      grind
    · have heq : name = function := String.le_antisymm hbefore hbehind
      rw [if_neg hbefore, if_neg hbehind, lookup_cons, lookup_cons, heq]
      grind

variable {host : Host} {g : Graph} {st : Arena} {s : Sentinels} {a : Arrival} {uid : NodeId}

/-- What a client finds after a node was stored. -/
theorem Stores.graph_push (h : st.Stores host g) (x : Item) :
    graph { st with items := st.items.push x } = g.push (x.node host.options) := by
  rw [← h.graph_eq, graph, h.host_eq, Array.map_push, graph, h.host_eq]
  rfl

theorem Stores.consistent_push {x : Item} (h : st.Stores host g) (hx : x.Consistent host.options) :
    ∀ y ∈ st.items.push x, y.Consistent host.options := by
  intro y hy
  rcases Array.mem_push.mp hy with hy | rfl
  · exact h.consistent y hy
  · exact hx

theorem Stores.push {x : Item} (h : st.Stores host g) (hx : x.Consistent host.options)
    (hentry : x.isEntry = false) :
    Stores host (g.push (x.node host.options)) { st with items := st.items.push x } where
  host_eq := h.host_eq
  graph_eq := h.graph_push x
  consistent := h.consistent_push hx
  sentinels function := by
    rw [Graph.sentinels?_push, Item.isEntry_node, hentry]
    exact (h.sentinels function).trans Option.or_none.symm
  ordered := h.ordered

namespace Meets

theorem ensureFunction (hg : Formed g.outlines) (function : String) :
    Meets host g (ensureFunction function) (g.withFunction host.options function).value.2
      (g.withFunction host.options function).value.1
      (g.withFunction host.options function).events := by
  have hmembers := g.members_withFunction host.options function
  have hstarts := g.blockStarts_withFunction host.options function
  have hsentinels := g.sentinels?_withFunction host.options function
  refine get_bind fun st h => ?_
  rw [h.sentinels]
  unfold Graph.withFunction at *
  cases hs : g.sentinels? function with
  | some s => exact pure s
  | none =>
    rw [hs] at hmembers hstarts hsentinels
    rw [h.size]
    intro st h
    refine ⟨_, rfl, ⟨⟨h.host_eq, ?_, ?_, ?_, ?_⟩, ?_, ?_⟩, rfl⟩
    · rw [graph, ← h.graph_eq, graph]
      simp only [h.host_eq, Array.map_push]
      rfl
    · intro x hx
      rcases Array.mem_push.mp hx with hx | rfl
      · exact h.consistent_push (Item.consistent_sentinel ..) x hx
      · exact Item.consistent_sentinel ..
    · intro other
      rw [hsentinels, lookup_insert, h.sentinels]
      rfl
    · exact Ordered.pairwise_insert isRanking_byName _ h.ordered
    · intro key
      rw [hmembers]
      exact h.members key
    · intro key
      rw [hmembers, hstarts, hsentinels]
      refine (h.starts key).trans ?_
      by_cases hkey : key.1 = function
      · rw [Graph.members_eq_nil hg (hkey ▸ hs)]
        rfl
      · rw [if_neg hkey]

end Meets

/-! ### The lists of a call -/

theorem Stores.leaderAmong (h : st.Stores host g) (address : UInt64) {ids : List NodeId}
    (hids : ∀ i ∈ ids, i < g.size) :
    leaderAmong address ids st =
      some (ids.find? fun i => (g.node? i).any (Node.leads address), st) := by
  induction ids with
  | nil => rfl
  | cons i ids ih =>
    obtain ⟨n, hn⟩ := Graph.exists_node?_of_lt (hids i List.mem_cons_self)
    obtain ⟨x, hx, hnode, -⟩ := h.item hn
    have hrest := ih fun j hj => hids j (List.mem_cons_of_mem i hj)
    have hleads : n.leads address = (x.isEntry || !x.isDeleted &&
        (x.is .jumpdest && x.address ≤ address || x.is .jumpi && x.address < address)) :=
      hnode ▸ rfl
    rw [Arena.leaderAmong, item_bind_apply, hx, Option.bind_some, List.find?_cons, hn,
      Option.any_some, hleads]
    cases x.isEntry with
    | true => rfl
    | false =>
      cases x.isDeleted with
      | true => exact hrest
      | false =>
        simp only [Bool.false_eq_true, if_false, Bool.false_or, Bool.not_false, Bool.true_and]
        split_ifs with hcan
        · rw [hcan]
          rfl
        · rw [Bool.eq_false_iff.mpr hcan]
          exact hrest

theorem Stores.leaderFor (h : st.Stores host g) (hg : Formed g.outlines) {function : String}
    {tx : UInt64} (hs : g.sentinels? function = some s)
    (hstarts : st.starts (function, tx) = some (s.entry :: g.blockStarts (function, tx)))
    (address : UInt64) :
    leaderFor (function, tx) address st =
      some (g.leaderFor s.entry function tx address, st) := by
  obtain ⟨-, hentry, -⟩ := hg.of_sentinels? hs
  obtain ⟨e, he, hout⟩ := Graph.node?_of_outlines hentry
  have hleads : (g.node? s.entry).any (Node.leads address) = true := by
    rw [he, Option.any_some, Node.leads, show e.isEntry = true from congrArg Outline.isEntry hout]
    rfl
  have hids : ∀ i ∈ (s.entry :: g.blockStarts (function, tx)).reverse, i < g.size := by
    intro i hi
    rcases List.mem_cons.mp (List.mem_reverse.mp hi) with rfl | hi
    · exact Graph.lt_size_of_node? he
    · obtain ⟨n, hn, rfl⟩ := List.mem_map.mp hi
      obtain ⟨j, hj⟩ := Graph.mem_nodes_iff.mp (List.mem_of_mem_filter hn)
      exact hg.uid_node hj ▸ Graph.lt_size_of_node? hj
  unfold Arena.leaderFor
  rw [get_bind_apply, h.sentinels, hs, hstarts]
  dsimp only
  rw [bind_apply, h.leaderAmong address hids, List.reverse_cons, List.find?_append,
    List.find?_singleton, hleads, Graph.leaderFor_blockStarts hg]
  cases (g.blockStarts (function, tx)).reverse.find? fun i =>
    (g.node? i).any (Node.leads address) <;> rfl

end Arena

namespace Item

variable {o : Options}

theorem node_itemOf (g : Graph) (s : Sentinels) (a : Arrival) (category : Category) :
    (Arena.itemOf g.size (if a.opcode = .jumpdest then g.size
      else g.leaderFor s.entry a.function a.tx a.address) s a category).node o =
      g.nodeOf o s a category := by
  unfold Arena.itemOf Graph.nodeOf node Options.slots
  simp only [List.map_map]
  rfl

theorem consistent_itemOf (uid leader : NodeId) (s : Sentinels) (a : Arrival)
    (category : Category) : (Arena.itemOf uid leader s a category).Consistent o where
  fields f hf := by
    obtain ⟨p, -, rfl⟩ := List.mem_map.mp hf
    exact Cell.consistent_new uid (.operand p.2) p.1
  output c hc := by cases hc

theorem node_fill (x : Item) : (x.fill o).node o = x.node o := by
  unfold fill node
  simp only [List.map_map]
  rfl

theorem Consistent.fill {x : Item} (h : x.Consistent o) : (x.fill o).Consistent o := by
  refine ⟨?_, h.output⟩
  intro f hf
  obtain ⟨f', hf', rfl⟩ := List.mem_map.mp hf
  exact (h.fields f' hf').fill

theorem node_prepared (x : Item) : (x.prepared o).node o = x.node o := by
  unfold prepared
  split_ifs
  · exact x.node_fill
  · rfl

theorem Consistent.prepared {x : Item} (h : x.Consistent o) : (x.prepared o).Consistent o := by
  unfold Item.prepared
  split_ifs
  · exact h.fill
  · exact h

end Item

/-- Nothing is kept of what is looked at ahead of time. -/
theorem Ledger.noteAll_prepare (l : Ledger) (o : Options) (data : List Datum) :
    l.noteAll (Graph.prepare o data).events = l := by
  unfold Graph.prepare
  split_ifs
  · induction data with
    | nil => rfl
    | cons d data ih => exact ih
  · rfl

namespace Arena

variable {host : Host} {g : Graph} {st : Arena} {s : Sentinels} {a : Arrival}

/-- Before its first node a call has no list yet. -/
theorem Holds.getD_starts {function : String} (h : st.Holds host g)
    (hs : g.sentinels? function = some s) (tx : UInt64) :
    (st.starts (function, tx)).getD [s.entry] = s.entry :: g.blockStarts (function, tx) := by
  rw [h.starts, hs, Graph.entered]
  split_ifs with hnil
  · rw [Graph.blockStarts_eq_nil (List.isEmpty_iff.mp hnil)]
    rfl
  · rfl

theorem Holds.getD_members {key : CallKey} (h : st.Holds host g) :
    (st.members key).getD [] = g.members key := by
  rw [h.members, Graph.entered]
  split_ifs with hnil
  · exact (List.isEmpty_iff.mp hnil).symm
  · rfl

theorem Stores.leaderOf (h : st.Stores host g) (hg : Formed g.outlines)
    (hs : g.sentinels? a.function = some s)
    (hstarts : st.starts (a.function, a.tx) =
      some (s.entry :: g.blockStarts (a.function, a.tx))) :
    leaderOf g.size a st = some (if a.opcode = .jumpdest then g.size
      else g.leaderFor s.entry a.function a.tx a.address, st) := by
  unfold Arena.leaderOf
  split_ifs
  · rfl
  · exact h.leaderFor hg hs hstarts a.address

/-- The list of a call after a node of it was placed. -/
theorem openBlock_apply {n : Node} {entry : NodeId} (hn : n.opcode? = some a.opcode)
    (hfunction : n.function = a.function) (htx : n.tx? = some a.tx)
    (h : st.starts (a.function, a.tx) = some (entry :: g.blockStarts (a.function, a.tx))) :
    openBlock n.uid a st = some ((), { st with
      starts := Function.update st.starts (a.function, a.tx)
        (some (entry :: (g.push n).blockStarts (a.function, a.tx))) }) := by
  rw [Graph.blockStarts_push, hfunction, htx, openBlock]
  simp only [Node.is, hn, Option.some.injEq, decide_true, Bool.true_and, Bool.or_eq_true,
    decide_eq_true_eq]
  split_ifs with hopens
  · change some ((), { st with starts := _ }) = _
    rw [h]
    rfl
  · rw [List.append_nil, ← h, Function.update_eq_self]
    rfl

theorem Holds.place (h : st.Holds host g) (hg : Formed g.outlines)
    (hs : g.sentinels? a.function = some s) (category : Category) :
    place g.size s a st = some (if a.opcode = .jumpdest then g.size
      else g.leaderFor s.entry a.function a.tx a.address, { st with
        starts := Function.update st.starts (a.function, a.tx) (some (s.entry ::
          (g.push (g.nodeOf host.options s a category)).blockStarts (a.function, a.tx))) }) := by
  let opened : Arena := { st with
    starts := Function.update st.starts (a.function, a.tx)
      (some (s.entry :: g.blockStarts (a.function, a.tx))) }
  have hopened : openCall (a.function, a.tx) s.entry st = some ((), opened) := by
    change some ((), { st with starts := _ }) = _
    rw [h.getD_starts hs a.tx]
  have hstores : opened.Stores host g :=
    ⟨h.host_eq, h.graph_eq, h.consistent, h.sentinels, h.ordered⟩
  have hblock : openBlock (g.nodeOf host.options s a category).uid a opened = _ :=
    openBlock_apply rfl rfl rfl (Function.update_self ..)
  have huid : (g.nodeOf host.options s a category).uid = g.size := rfl
  rw [Function.update_idem, huid] at hblock
  unfold Arena.place
  rw [bind_apply, hopened, Option.bind_some, bind_apply,
    hstores.leaderOf hg hs (Function.update_self ..), Option.bind_some, bind_apply, hblock]
  rfl

theorem writeField_apply {uid : NodeId} {i : Nat} {x : Item} {y : Field}
    (hx : st.items[uid]? = some x) (hy : x.fields[i]? = some y) (f : Field → Field) :
    writeField uid i f st =
      some ((), { st with items := st.items.modify uid (Item.onField i f) }) := by
  rw [writeField, field_bind_apply, hx, Option.bind_some, hy, Option.bind_some, write,
    item_bind_apply, hx]
  rfl

/-- A new node is on the lists of its call, and on no others. -/
theorem Stores.holds_push {st' : Arena} {g' : Graph} (n : Node) {function : String} {tx : UInt64}
    (h' : st'.Stores host g') (h : st.Holds host g) (hout : g'.outlines = (g.push n).outlines)
    (hbare : n.isEntry = false) (hfunction : n.function = function) (htx : n.tx? = some tx)
    (hs : g.sentinels? function = some s)
    (hmembers : st'.members = Function.update st.members (function, tx)
      (some ((st.members (function, tx)).getD [] ++ [n.uid])))
    (hstarts : st'.starts = Function.update st.starts (function, tx)
      (some (s.entry :: (g.push n).blockStarts (function, tx)))) :
    st'.Holds host g' := by
  have hother : ∀ k : CallKey, k ≠ (function, tx) →
      (n.function = k.1 && n.tx? = some k.2) = false := by
    intro k hk
    rw [Bool.and_eq_false_imp, decide_eq_true_eq, decide_eq_false_iff_not, hfunction, htx]
    intro hfirst hsecond
    exact hk (Prod.ext hfirst.symm (Option.some.inj hsecond).symm)
  have hsentinels : ∀ k : CallKey, (g.push n).sentinels? k.1 = g.sentinels? k.1 := by
    intro k
    rw [Graph.sentinels?_push, hbare]
    exact Option.or_none
  refine ⟨h', fun k => ?_, fun k => ?_⟩
  · rw [hmembers, Graph.members_congr hout, Graph.members_push, h.getD_members]
    by_cases hk : k = (function, tx)
    · subst hk
      simp [hfunction, htx, Graph.entered]
    · rw [Function.update_of_ne hk, hother k hk, h.members]
      simp
  · rw [hstarts, Graph.members_congr hout, Graph.sentinels?_congr hout,
      Graph.blockStarts_congr hout, hsentinels, Graph.members_push]
    by_cases hk : k = (function, tx)
    · subst hk
      simp [hfunction, htx, Graph.entered, hs]
    · rw [Function.update_of_ne hk, Graph.blockStarts_push, hother k hk, h.starts]
      simp

theorem Stores.enter {leader : NodeId} {n : Node} (h : st.Stores host g) (hone : g.OneSlot s.exit)
    (category : Category)
    (hn : (itemOf g.size leader s a category).node host.options = n) :
    ∃ st' : Arena, enter g.size leader s a category st = some ((), st') ∧
      st'.Stores host (g.attach n s.exit) ∧
      st'.members = Function.update st.members (a.function, a.tx)
        (some ((st.members (a.function, a.tx)).getD [] ++ [g.size])) ∧
      st'.starts = st.starts ∧
      st'.ledger = st.ledger.note
        (.nodeAdded g.size n.category a.opcode a.address a.function a.tx) := by
  let x := (itemOf g.size leader s a category).prepared host.options
  have hx : x.node host.options = n := (Item.node_prepared _).trans hn
  have hbare : x.isEntry = false := by
    rw [← Item.isEntry_node (o := host.options), hx, ← hn]
    exact decide_eq_false (Arrival.kind_ne a category).1
  let pushed : Arena := { st with
    items := st.items.push x
    ledger := st.ledger.note (.nodeAdded g.size n.category a.opcode a.address a.function a.tx) }
  have hpushed : pushed.Stores host (g.push n) := by
    obtain ⟨hhost, hgraph, hconsistent, hsentinels, hordered⟩ :=
      h.push (x := x) (Item.consistent_itemOf ..).prepared hbare
    rw [hx] at hgraph hsentinels
    exact ⟨hhost, hgraph, hconsistent, hsentinels, hordered⟩
  obtain ⟨m, hm, hlength⟩ := hone
  have hm' : (g.push n).node? s.exit = some m := Graph.node?_push_of_some hm n
  obtain ⟨y, hy, hnode, -⟩ := hpushed.item hm'
  obtain ⟨f, hf⟩ : ∃ f, y.fields = [f] := by
    rw [← hnode, Item.slots_node, List.length_map] at hlength
    exact List.length_eq_one_iff.mp hlength
  have hwritten := hpushed.write hm' (f := Item.onField 0 (·.add g.size))
    (k := (·.addPred 0 n.uid))
    (fun z hz => hz ▸ hn ▸ z.node_onField fun _ => rfl)
    (fun z hz => hz.onField fun _ _ hcell => hcell) rfl
  have hrun := writeField_apply hy (i := 0) (by rw [hf]; rfl) (·.add g.size)
  refine ⟨{ pushed with
    items := pushed.items.modify s.exit (Item.onField 0 (·.add g.size))
    members := Function.update st.members (a.function, a.tx)
      (some ((st.members (a.function, a.tx)).getD [] ++ [g.size])) }, ?_,
    ⟨hwritten.host_eq, hwritten.graph_eq, hwritten.consistent, hwritten.sentinels,
      hwritten.ordered⟩, rfl, rfl, rfl⟩
  have hsteps : Arena.enter g.size leader s a category st =
      (Arena.writeField s.exit 0 (·.add g.size) >>= fun _ => addMember (a.function, a.tx) g.size)
        pushed := by
    have hhost : host = st.host := h.host_eq.symm
    subst hhost hn
    rfl
  rw [hsteps, bind_apply, hrun]
  rfl

/-- The node of an arrival gets its slots, its leader and its place on the lists of its call. -/
theorem Meets.store (hg : g.Sound) (hs : g.sentinels? a.function = some s) (category : Category) :
    let n := g.nodeOf host.options s a category
    Meets host g (store s a category) n.uid (g.attach n s.exit)
      ([.nodeAdded n.uid n.category a.opcode a.address a.function a.tx] ++
        (Graph.prepare host.options (n.slots.map (·.datum))).events) := by
  intro n st h
  have hformed := hg.consistent.causal.formed
  let placed : Arena := { st with
    starts := Function.update st.starts (a.function, a.tx)
      (some (s.entry :: (g.push n).blockStarts (a.function, a.tx))) }
  have hplaced : placed.Stores host g :=
    ⟨h.host_eq, h.graph_eq, h.consistent, h.sentinels, h.ordered⟩
  obtain ⟨st', hrun, hst', hmembers, hstarts, hledger⟩ :=
    hplaced.enter (hg.oneSlot_exit hs) category (Item.node_itemOf g s a category)
  refine ⟨st', ?_, hst'.holds_push n h ?_ ?_ rfl rfl hs hmembers hstarts, ?_⟩
  · unfold Arena.store
    rw [get_bind_apply, h.size, bind_apply, h.place hformed hs category, Option.bind_some,
      bind_apply, hrun]
    rfl
  · exact Graph.outlines_update fun _ _ => rfl
  · exact decide_eq_false (Arrival.kind_ne a category).1
  · rw [hledger, Ledger.noteAll_append, Ledger.noteAll_prepare]
    rfl

end Arena
end OperandFlow
