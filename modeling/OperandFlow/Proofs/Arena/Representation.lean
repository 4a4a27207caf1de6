import OperandFlow.Proofs.Arena.Queries
import OperandFlow.Proofs.Graph.Bounds

/-! Which graph an arena stands for. What is kept in a cell is what would be worked out, and the
tables list what a search through all nodes would find. A computation in place meets its
specification if it comes upon nothing that is not there, has the right result and leaves an arena
that stands for the right graph. -/
namespace OperandFlow

/-! ### Cells -/

namespace Cell

/-- What is kept is what would be worked out. -/
def Consistent (o : Options) (c : Cell) : Prop :=
  ∀ r, c.rendering = some r → r = .ofExpr o.maxExpressionLength o.deadline c.value.expr

variable {o : Options} {c : Cell}

theorem consistent_new (node : NodeId) (place : DatumPlace) (value : Value) :
    (new node place value).Consistent o := by
  intro r hr
  cases hr

theorem Consistent.read (h : c.Consistent o) :
    c.read o = .ofExpr o.maxExpressionLength o.deadline c.value.expr := by
  unfold Cell.read
  cases hr : c.rendering with
  | none => rfl
  | some r => exact h r hr

theorem Consistent.fill (h : c.Consistent o) : (c.fill o).Consistent o := by
  intro r hr
  cases hr
  exact h.read

end Cell

namespace Item

/-- All cells of the node are consistent. -/
structure Consistent (o : Options) (x : Item) : Prop where
  fields : ∀ f ∈ x.fields, f.cell.Consistent o
  output : ∀ c, x.output = some c → c.Consistent o

variable {o : Options} {x : Item}

@[simp] theorem successors_node (x : Item) : (x.node o).successors = x.successors := rfl

@[simp] theorem opcode?_node (x : Item) : (x.node o).opcode? = x.opcode? := rfl

@[simp] theorem is_node (x : Item) (opcode : Opcode) : (x.node o).is opcode = x.is opcode := rfl

@[simp] theorem isDeleted_node (x : Item) : (x.node o).isDeleted = x.isDeleted := rfl

@[simp] theorem isEntry_node (x : Item) : (x.node o).isEntry = x.isEntry := rfl

@[simp] theorem isSentinel_node (x : Item) : (x.node o).isSentinel = x.isSentinel := rfl

theorem slots_node (x : Item) : (x.node o).slots = x.fields.map (·.slot o) := rfl

theorem getElem?_slots_node (x : Item) (i : Nat) :
    (x.node o).slots[i]? = x.fields[i]?.map (·.slot o) := by
  rw [slots_node, List.getElem?_map]

@[simp] theorem predecessors_node (x : Item) : (x.node o).predecessors = x.predecessors := by
  unfold Node.predecessors predecessors
  rw [slots_node, List.flatMap_map]
  rfl

theorem node_onField {i : Nat} {f : Field → Field} {k : Slot → Slot} (x : Item)
    (hf : ∀ s, (f s).slot o = k (s.slot o)) :
    (x.onField i f).node o = { x.node o with slots := (x.node o).slots.modify i k } := by
  have hslots : (x.fields.modify i f).map (·.slot o) = (x.fields.map (·.slot o)).modify i k := by
    apply List.ext_getElem?
    intro j
    simp only [List.getElem?_map, List.getElem?_modify]
    cases x.fields[j]? with
    | none => rfl
    | some s => simp only [Option.map_some]; split_ifs <;> simp [hf]
  unfold onField node
  rw [hslots]

theorem Consistent.onField {i : Nat} {f : Field → Field} (h : x.Consistent o)
    (hf : ∀ s ∈ x.fields, s.cell.Consistent o → (f s).cell.Consistent o) :
    (x.onField i f).Consistent o := by
  refine ⟨?_, h.output⟩
  intro s hs
  obtain ⟨j, hj⟩ := List.mem_iff_getElem?.mp hs
  rw [Item.onField, List.getElem?_modify] at hj
  obtain ⟨s', hs', rfl⟩ := Option.map_eq_some_iff.mp hj
  have hmem := List.mem_of_getElem? hs'
  split_ifs
  · exact hf s' hmem (h.fields s' hmem)
  · exact h.fields s' hmem

end Item

theorem Ledger.noteAll_append (l : Ledger) (es fs : List Event) :
    l.noteAll (es ++ fs) = (l.noteAll es).noteAll fs :=
  List.foldl_append

/-! ### Tables -/

namespace Graph

/-- The nodes of a call, oldest first. -/
def members (g : Graph) (key : CallKey) : List NodeId :=
  (g.nodes.toList.filter fun n => n.function = key.1 && n.tx? = some key.2).map (·.uid)

/-- The nodes of a call that blocks may start at, oldest first. -/
def blockStarts (g : Graph) (key : CallKey) : List NodeId :=
  (g.nodes.toList.filter fun n => n.function = key.1 && n.tx? = some key.2 &&
    (n.is .jumpdest || n.is .jumpi)).map (·.uid)

/-- The list as it stands in a table that has no empty lists. -/
def entered (ids : List NodeId) : Option (List NodeId) :=
  if ids.isEmpty then none else some ids

end Graph

/-- The arena stands for the graph, its tables of calls aside. -/
structure Arena.Stores (host : Host) (g : Graph) (st : Arena) : Prop where
  host_eq : st.host = host
  graph_eq : st.graph = g
  consistent : ∀ x ∈ st.items, x.Consistent host.options
  sentinels : ∀ function, st.sentinels.lookup function = g.sentinels? function
  ordered : st.sentinels.Pairwise (byName · ·)

/-- The arena stands for the graph. -/
structure Arena.Holds (host : Host) (g : Graph) (st : Arena) : Prop extends
    Arena.Stores host g st where
  members : ∀ key, st.members key = Graph.entered (g.members key)
  starts : ∀ key, st.starts key = (Graph.entered (g.members key)).bind fun _ =>
    (g.sentinels? key.1).map fun s => s.entry :: g.blockStarts key

namespace Graph

variable {g g' : Graph}

theorem members_congr (h : g'.outlines = g.outlines) (key : CallKey) :
    g'.members key = g.members key := by
  have hout : ∀ g : Graph, g.members key = (g.outlines.toList.filter fun o =>
      o.function = key.1 && o.tx? = some key.2).map (·.uid) := by
    intro g
    rw [outlines, Array.toList_map, List.filter_map, List.map_map]
    rfl
  rw [hout, hout, h]

theorem blockStarts_congr (h : g'.outlines = g.outlines) (key : CallKey) :
    g'.blockStarts key = g.blockStarts key := by
  have hout : ∀ g : Graph, g.blockStarts key = (g.outlines.toList.filter fun o =>
      o.function = key.1 && o.tx? = some key.2 &&
        (o.opcode? = some .jumpdest || o.opcode? = some .jumpi)).map (·.uid) := by
    intro g
    rw [outlines, Array.toList_map, List.filter_map, List.map_map]
    rfl
  rw [hout, hout, h]

end Graph

namespace Arena

variable {host : Host} {g g' g₁ : Graph} {st : Arena} {uid : NodeId} {n : Node}

theorem Stores.node? (h : st.Stores host g) (uid : NodeId) :
    g.node? uid = st.items[uid]?.map (·.node host.options) := by
  rw [← h.graph_eq, graph, h.host_eq, Graph.node?, Array.getElem?_map]

theorem Stores.item (h : st.Stores host g) (hn : g.node? uid = some n) :
    ∃ x, st.items[uid]? = some x ∧ x.node host.options = n ∧ x.Consistent host.options := by
  rw [h.node?] at hn
  obtain ⟨x, hx, rfl⟩ := Option.map_eq_some_iff.mp hn
  exact ⟨x, hx, rfl, h.consistent x (Array.mem_of_getElem? hx)⟩

theorem Stores.size (h : st.Stores host g) : st.items.size = g.size := by
  rw [← h.graph_eq, graph, Graph.size, Array.size_map]

theorem Stores.pending (h : st.Stores host g) : st.pending = g.pending :=
  congrArg Graph.pending h.graph_eq

theorem Stores.nodes (h : st.Stores host g) :
    g.nodes.toList = st.items.toList.map (·.node host.options) := by
  rw [← h.graph_eq, graph, h.host_eq, Array.toList_map]

/-- A node is changed, but not its outline. -/
theorem Stores.write {f : Item → Item} {k : Node → Node} (h : st.Stores host g)
    (hn : g.node? uid = some n)
    (hf : ∀ x : Item, x.node host.options = n → (f x).node host.options = k n)
    (hconsistent : ∀ x : Item, x.Consistent host.options → (f x).Consistent host.options)
    (hout : (k n).outline = n.outline) :
    Stores host (g.update uid k) { st with items := st.items.modify uid f } := by
  have hsame : (g.update uid k).outlines = g.outlines := by
    refine Graph.outlines_update fun m hm => ?_
    cases hn.symm.trans hm
    exact hout
  refine ⟨h.host_eq, Graph.ext_node? (fun i => ?_) h.pending, fun x hx => ?_, fun function => ?_,
    h.ordered⟩
  · rw [Graph.node?_update, h.node? i, graph, Graph.node?]
    simp only [h.host_eq, Array.getElem?_map, Array.getElem?_modify, eq_comm (a := uid)]
    split_ifs with hi
    · subst hi
      obtain ⟨x, hx, hnode, -⟩ := h.item hn
      simp only [hx, Option.map_some, hf x hnode, hnode]
    · rfl
  · obtain ⟨i, hi⟩ := Array.mem_iff_getElem?.mp hx
    rw [Array.getElem?_modify] at hi
    split_ifs at hi
    · obtain ⟨y, hy, rfl⟩ := Option.map_eq_some_iff.mp hi
      exact hconsistent y (h.consistent y (Array.mem_of_getElem? hy))
    · exact h.consistent x (Array.mem_of_getElem? hi)
  · rw [Graph.sentinels?_congr hsame]
    exact h.sentinels function

/-- The tables stay as they are if the outlines of the nodes do. -/
theorem Holds.of_outlines {st' : Arena} (h : st.Holds host g) (hout : g'.outlines = g.outlines)
    (hhost : st'.host = st.host) (hgraph : st'.graph = g')
    (hconsistent : ∀ x ∈ st'.items, x.Consistent host.options)
    (hsentinels : st'.sentinels = st.sentinels) (hmembers : st'.members = st.members)
    (hstarts : st'.starts = st.starts) : st'.Holds host g' where
  host_eq := hhost.trans h.host_eq
  graph_eq := hgraph
  consistent := hconsistent
  sentinels function := by rw [hsentinels, h.sentinels, Graph.sentinels?_congr hout]
  ordered := hsentinels ▸ h.ordered
  members key := by rw [hmembers, h.members, Graph.members_congr hout]
  starts key := by
    rw [hstarts, h.starts, Graph.members_congr hout, Graph.sentinels?_congr hout,
      Graph.blockStarts_congr hout]

theorem bind_apply {α β : Type} (x : InPlace α) (f : α → InPlace β) (st : Arena) :
    (x >>= f) st = (x st).bind fun p => f p.1 p.2 := rfl

theorem get_bind_apply {β : Type} (f : Arena → InPlace β) (st : Arena) :
    (get >>= f) st = f st st := rfl

theorem item_bind_apply {β : Type} (f : Item → InPlace β) (st : Arena) :
    (item uid >>= f) st = st.items[uid]?.bind (f · st) := by
  change ((st.items[uid]?.bind fun x => some (x, st)).bind fun p => f p.1 p.2) = _
  cases st.items[uid]? <;> rfl

theorem field_bind_apply {β : Type} {i : Nat} (f : Field → InPlace β) (st : Arena) :
    (field uid i >>= f) st = (st.items[uid]?.bind (·.fields[i]?)).bind (f · st) := by
  change (((st.items[uid]?.bind fun x => some (x, st)).bind fun p =>
    p.1.fields[i]?.bind fun y => some (y, p.2)).bind fun p => f p.1 p.2) = _
  cases st.items[uid]? with
  | none => rfl
  | some x => simp only [Option.bind_some]; cases x.fields[i]? <;> rfl

/-! ### Specifications -/

/-- From any arena that stands for `g` the computation gives `a`, leaves one that stands for `g'`
and notes `es`. -/
def Meets {α : Type} (host : Host) (g : Graph) (x : InPlace α) (a : α) (g' : Graph)
    (es : List Event) : Prop :=
  ∀ st : Arena, st.Holds host g → ∃ st' : Arena, x st = some (a, st') ∧ st'.Holds host g' ∧
    st'.ledger = st.ledger.noteAll es

/-- A question to the arena is answered as one to the graph. -/
abbrev Answers {α : Type} (host : Host) (g : Graph) (x : InPlace α) (y : Logged α) : Prop :=
  Meets host g x y.value g y.events

/-- An action on the arena is one on the graph. -/
abbrev Performs {α : Type} (host : Host) (g : Graph) (x : InPlace α) (y : Logged (α × Graph)) :
    Prop :=
  Meets host g x y.value.1 y.value.2 y.events

/-- A change to the arena is one to the graph. -/
abbrev Makes (host : Host) (g : Graph) (x : InPlace Unit) (y : Logged Graph) : Prop :=
  Meets host g x () y.value y.events

namespace Meets

variable {α β γ δ : Type} {x : InPlace α} {a : α} {b : β} {es fs : List Event}

theorem pure (a : α) : Meets host g (pure a) a g [] :=
  fun st h => ⟨st, rfl, h, rfl⟩

theorem bind {f : α → InPlace β} (hx : Meets host g x a g₁ es)
    (hf : Meets host g₁ (f a) b g' fs) : Meets host g (x >>= f) b g' (es ++ fs) := by
  intro st h
  obtain ⟨st₁, hx, h₁, hledger₁⟩ := hx st h
  obtain ⟨st₂, hf, h₂, hledger₂⟩ := hf st₁ h₁
  refine ⟨st₂, ?_, h₂, ?_⟩
  · change (x st).bind (fun p => f p.1 p.2) = _
    rw [hx]
    exact hf
  · rw [hledger₂, hledger₁, Ledger.noteAll_append]

/-- A first step of which nothing is noted. -/
theorem quiet_bind {f : α → InPlace β} (hx : Meets host g x a g₁ [])
    (hf : Meets host g₁ (f a) b g' es) : Meets host g (x >>= f) b g' es :=
  bind hx hf

theorem map {x : InPlace α} (f : α → β) (hx : Meets host g x a g' es) :
    Meets host g (do return f (← x)) (f a) g' es := by
  have h : Meets host g (do return f (← x)) (f a) g' (es ++ []) := hx.bind (pure _)
  rwa [List.append_nil] at h

/-- Events of which nothing is kept do not count. -/
theorem of_ledger (hx : Meets host g x a g' es) (h : ∀ l : Ledger, l.noteAll es = l.noteAll fs) :
    Meets host g x a g' fs := by
  intro st hst
  obtain ⟨st', hrun, hst', hledger⟩ := hx st hst
  exact ⟨st', hrun, hst', hledger.trans (h _)⟩

/-- What is read from the arena hangs on the graph. -/
theorem get_bind {f : Arena → InPlace β}
    (hf : ∀ st : Arena, st.Holds host g → Meets host g (f st) b g' es) :
    Meets host g (get >>= f) b g' es :=
  fun st h => hf st h st h

theorem note (e : Event) : Meets host g (note e) () g [e] :=
  fun _ h => ⟨_, rfl, h.of_outlines rfl rfl h.graph_eq h.consistent rfl rfl rfl, rfl⟩

theorem some_bind {c : Option α} {f : α → InPlace β} (hc : c = some a)
    (hf : Meets host g (f a) b g' es) : Meets host g (liftM c >>= f) b g' es := by
  subst hc
  exact hf

theorem item_bind {f : Item → InPlace β} (hn : g.node? uid = some n)
    (hf : ∀ x : Item, x.node host.options = n → x.Consistent host.options →
      Meets host g (f x) b g' es) :
    Meets host g (item uid >>= f) b g' es := by
  intro st h
  obtain ⟨x, hx, hnode, hconsistent⟩ := h.item hn
  obtain ⟨st', hrun, hrest⟩ := hf x hnode hconsistent st h
  exact ⟨st', by rw [item_bind_apply, hx, Option.bind_some, hrun], hrest⟩

theorem item?_bind {f : Option Item → InPlace β}
    (hf : ∀ x : Option Item, x.map (·.node host.options) = g.node? uid →
      Meets host g (f x) b g' es) :
    Meets host g (item? uid >>= f) b g' es := by
  intro st h
  exact hf _ (h.node? uid).symm st h

theorem field_bind {f : Field → InPlace β} {i : Nat} {s : Slot} (hn : g.node? uid = some n)
    (hs : n.slots[i]? = some s)
    (hf : ∀ y : Field, y.slot host.options = s → Meets host g (f y) b g' es) :
    Meets host g (field uid i >>= f) b g' es := by
  intro st h
  obtain ⟨x, hx, rfl, -⟩ := h.item hn
  rw [Item.getElem?_slots_node] at hs
  obtain ⟨y, hy, hslot⟩ := Option.map_eq_some_iff.mp hs
  obtain ⟨st', hrun, hrest⟩ := hf y hslot st h
  refine ⟨st', ?_, hrest⟩
  rw [field_bind_apply, hx, Option.bind_some, hy, Option.bind_some, hrun]

theorem sentinelsOf (hn : g.node? uid = some n) :
    Meets host g (sentinelsOf uid) (g.sentinels? n.function) g [] := by
  refine item_bind hn fun x hx _ => get_bind fun st h => ?_
  subst hx
  rw [h.sentinels]
  exact pure _

/-! ### Rows -/

/-- The first of the elements with a property that needs the arena. -/
theorem findM? {p : β → InPlace Bool} {q : α → Logged Bool} (r : α → β) {l : List α}
    (h : ∀ a ∈ l, Meets host g (p (r a)) (q a).value g (q a).events) :
    Meets host g ((l.map r).findM? p) ((Logged.find? q l).value.map r) g
      (Logged.find? q l).events := by
  induction l with
  | nil => exact pure _
  | cons a l ih =>
    have hrest := ih fun b hb => h b (List.mem_cons_of_mem a hb)
    rw [List.map_cons, List.findM?, Logged.find?, Logged.value_bind, Logged.events_bind]
    refine bind (h a List.mem_cons_self) ?_
    cases (q a).value with
    | true => exact pure _
    | false => exact hrest

theorem anyM {p : α → InPlace Bool} {q : β → Logged Bool} (r : α → β) {l : List α}
    (h : ∀ a ∈ l, Meets host g (p a) (q (r a)).value g (q (r a)).events) :
    Meets host g (l.anyM p) (Logged.any q (l.map r)).value g (Logged.any q (l.map r)).events := by
  induction l with
  | nil => exact pure _
  | cons a l ih =>
    have hrest := ih fun b hb => h b (List.mem_cons_of_mem a hb)
    rw [List.anyM, List.map_cons, Logged.any, Logged.find?]
    simp only [Logged.value_bind, Logged.events_bind, Logged.value_pure, Logged.events_pure,
      List.append_nil]
    refine bind (h a List.mem_cons_self) ?_
    cases (q (r a)).value with
    | true => exact pure _
    | false =>
      simp only [Logged.any, Logged.value_bind, Logged.events_bind, Logged.value_pure,
        Logged.events_pure, List.append_nil] at hrest
      exact hrest

theorem mapM {f : α → InPlace δ} {q : β → Logged γ} (r : α → β) (t : γ → δ) {l : List α}
    (h : ∀ a ∈ l, Meets host g (f a) (t (q (r a)).value) g (q (r a)).events) :
    Meets host g (l.mapM f) ((Logged.map q (l.map r)).value.map t) g
      (Logged.map q (l.map r)).events := by
  induction l with
  | nil => exact pure _
  | cons a l ih =>
    have hrest := ih fun b hb => h b (List.mem_cons_of_mem a hb)
    rw [List.mapM_cons, List.map_cons, Logged.map]
    simp only [Logged.value_bind, Logged.events_bind, Logged.value_pure, Logged.events_pure]
    exact bind (h a List.mem_cons_self) (bind hrest (pure _))

/-- Changes in a row, each of which keeps `P`. -/
theorem forM_map {P : Graph → Prop} {f : β → InPlace Unit} {q : Graph → α → Logged Graph}
    (r : α → β) {l : List α}
    (h : ∀ g a, a ∈ l → P g → Makes host g (f (r a)) (q g a) ∧ P (q g a).value) (hg : P g) :
    Makes host g ((l.map r).forM f) (Logged.fold q g l) := by
  induction l generalizing g with
  | nil => exact pure _
  | cons a l ih =>
    obtain ⟨hstep, hkept⟩ := h g a List.mem_cons_self hg
    exact bind hstep (ih (fun g b hb => h g b (List.mem_cons_of_mem a hb)) hkept)

theorem forM {P : Graph → Prop} {f : α → InPlace Unit} {q : Graph → α → Logged Graph} {l : List α}
    (h : ∀ g a, a ∈ l → P g → Makes host g (f a) (q g a) ∧ P (q g a).value) (hg : P g) :
    Makes host g (l.forM f) (Logged.fold q g l) := by
  have hmap := forM_map id h hg
  rwa [List.map_id] at hmap

/-- Changes in a row of which nothing is noted. -/
theorem forM_quiet {P : Graph → Prop} {f : α → InPlace Unit} {q : Graph → α → Graph} {l : List α}
    (h : ∀ g a, a ∈ l → P g → Meets host g (f a) () (q g a) [] ∧ P (q g a)) (hg : P g) :
    Meets host g (l.forM f) () (l.foldl q g) [] ∧ P (l.foldl q g) := by
  induction l generalizing g with
  | nil => exact ⟨pure _, hg⟩
  | cons a l ih =>
    obtain ⟨hstep, hkept⟩ := h g a List.mem_cons_self hg
    obtain ⟨hrest, hlast⟩ := ih (fun g b hb => h g b (List.mem_cons_of_mem a hb)) hkept
    exact ⟨bind hstep hrest, hlast⟩

/-! ### Changes -/

theorem setPending (f : List NodeId → List NodeId) :
    Meets host g (modify fun st => { st with pending := f st.pending }) ()
      { g with pending := f g.pending } [] :=
  fun _ h => ⟨_, rfl, h.of_outlines rfl rfl (h.graph_eq ▸ rfl) h.consistent rfl rfl rfl, rfl⟩

theorem write {f : Item → Item} {k : Node → Node} (hn : g.node? uid = some n)
    (hf : ∀ x : Item, x.node host.options = n → (f x).node host.options = k n)
    (hconsistent : ∀ x : Item, x.Consistent host.options → (f x).Consistent host.options)
    (hout : (k n).outline = n.outline) :
    Meets host g (write uid f) () (g.update uid k) [] := by
  have hsame : (g.update uid k).outlines = g.outlines := by
    refine Graph.outlines_update fun m hm => ?_
    cases hn.symm.trans hm
    exact hout
  refine item_bind hn fun _ _ _ st h => ⟨_, rfl, ?_, rfl⟩
  have hstores := h.toStores.write hn hf hconsistent hout
  exact h.of_outlines hsame rfl hstores.graph_eq hstores.consistent rfl rfl rfl

/-- A slot of a node is changed. -/
theorem writeField {f : Field → Field} {k : Slot → Slot} {i : Nat} {s : Slot}
    (hn : g.node? uid = some n) (hs : n.slots[i]? = some s)
    (hf : ∀ y : Field, (f y).slot host.options = k (y.slot host.options))
    (hcell : ∀ y : Field, (f y).cell = y.cell) :
    Meets host g (writeField uid i f) ()
      (g.update uid fun n => { n with slots := n.slots.modify i k }) [] := by
  refine field_bind hn hs fun y _ => write hn ?_ ?_ rfl
  · rintro x rfl
    exact x.node_onField hf
  · intro x hx
    refine hx.onField fun s _ hs => ?_
    rw [hcell]
    exact hs

end Meets
end Arena
end OperandFlow
