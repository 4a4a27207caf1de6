import OperandFlow.Proofs.Arena.Tables

/-! Arrivals, results and removals in an arena. -/
namespace OperandFlow

namespace Graph

/-- What becomes of a new node. -/
def settle (host : Host) (g : Graph) (a : Arrival) (n : Node) : Logged Graph :=
  if n.kind = .unknown then do
    Logged.emit (.anomalyFound ⟨n.uid, .unsupportedCategory a.opcode .unknown⟩)
    return g
  else
    match a.missing? n.uid with
    | some e => do
      Logged.emit (.anomalyFound ⟨n.uid, e⟩)
      return g
    | none =>
      if n.awaiting then return { g with pending := g.pending ++ [n.uid] }
      else g.runEdgeSearch host n.uid

/-- An arrival that can be taken, step by step. -/
theorem add_eq (host : Host) (g : Graph) {a : Arrival} {category : Category}
    (hcategory : a.category? = .ok category) :
    g.add host a = do
      let g ← g.flushWhere host fun n => n.function = a.function && n.tx? = some a.tx
      let (g, s) ← g.withFunction host.options a.function
      let n := g.nodeOf host.options s a category
      Logged.emit (.nodeAdded n.uid n.category a.opcode a.address a.function a.tx)
      prepare host.options (n.slots.map (·.datum))
      return (.ok n.uid, ← (g.attach n s.exit).settle host a n) := by
  unfold add settle
  rw [hcategory]
  refine congrArg (Bind.bind _) (funext fun g₁ => congrArg (Bind.bind _) (funext fun opened => ?_))
  obtain ⟨g₂, s⟩ := opened
  dsimp only
  generalize g₂.nodeOf host.options s a category = n
  refine congrArg (Bind.bind _) (funext fun _ => congrArg (Bind.bind _) (funext fun _ => ?_))
  by_cases hunknown : n.kind = .unknown
  · simp only [if_pos hunknown]
    rfl
  simp only [if_neg hunknown]
  cases a.missing? n.uid with
  | some e => rfl
  | none => cases n.awaiting <;> rfl

theorem node?_attach {g : Graph} {exit : NodeId} (n : Node) (hexit : exit < g.size)
    (hn : n.uid = g.size) : (g.attach n exit).node? n.uid = some n := by
  rw [hn]
  exact (node?_arrive hexit g.size).trans (if_pos rfl)

/-- The node that a result belongs to, and where it is listed. -/
theorem awaiting?_eq_find? (g : Graph) (function : String) (opcode : Opcode) :
    g.awaiting? function opcode = (g.pending.zipIdx.reverse.find? fun p =>
      (g.node? p.1).any fun n => n.function = function && n.is opcode).map (·.1) := by
  unfold awaiting? pendingWhere
  rw [List.getLast?_filter, ← List.zipIdx_map_fst 0 g.pending, ← List.map_reverse, List.find?_map,
    List.zipIdx_map_fst]
  rfl

theorem Paced.eraseIdx_pending {g : Graph} (hg : g.Paced) {uid : NodeId} {i : Nat}
    (h : g.pending[i]? = some uid) : g.pending.eraseIdx i = g.pending.filter (· ≠ uid) := by
  have hnodup : g.pending.Nodup := hg.increasing.imp Nat.ne_of_lt
  obtain ⟨hi, rfl⟩ := List.getElem?_eq_some_iff.mp h
  rw [← hnodup.erase_getElem i hi, hnodup.erase_eq_filter]
  refine List.filter_congr fun j _ => ?_
  by_cases hj : j = g.pending[i] <;> simp [hj]

end Graph

namespace Item

variable {o : Options} {x : Item}

theorem node_supply (opcode : Opcode) (result : Value) (state : Option String) (x : Item) :
    (Arena.supply o opcode result state x).node o =
      Graph.supply o opcode result state { x.node o with awaiting := false } := by
  have houtput : (if o.eager then (Cell.new x.uid .result result).fill o
      else Cell.new x.uid .result result).datum o = o.datum x.uid .result result := by
    split_ifs <;> rfl
  have hload := x.node_onField (o := o) (i := 1)
    (f := fun f => if f.value.isEmpty then .new x.uid .loaded result else f)
    (k := fun s => if s.value.isEmpty then o.slot x.uid .loaded result else s)
    fun f => by
      rw [show (f.slot o).value = f.value from rfl]
      split_ifs <;> rfl
  unfold Arena.supply Graph.supply
  simp only [node, Option.map_some, houtput]
  split_ifs
  · congr 1
    exact congrArg Node.slots hload
  · rfl

theorem Consistent.supply (h : x.Consistent o) (opcode : Opcode) (result : Value)
    (state : Option String) : (Arena.supply o opcode result state x).Consistent o where
  fields := by
    unfold Arena.supply
    dsimp only
    split_ifs
    · refine (h.onField fun f _ hf => ?_).fields
      split_ifs
      · exact Cell.consistent_new x.uid .loaded result
      · exact hf
    · exact h.fields
  output := by
    rintro c hc
    cases hc
    split_ifs
    · exact Cell.Consistent.fill (Cell.consistent_new x.uid .result result)
    · exact Cell.consistent_new x.uid .result result

end Item

namespace Arena

variable {host : Host} {g : Graph} {uid : NodeId} {n : Node}

namespace Meets

/-! ### Searches -/

theorem runEdgeSearch (hg : g.Sound) (huid : uid < g.size) :
    Makes host g (runEdgeSearch uid) (g.runEdgeSearch host uid) := by
  obtain ⟨n, hn⟩ := Graph.exists_node?_of_lt huid
  unfold Makes Graph.runEdgeSearch
  simp only [Logged.value_bind, Logged.events_bind]
  refine item_bind hn fun x hx _ => bind (findEdges hg uid) ?_
  rw [hn, Option.bind_some, show x.opcode? = n.opcode? from hx ▸ rfl]
  generalize (g.findEdges host uid).value.1 = found
  cases n.opcode? with
  | none =>
    cases found with
    | ok => exact pure ()
    | error e => exact note _
  | some opcode =>
    refine get_bind fun st h => ?_
    rw [h.host_eq]
    refine bind (note _) ?_
    cases found with
    | ok => exact pure ()
    | error e => exact note _

theorem unpend (hn : g.node? uid = some n) :
    Meets host g (unpend uid) () (g.unpend uid) [] :=
  bind (setPending _) (write (k := fun n => { n with awaiting := false })
    (g := { g with pending := g.pending.filter (· ≠ uid) }) hn (fun _ hx => hx ▸ rfl)
    (fun _ hx => ⟨hx.fields, hx.output⟩) rfl)

theorem finish (hg : g.Sound) (huid : uid < g.size) :
    Makes host g (finish uid) (g.finish host uid) := by
  obtain ⟨n, hn⟩ := Graph.exists_node?_of_lt huid
  have hunpend : g.Moves host (g.unpend uid) := .unpend uid
  have hsize : (g.unpend uid).size = g.size := Graph.size_of_outlines (g.outlines_unpend uid)
  have hsearch : Makes host (g.unpend uid) (Arena.runEdgeSearch uid) _ :=
    runEdgeSearch (hg.moves hunpend) (hsize ▸ huid)
  exact bind (note _) (quiet_bind (unpend hn) hsearch)

theorem lt_size_of_pending (hg : g.Sound) (huid : uid ∈ g.pending) : uid < g.size := by
  obtain ⟨n, hn, -⟩ := hg.consistent.paced.live huid
  exact Graph.lt_size_of_node? hn

/-- Nothing is lost while a wait is ended. -/
theorem kept_finish (host : Host) (hg : g.Sound) (uid : NodeId) :
    (g.finish host uid).value.Sound ∧ (g.finish host uid).value.size = g.size := by
  have hunpend : g.Moves host (g.unpend uid) := .unpend uid
  have hsound := hg.moves hunpend
  refine ⟨?_, Graph.size_of_outlines (Graph.outlines_finish host hg.consistent.causal.formed uid)⟩
  rw [Graph.finish_value]
  exact hsound.becomes (Graph.becomes_runEdgeSearch host hsound.consistent.causal uid)

theorem flushWhere {p : Item → Bool} {q : Node → Bool} (hg : g.Sound)
    (hp : ∀ x : Item, p x = q (x.node host.options)) :
    Makes host g (flushWhere p) (g.flushWhere host q) := by
  refine get_bind fun st h => ?_
  rw [h.pending]
  refine bind (keep hp fun _ => lt_size_of_pending hg) ?_
  refine forM (P := fun g' => g'.Sound ∧ g'.size = g.size) (fun g' i hi hg' => ?_) ⟨hg, rfl⟩
  have hlt : i < g'.size := hg'.2.symm ▸ lt_size_of_pending hg (List.mem_of_mem_filter hi)
  obtain ⟨hsound, hsize⟩ := kept_finish host hg'.1 i
  exact ⟨finish hg'.1 hlt, hsound, hsize.trans hg'.2⟩

theorem flush (hg : g.Sound) (function : Option String) :
    Makes host g (flush function) (g.flush host function) :=
  flushWhere hg fun _ => rfl

/-! ### Arrivals -/

theorem settle {a : Arrival} (hn : g.node? n.uid = some n)
    (hg : n.awaiting = false → g.Sound) : Makes host g (settle n.uid a) (g.settle host a n) := by
  unfold Graph.settle
  refine item_bind hn fun x hx _ => ?_
  have hkind : x.kind = n.kind := hx ▸ rfl
  have hawaiting : x.awaiting = n.awaiting := hx ▸ rfl
  rw [hkind, hawaiting]
  by_cases hunknown : n.kind = .unknown
  · rw [if_pos hunknown, if_pos hunknown]
    exact note _
  rw [if_neg hunknown, if_neg hunknown]
  cases a.missing? n.uid with
  | some e => exact note _
  | none =>
    cases hwaits : n.awaiting with
    | true => exact setPending (· ++ [n.uid])
    | false => exact runEdgeSearch (hg hwaits) (Graph.lt_size_of_node? hn)

theorem add (hg : g.Sound) (a : Arrival) : Performs host g (add a) (g.add host a) := by
  unfold Performs Arena.add
  cases hcategory : a.category? with
  | error e =>
    unfold Graph.add
    rw [hcategory]
    exact pure _
  | ok category =>
    have hready := hg.becomes (Graph.becomes_readyFor host hg.consistent.causal a)
    have hs := hg.consistent.causal.sentinels?_readyFor host a
    have harrive : Graph.Moves host _ _ := .arrive category hs
      fun i hi m hm => Graph.free_readyFor hg.consistent.causal.formed host a hi hm
    have hflush : Makes host g
        (Arena.flushWhere fun x => x.function = a.function && x.tx? = some a.tx)
        (g.flushWhere host fun n => n.function = a.function && n.tx? = some a.tx) :=
      flushWhere hg fun _ => rfl
    have hflushed := hg.becomes (Graph.becomes_flushWhere host hg.consistent.causal
      fun n => n.function = a.function && n.tx? = some a.tx)
    rw [Graph.add_eq host g hcategory]
    simp only [Logged.value_bind, Logged.events_bind]
    refine bind hflush (bind (ensureFunction hflushed.consistent.causal.formed a.function) ?_)
    rw [← List.append_assoc]
    refine bind (store hready hs category) (bind (settle ?_ fun hwaits => ?_) (pure _))
    · exact Graph.node?_attach _ (Graph.lt_size_of_node? (hready.oneSlot_exit hs).choose_spec.1) rfl
    · rw [← Graph.arrive_of_not_awaiting hwaits]
      exact hready.moves harrive

/-! ### Results and removals -/

theorem awaiting? (hg : g.Sound) (function : String) (opcode : Opcode) :
    Meets host g (awaiting? function opcode) (g.pending.zipIdx.reverse.find? fun p =>
      (g.node? p.1).any fun n => n.function = function && n.is opcode) g [] := by
  refine get_bind fun st h => ?_
  have hfind : Meets host g _ _ g [] := findM?_quiet id (l := g.pending.zipIdx.reverse)
    (p := fun p => do
      let x ← item p.1
      return x.function = function && x.is opcode)
    (q := fun p => (g.node? p.1).any fun n => n.function = function && n.is opcode) fun p hp => ?_
  · rw [List.map_id, Option.map_id] at hfind
    rw [h.pending]
    exact hfind
  · have huid := List.mem_of_getElem? (List.mem_zipIdx_iff_getElem?.mp (List.mem_reverse.mp hp))
    obtain ⟨n, hn⟩ := Graph.exists_node?_of_lt (lt_size_of_pending hg huid)
    refine item_bind hn fun x hx _ => ?_
    rw [hn, ← hx]
    exact pure _

theorem deliver (hg : g.Paced) (hn : g.node? uid = some n) {position : Nat}
    (hposition : g.pending[position]? = some uid) (opcode : Opcode) (result : Value)
    (state : Option String) : Meets host g (deliver uid position opcode result state) ()
      ((g.unpend uid).update uid (Graph.supply host.options opcode result state)) [] := by
  have hgraph : (g.unpend uid).update uid (Graph.supply host.options opcode result state) =
      Graph.update { g with pending := g.pending.eraseIdx position } uid fun n =>
        Graph.supply host.options opcode result state { n with awaiting := false } := by
    rw [hg.eraseIdx_pending hposition]
    exact Graph.update_update { g with pending := g.pending.filter (· ≠ uid) } uid _ _
  rw [hgraph]
  refine quiet_bind (setPending (·.eraseIdx position)) (get_bind fun st h => ?_)
  rw [h.host_eq]
  refine write hn ?_ (fun x hx => hx.supply opcode result state) rfl
  rintro x rfl
  exact x.node_supply opcode result state

theorem complete (hg : g.Sound) (function : String) (opcode : Opcode) (result : Value)
    (state : Option String) : Performs host g (complete function opcode result state)
      (g.complete host function opcode result state) := by
  unfold Performs Graph.complete
  rw [Graph.awaiting?_eq_find?]
  refine quiet_bind (awaiting? hg function opcode) ?_
  cases hfound : g.pending.zipIdx.reverse.find? fun p =>
      (g.node? p.1).any fun n => n.function = function && n.is opcode with
  | none => exact pure _
  | some p =>
    obtain ⟨uid, position⟩ := p
    have hposition : g.pending[position]? = some uid :=
      List.mem_zipIdx_iff_getElem?.mp (List.mem_reverse.mp (List.mem_of_find?_eq_some hfound))
    have hsome := List.find?_some hfound
    obtain ⟨n, hn, hp⟩ := (Option.any_eq_true ..).mp hsome
    rw [Bool.and_eq_true] at hp
    have hsupply : g.Moves host _ := .supply (List.mem_of_getElem? hposition) hn hp.2 result state
    have hsize : uid < ((g.unpend uid).update uid
        (Graph.supply host.options opcode result state)).size := by
      rw [Graph.size_update]
      exact Graph.lt_size_of_node? ((g.node?_unpend uid uid).trans (by rw [if_pos rfl, hn]; rfl))
    simp only [Option.map_some, Logged.value_bind, Logged.events_bind]
    refine of_ledger (quiet_bind (deliver hg.consistent.paced hn hposition opcode result state)
      (bind (note _) (bind (runEdgeSearch (hg.moves hsupply) hsize) (pure _)))) fun l => ?_
    rw [Ledger.noteAll_append l (Graph.prepare _ _).events, Ledger.noteAll_prepare]
    rfl

theorem discard (hg : g.Sound) (uid : NodeId) : Performs host g (discard uid) (g.discard uid) := by
  unfold Performs Graph.discard
  refine item?_bind fun x hx => ?_
  cases x with
  | none =>
    rw [← hx]
    exact pure _
  | some x =>
    rw [← hx, Option.map_some]
    dsimp only
    rw [Item.isSentinel_node, Item.isDeleted_node, Item.opcode?_node]
    cases hsent : x.isSentinel with
    | true => exact pure _
    | false =>
      cases x.isDeleted with
      | true => exact pure _
      | false => exact bind (tombstone hg hx.symm hsent) (pure _)

end Meets
end Arena
end OperandFlow
