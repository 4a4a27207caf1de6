import OperandFlow.Proofs.Graph.Search

/-! The growth of a graph taken apart: what arrivals, results and flushes do, step by step. -/
namespace OperandFlow

/-- What arrives is neither a sentinel nor gone. -/
theorem Arrival.kind_ne (a : Arrival) (category : Category) :
    a.kind category ≠ .entry ∧ a.kind category ≠ .exit ∧ a.kind category ≠ .deleted := by
  unfold Arrival.kind
  cases category <;> simp only [ne_eq, reduceCtorEq, not_false_eq_true, and_self]
  split_ifs <;> simp

namespace Graph

theorem runEdgeSearch_value (host : Host) (g : Graph) (uid : NodeId) :
    (g.runEdgeSearch host uid).value = (g.findEdges host uid).value.2 := by
  unfold runEdgeSearch
  simp only [Logged.value_bind]
  cases (g.findEdges host uid).value.1 <;> cases (g.node? uid).bind (·.opcode?) <;> rfl

theorem searched_runEdgeSearch (host : Host) {g : Graph} (hg : Formed g.outlines) (uid : NodeId) :
    g.Searched uid (g.runEdgeSearch host uid).value := by
  rw [runEdgeSearch_value]
  exact searched_findEdges host hg uid

theorem finish_value (host : Host) (g : Graph) (uid : NodeId) :
    (finish host g uid).value = ((g.unpend uid).runEdgeSearch host uid).value := rfl

theorem flushWhere_value (host : Host) (p : Node → Bool) (g : Graph) :
    (g.flushWhere host p).value =
      (g.pendingWhere p).foldl (fun g uid => (finish host g uid).value) g := by
  unfold flushWhere
  rw [Logged.value_fold]

@[simp] theorem node?_unpend (g : Graph) (uid i : NodeId) :
    (g.unpend uid).node? i =
      if i = uid then (g.node? i).map fun n => { n with awaiting := false } else g.node? i :=
  node?_update g uid _ i

@[simp] theorem outlines_unpend (g : Graph) (uid : NodeId) :
    (g.unpend uid).outlines = g.outlines :=
  outlines_update (f := fun n => { n with awaiting := false }) (by intro n _; rfl)

theorem preds_fresh {o : Options} {uid : NodeId} {values : List Value} {s : Slot}
    (hs : s ∈ o.slots uid values) : s.preds = [] := by
  obtain ⟨v, -, rfl⟩ := List.mem_map.mp hs
  rfl

theorem not_fedBy_fresh {o : Options} {uid : NodeId} {values : List Value} {n : Node}
    (hslots : n.slots = o.slots uid values) (a : NodeId) : ¬ n.FedBy a := by
  rintro ⟨s, hs, ha⟩
  rw [preds_fresh (hslots ▸ hs)] at ha
  cases ha

/-- The nodes of a graph in which a function has its sentinels. -/
theorem node?_withFunction {o : Options} {g : Graph} {function : String} {i : NodeId} {n : Node}
    (h : (g.withFunction o function).value.1.node? i = some n) :
    g.node? i = some n ∨
      (g.size ≤ i ∧ ∃ kind, (kind = .entry ∨ kind = .exit) ∧ n = sentinel o i function kind) := by
  unfold withFunction at h
  cases hs : g.sentinels? function with
  | some s =>
    rw [hs] at h
    exact Or.inl h
  | none =>
    rw [hs] at h
    simp only [Logged.value_bind, Logged.value_pure, node?_push, size_push] at h
    split_ifs at h with hexit hentry
    · cases h
      exact Or.inr ⟨by grind, .exit, Or.inr rfl, by rw [hexit]⟩
    · cases h
      exact Or.inr ⟨by grind, .entry, Or.inl rfl, by rw [hentry]⟩
    · exact Or.inl h

theorem node?_withFunction_of_some {g : Graph} {i : NodeId} {n : Node} (h : g.node? i = some n)
    (o : Options) (function : String) :
    (g.withFunction o function).value.1.node? i = some n := by
  unfold withFunction
  cases hs : g.sentinels? function with
  | some s => exact h
  | none => exact node?_push_of_some (node?_push_of_some h _) _

theorem flows_withFunction {o : Options} {g : Graph} {function : String} {a b : NodeId} :
    (g.withFunction o function).value.1.Flows a b ↔ g.Flows a b := by
  constructor
  · rintro ⟨n, hn, hb⟩
    rcases node?_withFunction hn with hn | ⟨-, kind, -, rfl⟩
    · exact ⟨n, hn, hb⟩
    · cases hb
  · rintro ⟨n, hn, hb⟩
    exact ⟨n, node?_withFunction_of_some hn o function, hb⟩

theorem feeds_withFunction {o : Options} {g : Graph} {function : String} {a b : NodeId} :
    (g.withFunction o function).value.1.Feeds a b ↔ g.Feeds a b := by
  constructor
  · rintro ⟨n, hn, ha⟩
    rcases node?_withFunction hn with hn | ⟨-, kind, -, rfl⟩
    · exact ⟨n, hn, ha⟩
    · exact absurd ha (not_fedBy_fresh rfl a)
  · rintro ⟨n, hn, ha⟩
    exact ⟨n, node?_withFunction_of_some hn o function, ha⟩

@[simp] theorem pending_withFunction (o : Options) (g : Graph) (function : String) :
    (g.withFunction o function).value.1.pending = g.pending := by
  unfold withFunction
  cases g.sentinels? function <;> rfl

theorem formed_withFunction {o : Options} {g : Graph} (hg : Formed g.outlines)
    (function : String) :
    Formed (g.withFunction o function).value.1.outlines ∧
      (g.withFunction o function).value.1.sentinels? function =
        some (g.withFunction o function).value.2 := by
  unfold withFunction
  cases hs : g.sentinels? function with
  | some s => exact ⟨hg, hs⟩
  | none =>
    have hopen := hg.open function (hg.function_ne_of_sentinels? hs)
    have hout : ((g.push (sentinel o g.size function .entry)).push
        (sentinel o (g.size + 1) function .exit)).outlines =
          (g.outlines.push (.entry g.outlines.size function)).push
            (.exit (g.outlines.size + 1) function) := by
      rw [outlines_push, outlines_push, size_outlines]
      rfl
    refine ⟨hout ▸ hopen, ?_⟩
    apply (hout ▸ hopen : Formed _).sentinels?_eq_of_entry
    change ((g.push (sentinel o g.size function .entry)).push
        (sentinel o (g.size + 1) function .exit)).outlines[g.size]? = _
    rw [hout]
    grind [size_outlines]

/-- A leader is the entry, or a live jump destination or conditional jump of the same call. -/
theorem leaderFor_cases {g : Graph} (hg : Formed g.outlines) (entry : NodeId) (function : String)
    (tx address : UInt64) :
    g.leaderFor entry function tx address = entry ∨
      ∃ m, g.node? (g.leaderFor entry function tx address) = some m ∧ m.function = function ∧
        m.tx? = some tx ∧ m.isDeleted = false ∧ (m.is .jumpdest = true ∨ m.is .jumpi = true) := by
  unfold leaderFor
  cases hfind : g.nodes.toList.reverse.find? (canLead function tx address) with
  | none => exact Or.inl rfl
  | some m =>
    right
    obtain ⟨i, hi⟩ := mem_nodes_iff.mp (List.mem_reverse.mp (List.mem_of_find?_eq_some hfind))
    have hm := List.find?_some hfind
    simp only [canLead, Bool.and_eq_true, Bool.or_eq_true, decide_eq_true_eq,
      Bool.not_eq_true'] at hm
    have huid : m.uid = i := hg.uid_node hi
    exact ⟨m, by simpa [huid] using hi, hm.1.1.1, hm.1.1.2, hm.1.2, hm.2.imp And.left And.left⟩

/-- Exactly the jump destinations lead their own block when they arrive. -/
theorem leader_nodeOf {g : Graph} {a : Arrival} {s : Sentinels} (hg : Formed g.outlines)
    (hs : g.sentinels? a.function = some s) (o : Options) (category : Category) :
    (g.nodeOf o s a category).leader? = some g.size ↔ a.opcode = .jumpdest := by
  simp only [nodeOf, Node.leader?, Option.map_some, Option.some.injEq, ite_eq_left_iff]
  refine ⟨?_, fun hdest hnot => absurd hdest hnot⟩
  intro hl
  by_contra hdest
  have hself := hl hdest
  rcases leaderFor_cases hg s.entry a.function a.tx a.address with hentry | ⟨m, hm, -⟩
  · obtain ⟨-, he, -⟩ := hg.of_sentinels? hs
    obtain ⟨e, he, -⟩ := node?_of_outlines he
    exact Nat.lt_irrefl _ (hself ▸ hentry ▸ lt_size_of_node? he)
  · exact Nat.lt_irrefl _ (hself ▸ lt_size_of_node? hm)

/-- A node is attached, and listed if it waits. -/
def arrive (g : Graph) (n : Node) (exit : NodeId) : Graph :=
  { g.attach n exit with pending := g.pending ++ if n.awaiting then [n.uid] else [] }

theorem arrive_of_not_awaiting {n : Node} (h : n.awaiting = false) (g : Graph) (exit : NodeId) :
    g.arrive n exit = g.attach n exit := by
  unfold arrive
  rw [h]
  simp only [Bool.false_eq_true, if_false, List.append_nil]
  rfl

theorem node?_arrive {g : Graph} {n : Node} {exit : NodeId} (hexit : exit < g.size) (i : NodeId) :
    (g.arrive n exit).node? i =
      if i = g.size then some n
      else if i = exit then (g.node? i).map (·.addPred 0 n.uid) else g.node? i := by
  change ((g.push n).update exit (·.addPred 0 n.uid)).node? i = _
  rw [node?_update, node?_push]
  by_cases hi : i = g.size
  · rw [if_neg (hi ▸ Nat.ne_of_gt hexit), if_pos hi, if_pos hi]
  · rw [if_neg hi, if_neg hi]

@[simp] theorem outlines_arrive (g : Graph) (n : Node) (exit : NodeId) :
    (g.arrive n exit).outlines = g.outlines.push n.outline := by
  change ((g.push n).update exit (·.addPred 0 n.uid)).outlines = _
  rw [outlines_update (by intro m _; rfl), outlines_push]

/-- The only edge of a node that arrives goes to the exit. -/
theorem flows_arrive {g : Graph} {n : Node} {exit : NodeId} (hexit : exit < g.size)
    (hsucc : n.successors = [exit]) {a b : NodeId} :
    (g.arrive n exit).Flows a b ↔ g.Flows a b ∨ (a = g.size ∧ b = exit) := by
  have hnew : ∀ m, g.node? g.size ≠ some m := fun m hm => Nat.lt_irrefl _ (lt_size_of_node? hm)
  unfold Flows
  rw [node?_arrive hexit]
  split_ifs with ha hx
  · subst ha
    simp [hsucc, hnew]
  · simp [ha, Node.addPred]
  · simp [ha]

theorem feeds_arrive {g : Graph} {n x : Node} {exit : NodeId} (huid : n.uid = g.size)
    (hunfed : ∀ a, ¬ n.FedBy a) (hx : g.node? exit = some x) (hslot : 0 < x.slots.length)
    {a b : NodeId} : (g.arrive n exit).Feeds a b ↔ g.Feeds a b ∨ (a = g.size ∧ b = exit) := by
  have hexit := lt_size_of_node? hx
  have hnew : ∀ m, g.node? g.size ≠ some m := fun m hm => Nat.lt_irrefl _ (lt_size_of_node? hm)
  unfold Feeds
  rw [node?_arrive hexit]
  split_ifs with hb hbx
  · subst hb
    simp [hunfed, hnew, Nat.ne_of_gt hexit]
  · subst hbx
    simp [hx, Node.fedBy_addPred, hslot, huid]
  · simp [hbx]

/-- A node that arrives keeps the outline in form. -/
theorem formed_arrive {o : Options} {g : Graph} {s : Sentinels} {a : Arrival}
    (hg : Formed g.outlines) (hs : g.sentinels? a.function = some s) (category : Category) :
    Formed (g.arrive (g.nodeOf o s a category) s.exit).outlines := by
  obtain ⟨-, hentry, -⟩ := hg.of_sentinels? hs
  have hkind := a.kind_ne category
  rw [outlines_arrive]
  refine hg.join (size_outlines g).symm rfl (by simp [nodeOf, Node.outline, Node.isEntry, hkind])
    (by simp [nodeOf, Node.outline, hkind]) hentry ?_
  dsimp only
  split_ifs with hdest
  · exact Or.inl (size_outlines g).symm
  · right
    have hnew : (g.outlines.push (g.nodeOf o s a category).outline)[g.outlines.size]? =
        some (g.nodeOf o s a category).outline := Array.getElem?_push_size
    rcases leaderFor_cases hg s.entry a.function a.tx a.address with hl | ⟨m, hm, hfun, htx, -⟩
    · rw [hl]
      have hlt : s.entry < g.outlines.size := (Array.getElem?_eq_some_iff.mp hentry).1
      refine ⟨hlt, .entry s.entry a.function, _, ?_, hnew, rfl, rfl, by simp [nodeOf], Or.inl rfl⟩
      rw [Array.getElem?_push, if_neg (Nat.ne_of_lt hlt), hentry]
    · have hlt : g.leaderFor s.entry a.function a.tx a.address < g.outlines.size :=
        size_outlines g ▸ lt_size_of_node? hm
      have hexit : m.outline.isExit = false := by
        by_contra hexit
        have hnone := (hg.bare_iff (outlines_of_node? hm)).mpr (Or.inr (by simpa using hexit))
        simp [Node.tx?, show m.instruction = none from hnone] at htx
      refine ⟨hlt, _, _, ?_, hnew, hfun, hexit, by simp [nodeOf], Or.inr htx⟩
      rw [Array.getElem?_push, if_neg (Nat.ne_of_lt hlt), outlines_of_node? hm]

/-- A node is linked when it arrives, unless it waits, lacks an operand or is of no known kind. -/
def linksAtOnce (a : Arrival) (n : Node) : Bool :=
  n.kind ≠ .unknown && (a.missing? n.uid).isNone && !n.awaiting

/-- The graph in which an instruction arrives: the waiting nodes of its call are linked and its
function has sentinels. -/
def readyFor (host : Host) (g : Graph) (a : Arrival) : Graph × Sentinels :=
  ((g.flushWhere host fun n => n.function = a.function && n.tx? = some a.tx).value.withFunction
    host.options a.function).value

/-- The node of an instruction arrives, and is linked if it can be at once. -/
def receive (host : Host) (a : Arrival) (category : Category) (g : Graph) (s : Sentinels) :
    Graph :=
  let n := g.nodeOf host.options s a category
  if linksAtOnce a n then ((g.arrive n s.exit).runEdgeSearch host n.uid).value
  else g.arrive n s.exit

theorem add_value (host : Host) (g : Graph) {a : Arrival} {category : Category}
    (hcategory : a.category? = .ok category) :
    (g.add host a).value = (.ok (g.readyFor host a).1.size,
      receive host a category (g.readyFor host a).1 (g.readyFor host a).2) := by
  unfold add readyFor
  rw [hcategory]
  simp only [Logged.value_bind]
  generalize (g.flushWhere host fun n => n.function = a.function && n.tx? = some a.tx).value = g₁
  generalize (g₁.withFunction host.options a.function).value = opened
  obtain ⟨g₂, s⟩ := opened
  have huid : g₂.size = (g₂.nodeOf host.options s a category).uid := rfl
  have hwait : (g₂.nodeOf host.options s a category).awaiting =
      a.isDeferred category (g₂.nodeOf host.options s a category).uid := rfl
  have hkind : (g₂.nodeOf host.options s a category).kind = a.kind category := rfl
  unfold receive linksAtOnce
  dsimp only
  rw [huid]
  generalize g₂.nodeOf host.options s a category = n at hwait hkind ⊢
  unfold Arrival.isDeferred at hwait
  rw [← hkind] at hwait
  by_cases hunknown : n.kind = .unknown
  · have hidle : n.awaiting = false := by simp [hwait, hunknown]
    simp [hunknown, arrive_of_not_awaiting hidle]
  · cases hmiss : a.missing? n.uid with
    | some e =>
      have hidle : n.awaiting = false := by simp [hwait, hmiss]
      simp [hunknown, arrive_of_not_awaiting hidle]
    | none =>
      cases hawait : n.awaiting with
      | true =>
        have hpend : (g₂.attach n s.exit).pending = g₂.pending := rfl
        simp [hunknown, hawait, arrive, hpend]
      | false => simp [hunknown, arrive_of_not_awaiting hawait]

theorem add_cases {host : Host} {g g' : Graph} {a : Arrival} {uid : NodeId}
    (h : (g.add host a).value = (.ok uid, g')) :
    ∃ category, a.category? = .ok category ∧ uid = (g.readyFor host a).1.size ∧
      g' = receive host a category (g.readyFor host a).1 (g.readyFor host a).2 := by
  cases hcategory : a.category? with
  | error e =>
    unfold add at h
    rw [hcategory] at h
    cases h
  | ok category =>
    rw [add_value host g hcategory] at h
    cases h
    exact ⟨category, rfl, rfl, rfl⟩

/-- Whether an arrival can be taken is asked before anything is done. -/
theorem add_of_error {host : Host} {g : Graph} {a : Arrival} {e : GraphError}
    (h : (g.add host a).value.1 = .error e) : (g.add host a).value.2 = g := by
  cases hcategory : a.category? with
  | error e' => simp [add, hcategory]
  | ok category =>
    rw [add_value host g hcategory] at h
    cases h

/-- A lacking operand is put on record. -/
theorem anomalyFound_of_missing {host : Host} {g g' : Graph} {a : Arrival} {category : Category}
    {uid : NodeId} {e : GraphError} (h : (g.add host a).value = (.ok uid, g'))
    (hcategory : a.category? = .ok category) (hkind : a.kind category ≠ .unknown)
    (hmissing : a.missing? uid = some e) : .anomalyFound ⟨uid, e⟩ ∈ (g.add host a).events := by
  rw [add_value host g hcategory] at h
  cases h
  unfold readyFor at hmissing ⊢
  unfold add
  rw [hcategory]
  generalize g.flushWhere host (fun n => n.function = a.function && n.tx? = some a.tx) =
    flushed at hmissing ⊢
  generalize hopen : flushed.value.withFunction host.options a.function = opened at hmissing ⊢
  have hkind' : (nodeOf host.options opened.value.1 opened.value.2 a category).kind ≠ .unknown :=
    hkind
  have hmissing' : a.missing? (nodeOf host.options opened.value.1 opened.value.2 a category).uid =
    some e := hmissing
  simp only [Logged.events_bind, hopen, if_neg hkind', hmissing']
  simp [Logged.emit, nodeOf]

theorem receive_cases (host : Host) (a : Arrival) (category : Category) (g : Graph)
    (s : Sentinels) :
    let n := g.nodeOf host.options s a category
    receive host a category g s = g.arrive n s.exit ∨ (n.awaiting = false ∧
      receive host a category g s = ((g.arrive n s.exit).runEdgeSearch host g.size).value) := by
  intro n
  unfold receive
  by_cases h : linksAtOnce a n = true
  · right
    refine ⟨?_, if_pos h⟩
    simp only [linksAtOnce, Bool.and_eq_true, Bool.not_eq_true'] at h
    exact h.2
  · exact Or.inl (if_neg h)

/-- A result puts at most a fresh slot in the place of an old one. -/
theorem slots_supply {o : Options} {opcode : Opcode} {result : Value} {state : Option String}
    {n : Node} {t : Slot} (ht : t ∈ (supply o opcode result state n).slots) :
    t ∈ n.slots ∨ t.preds = [] := by
  unfold supply at ht
  dsimp only at ht
  split_ifs at ht
  · obtain ⟨i, hi⟩ := List.mem_iff_getElem?.mp ht
    rw [List.getElem?_modify] at hi
    obtain ⟨s, hs, rfl⟩ := Option.map_eq_some_iff.mp hi
    have hmem : s ∈ n.slots := List.mem_of_getElem? hs
    split_ifs
    · exact Or.inr rfl
    · exact Or.inl hmem
    · exact Or.inl hmem
  · exact Or.inl ht

theorem fedBy_of_supply {o : Options} {opcode : Opcode} {result : Value} {state : Option String}
    {n : Node} {a : NodeId} (h : (supply o opcode result state n).FedBy a) : n.FedBy a := by
  obtain ⟨t, ht, ha⟩ := h
  rcases slots_supply ht with ht | hnil
  · exact ⟨t, ht, ha⟩
  · rw [hnil] at ha
    cases ha

/-- A node that waits for the result of an opcode in a function has both. -/
theorem of_awaiting? {g : Graph} {function : String} {opcode : Opcode} {uid : NodeId}
    (h : g.awaiting? function opcode = some uid) :
    uid ∈ g.pending ∧ ∃ n, g.node? uid = some n ∧ n.function = function ∧ n.is opcode = true := by
  obtain ⟨hmem, hp⟩ := List.mem_filter.mp (List.mem_of_getLast? h)
  obtain ⟨n, hn, hp⟩ := (Option.any_eq_true ..).mp hp
  rw [Bool.and_eq_true, decide_eq_true_eq] at hp
  exact ⟨hmem, n, hn, hp⟩

theorem complete_value (host : Host) (g : Graph) (function : String) (opcode : Opcode)
    (result : Value) (state : Option String) :
    (g.complete host function opcode result state).value =
      match g.awaiting? function opcode with
      | none => (.error (.noPendingNode function opcode), g)
      | some uid => (.ok uid, (((g.unpend uid).update uid
          (supply host.options opcode result state)).runEdgeSearch host uid).value) := by
  unfold complete
  cases g.awaiting? function opcode <;> rfl

/-- A result arrives at a node that waits for it, which is linked then. -/
theorem complete_cases {host : Host} {g g' : Graph} {function : String} {opcode : Opcode}
    {result : Value} {state : Option String} {uid : NodeId}
    (h : (g.complete host function opcode result state).value = (.ok uid, g')) :
    g.awaiting? function opcode = some uid ∧
      g' = (((g.unpend uid).update uid
        (supply host.options opcode result state)).runEdgeSearch host uid).value := by
  rw [complete_value] at h
  cases hw : g.awaiting? function opcode with
  | none =>
    rw [hw] at h
    cases h
  | some uid' =>
    rw [hw] at h
    cases h
    exact ⟨rfl, rfl⟩

/-- Without a node that waits nothing is done. -/
theorem complete_of_error {host : Host} {g : Graph} {function : String} {opcode : Opcode}
    {result : Value} {state : Option String} {e : GraphError}
    (h : (g.complete host function opcode result state).value.1 = .error e) :
    (g.complete host function opcode result state).value.2 = g := by
  rw [complete_value] at h ⊢
  cases hw : g.awaiting? function opcode with
  | none => rfl
  | some uid =>
    rw [hw] at h
    cases h

/-- What is discarded was a live instruction, or nothing happens. -/
theorem discard_cases (g : Graph) (uid : NodeId) :
    (g.discard uid).value.2 = g ∨
      ∃ n, g.node? uid = some n ∧ n.isSentinel = false ∧ n.isDeleted = false ∧
        (g.discard uid).value = (.ok (), g.detach uid) := by
  unfold discard
  cases hn : g.node? uid with
  | none => exact Or.inl rfl
  | some n =>
    dsimp only
    split_ifs with hsent hdel
    · exact Or.inl rfl
    · exact Or.inl rfl
    · exact Or.inr ⟨n, rfl, by simpa using hsent, by simpa using hdel, rfl⟩

/-- A node that can not be removed is found out before anything is done. -/
theorem discard_of_error {g : Graph} {uid : NodeId} {e : GraphError}
    (h : (g.discard uid).value.1 = .error e) : (g.discard uid).value.2 = g := by
  obtain hsame | ⟨n, -, -, -, hremoved⟩ := g.discard_cases uid
  · exact hsame
  · rw [hremoved] at h
    cases h

end Graph
end OperandFlow
