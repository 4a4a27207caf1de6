import OperandFlow.Graph.Execution
import OperandFlow.Proofs.Graph.Blocks
import OperandFlow.Proofs.Graph.Wiring

/-! Look-ups in the graphs that sessions reach. Whatever a node names is there: what supplies it,
where it goes, its leader and the sentinels of its function; and every node has a slot at least. So
chains of leaders are made of nodes that are there, and following one finds them all. -/
namespace OperandFlow.Graph

/-- What is known of a graph between two moves. -/
structure Sound (g : Graph) : Prop where
  consistent : g.Consistent
  led : Led g.outlines
  wired : g.Wired g.outlines

theorem sound_empty : empty.Sound where
  consistent := consistent_empty
  led := by intro i o x ho; simp at ho
  wired := wired_empty _

/-- The node is there and has a single slot. -/
def OneSlot (g : Graph) (i : NodeId) : Prop :=
  ∃ n, g.node? i = some n ∧ n.slots.length = 1

section

variable {host : Host} {g g' g₁ : Graph} {i p uid : NodeId} {n : Node} {slot : Nat}

theorem lt_size_of_outlines {o : Outline} (h : g.outlines[i]? = some o) : i < g.size := by
  obtain ⟨n, hn, -⟩ := node?_of_outlines h
  exact lt_size_of_node? hn

theorem OneSlot.update {f : Node → Node} (h : g.OneSlot i)
    (hf : ∀ n, (f n).slots.length = n.slots.length) : (g.update uid f).OneSlot i := by
  obtain ⟨n, hn, hone⟩ := h
  rw [OneSlot, node?_update, hn]
  split
  · exact ⟨f n, rfl, (hf n).trans hone⟩
  · exact ⟨n, rfl, hone⟩

/-- A node may lose slots, but not all of them. -/
theorem OneSlot.extend (h : g.OneSlot i) (hext : g.Extends g') : g'.OneSlot i := by
  obtain ⟨n, hn, hone⟩ := h
  obtain ⟨m, hm, hev⟩ := hext hn
  refine ⟨m, hm, ?_⟩
  obtain hlen | ⟨-, hlen, -⟩ := hev.slots
  · exact hlen.trans hone
  · exact hlen

namespace Sound

theorem moves (hg : g.Sound) (h : g.Moves host g') : g'.Sound where
  consistent := hg.consistent.moves h
  led := hg.consistent.led_moves hg.led h
  wired := hg.wired.moves hg.consistent hg.led h

theorem becomes (hg : g.Sound) (h : g.Becomes host g') : g'.Sound := by
  obtain ⟨hc, hled, hwired⟩ := hg.consistent.becomes_induction
    (P := fun g => Led g.outlines ∧ g.Wired g.outlines) h ⟨hg.led, hg.wired⟩
    fun g g' hc hP hmove => ⟨hc.led_moves hP.1 hmove, hP.2.moves hc hP.1 hmove⟩
  exact ⟨hc, hled, hwired⟩

theorem links (hg : g.Sound) (hn : g.node? n.uid = some n) (hlive : n.isDeleted = false)
    (hsent : n.isSentinel = false) (h : g.Links n g₁) : g₁.Sound := by
  have hmove : g.Moves ⟨{}, .text, 0⟩ g₁ := .search (.linked hn hlive hsent h)
  exact hg.moves hmove

/-- Every node has a slot. -/
theorem exists_slot (hg : g.Sound) (hn : g.node? i = some n) :
    ∃ s rest, n.slots = s :: rest := by
  obtain ⟨begun, hbegins, hevolves⟩ := hg.consistent.evolved hn
  exact List.exists_cons_of_length_pos (hevolves.slots_pos hbegins)

theorem oneSlot_exit (hg : g.Sound) {function : String} {s : Sentinels}
    (hs : g.sentinels? function = some s) : g.OneSlot s.exit := by
  obtain ⟨-, -, hexit⟩ := hg.consistent.causal.formed.of_sentinels? hs
  obtain ⟨x, hx, hout⟩ := node?_of_outlines hexit
  obtain ⟨begun, hbegins, hevolves⟩ := hg.consistent.evolved hx
  exact ⟨x, hx, hevolves.slots_bare hbegins (Node.of_outline_exit hout).2⟩

/-- Whatever supplies a node is there. -/
theorem lt_size_of_fedBy (hg : g.Sound) (hn : g.node? i = some n) (hp : n.FedBy p) :
    p < g.size := by
  obtain ⟨-, o, -, ho, -⟩ | ⟨o, -, ho, -⟩ := hg.consistent.causal.sourced ((feeds_iff hn).mpr hp)
  · exact lt_size_of_outlines ho
  · exact lt_size_of_outlines ho

/-- Wherever a node goes is there. -/
theorem lt_size_of_successor (hg : g.Sound) (hn : g.node? i = some n) (hp : p ∈ n.successors) :
    p < g.size := by
  obtain ⟨m, hm, -⟩ | ⟨o, ho, -⟩ := hg.wired.fed ((flows_iff hn).mpr hp)
  · exact lt_size_of_node? hm
  · exact lt_size_of_outlines ho

theorem lt_size_of_leader (hg : g.Sound) (hn : g.node? i = some n) (hp : n.leader? = some p) :
    p < g.size := by
  obtain ⟨x, hx, rfl⟩ := Option.map_eq_some_iff.mp hp
  obtain hself | ⟨-, o, -, ho, -⟩ :=
    hg.consistent.causal.formed.leader (outlines_of_node? hn) hx
  · exact hself ▸ lt_size_of_node? hn
  · exact lt_size_of_outlines ho

theorem uid_eq (hg : g.Sound) (hn : g.node? i = some n) : n.uid = i :=
  hg.consistent.causal.formed.uid_node hn

/-- Key and value of a storage access have slots of their own. -/
theorem length_slots_storage (hg : g.Sound) (hn : g.node? i = some n)
    (hstorage : n.opcode?.any Opcode.isStorage = true) : n.slots.length = 2 := by
  obtain ⟨begun, hbegins, hevolves⟩ := hg.consistent.evolved hn
  exact hevolves.slots_storage hbegins hstorage

end Sound

theorem lt_size_of_mayLink (h : g.MayLink n p) : p < g.size := by
  obtain ⟨-, ⟨m, hm, -⟩, -⟩ := h
  exact lt_size_of_node? hm

/-! ### Chains of leaders -/

theorem isTaken?_isSome {jump next : NodeId} (hjump : jump < g.size) (hnext : next < g.size) :
    ∃ taken, g.isTaken? jump next = some taken := by
  obtain ⟨n, hn⟩ := exists_node?_of_lt hjump
  obtain ⟨m, hm⟩ := exists_node?_of_lt hnext
  unfold isTaken?
  simp only [hn, hm, Option.bind_eq_bind, Option.bind_some]
  split_ifs
  · exact ⟨_, rfl⟩
  · exact ⟨_, rfl⟩

theorem exists_trail {chain : List NodeId} (h : ∀ i ∈ chain, i < g.size) :
    ∃ leaders, g.trail? chain = some leaders := by
  induction chain using trail?.induct with
  | case1 => exact ⟨[], rfl⟩
  | case2 uid => exact ⟨[uid], rfl⟩
  | case3 uid next rest ih =>
    obtain ⟨taken, htaken⟩ := isTaken?_isSome (h uid (by simp)) (h next (by simp))
    obtain ⟨leaders, hleaders⟩ := ih fun i hi => h i (List.mem_cons_of_mem _ hi)
    rw [trail?, htaken, hleaders]
    exact ⟨_, rfl⟩

theorem mirrors_self (hg : g.Sound) : Mirrors id (· < g.size) g g where
  increasing _ _ hij := hij
  node := by
    intro i hi
    obtain ⟨n, hn⟩ := exists_node?_of_lt hi
    exact ⟨n, n, hn, hn, rfl, rfl, by simp, by simp⟩
  leader _ hn hl := hg.lt_size_of_leader hn hl
  pred _ hn hp := hg.lt_size_of_fedBy hn (Node.fedBy_of_mem_predsAt hp)

/-- Chains of leaders are made of nodes that are there. -/
theorem lt_size_of_mem_leaderChain (hg : g.Sound) {chain : List NodeId}
    (h : g.leaderChain uid = .ok chain) : ∀ i ∈ chain, i < g.size := by
  cases hn : g.node? uid with
  | none => simp [Graph.leaderChain, node, hn, bind, Except.bind] at h
  | some n =>
    have huid := lt_size_of_node? hn
    cases hleader : n.leader? with
    | none =>
      rw [leaderChain_of_leader_eq_none hn hleader] at h
      cases h
      simpa using huid
    | some leader =>
      obtain ⟨e, he, hs, -, -⟩ := hg.consistent.causal.formed.boundaries hn
      have hentry : (g.boundaries? uid).map (·.entry) = some e := by simp [boundaries?, hn, hs]
      rw [leaderChain_of_leader hn hleader, hentry] at h
      cases h
      exact ((mirrors_self hg).chainTo (Nat.lt_of_le_of_lt he huid)
        (hg.lt_size_of_leader hn hleader)).2

theorem exists_leaderChain (hn : g.node? uid = some n) :
    ∃ chain, g.leaderChain uid = .ok chain := by
  cases hleader : n.leader? with
  | none => exact ⟨_, leaderChain_of_leader_eq_none hn hleader⟩
  | some leader => exact ⟨_, leaderChain_of_leader hn hleader⟩

theorem exists_terminal (hg : Formed g.outlines) {function : String}
    (h : uid ∈ g.terminals function) : ∃ n, g.node? uid = some n ∧ n.function = function := by
  unfold terminals at h
  split at h
  · simp at h
  · obtain ⟨n, hn, rfl⟩ := List.mem_map.mp h
    obtain ⟨i, hi⟩ := mem_nodes_iff.mp (List.mem_of_mem_filter hn)
    obtain ⟨-, hp⟩ := List.mem_filter.mp hn
    simp only [Bool.and_eq_true, decide_eq_true_eq] at hp
    exact ⟨n, hg.uid_node hi ▸ hi, hp.1.1.1⟩

theorem exists_entrances {chain : List NodeId} (h : ∀ i ∈ chain, i < g.size) :
    ∃ entrances, g.entrances? chain = some entrances := by
  induction chain with
  | nil => exact ⟨[], rfl⟩
  | cons a chain ih =>
    cases chain with
    | nil => exact ⟨[], rfl⟩
    | cons b rest =>
      obtain ⟨jump, hjump⟩ := exists_node?_of_lt (h a (by simp))
      obtain ⟨dest, hdest⟩ := exists_node?_of_lt (h b (by simp))
      obtain ⟨later, hlater⟩ := ih fun i hi => h i (List.mem_cons_of_mem _ hi)
      rw [entrances?, hjump, hdest, hlater]
      exact ⟨_, rfl⟩

theorem exists_loopBounds {chain : List NodeId} (h : ∀ i ∈ chain, i < g.size)
    (threshold : Nat) : ∃ span, g.loopBounds? threshold chain = some span := by
  obtain ⟨entrances, hentrances⟩ := exists_entrances h
  exact ⟨spanOf threshold entrances, by rw [loopBounds?, hentrances, Option.map_some]⟩

/-! ### Paths and loops -/

theorem mapM_ok {α β ε : Type} {f : α → Except ε β} {h : α → β} {l : List α}
    (hl : ∀ a ∈ l, f a = .ok (h a)) : l.mapM f = .ok (l.map h) := by
  induction l with
  | nil => rfl
  | cons a l ih =>
    rw [List.mapM_cons, hl a List.mem_cons_self, ih fun b hb => hl b (List.mem_cons_of_mem _ hb)]
    rfl

/-- The terminals of a function are there, so that the way to each of them can be followed. -/
theorem paths_value (hg : Formed g.outlines) (function : String) :
    (g.paths function).value = .ok ((g.terminals function).map fun t =>
      (t, (g.sentinels? function).elim [] fun s =>
        squeeze (s.entry :: ((g.node? t).map (g.executed · (g.leadersTo t))).getD []))) := by
  unfold paths
  cases hs : g.sentinels? function with
  | none =>
    unfold terminals
    rw [hs]
    rfl
  | some s =>
    rw [Logged.value_mapOk]
    refine mapM_ok fun t ht => ?_
    obtain ⟨n, hn, -⟩ := exists_terminal hg ht
    obtain ⟨chain, hchain⟩ := exists_leaderChain hn
    simp only [pathTo, leadersTo, hchain, Logged.value_bind, Logged.value_pure, Option.elim_some]

/-- Every way to a terminal can be followed, so that each of them is reported on. -/
theorem repetitions_ok (hg : Formed g.outlines) (threshold : Nat) :
    g.repetitions threshold = .ok (g.functions.flatMap fun function =>
      (g.terminals function).map fun t =>
        let chain := (g.leaderChain t).toOption.getD []
        ⟨function, t, chain, (g.loopBounds? threshold chain).getD none⟩) := by
  have hreports : ∀ function ∈ g.functions,
      (g.terminals function).mapM (g.repetition threshold function) =
        .ok ((g.terminals function).map fun t =>
          let chain := (g.leaderChain t).toOption.getD []
          ⟨function, t, chain, (g.loopBounds? threshold chain).getD none⟩) := by
    intro function _
    refine mapM_ok fun t ht => ?_
    obtain ⟨n, hn, -⟩ := exists_terminal hg ht
    obtain ⟨chain, hchain⟩ := exists_leaderChain hn
    rw [repetition, hchain]
    rfl
  rw [repetitions, mapM_ok hreports]
  rfl

end

end OperandFlow.Graph
