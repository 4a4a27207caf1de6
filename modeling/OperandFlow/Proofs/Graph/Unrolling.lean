import OperandFlow.Proofs.Graph.Chains
import OperandFlow.Proofs.Graph.Spans
import OperandFlow.Proofs.Graph.Steady

/-! A loop that is traced turn by turn. Each turn adds a conditional jump and the destination that
it goes to, and these two are linked to each other and to the turn before, however many nodes at the
same addresses there are. -/
namespace OperandFlow

/-- A live node of a function for an instruction. -/
structure Node.IsFor (n : Node) (function : String) (x : Instruction) : Prop where
  function : n.function = function
  instruction : n.instruction = some x
  live : n.isDeleted = false

namespace Node.IsFor

variable {n : Node} {function : String} {x : Instruction} (h : n.IsFor function x)
include h

theorem is (o : Opcode) : n.is o = decide (x.opcode = o) := by
  simp [Node.is, Node.opcode?, h.instruction]

theorem address : n.address = x.address := by
  simp [Node.address, h.instruction]

theorem leader? : n.leader? = some x.leader := by
  rw [Node.leader?, h.instruction, Option.map_some]

theorem tx? : n.tx? = some x.tx := by
  rw [Node.tx?, h.instruction, Option.map_some]

theorem redirect (successors : List NodeId) :
    ({ n with successors := successors } : Node).IsFor function x :=
  ⟨h.function, h.instruction, h.live⟩

theorem addPred (slot : Nat) (pred : NodeId) : (n.addPred slot pred).IsFor function x :=
  ⟨h.function, h.instruction, h.live⟩

end Node.IsFor

/-- An instruction of a call that only directs the flow of control, with all its operands. -/
structure Arrival.Directs (a : Arrival) (function : String) (tx : UInt64) : Prop where
  function : a.function = function
  tx : a.tx = tx
  category : a.opcode.category = .controlFlow
  plain : a.opcode.isCall = false
  unwaited : a.opcode.reportsResult = false
  complete : ∀ uid, a.missing? uid = none

namespace Graph

/-- The graph `g'` is `g` with the instruction `n` behind `pred`, which no longer goes to the
exit. -/
structure Continues (g g' : Graph) (n : Node) (pred exit : NodeId) : Prop where
  outlines : g'.outlines = g.outlines.push n.outline
  pending : g'.pending = g.pending
  self : g'.node? g.size = some (n.addPred 0 pred)
  before : ∀ m, g.node? pred = some m →
    g'.node? pred = some ((m.eraseSuccessor exit).addSuccessor g.size)
  other : ∀ i, i < g.size → i ≠ pred → i ≠ exit → g'.node? i = g.node? i

theorem Continues.size {g g' : Graph} {n : Node} {pred exit : NodeId}
    (h : g.Continues g' n pred exit) : g'.size = g.size + 1 := by
  rw [← size_outlines, h.outlines, Array.size_push, size_outlines]

theorem Continues.outline {g g' : Graph} {n : Node} {pred exit i : NodeId} {o : Outline}
    (h : g.Continues g' n pred exit) (ho : g.outlines[i]? = some o) : g'.outlines[i]? = some o := by
  have hlt : i < g.outlines.size := (Array.getElem?_eq_some_iff.mp ho).1
  rw [h.outlines, Array.getElem?_push, if_neg (Nat.ne_of_lt hlt), ho]

variable {host : Host} {g g' : Graph} {a : Arrival} {s : Sentinels} {pred : NodeId}

theorem Continues.formed {o : Options} {category : Category} {exit : NodeId}
    (h : g.Continues g' (g.nodeOf o s a category) pred exit) (hg : Formed g.outlines)
    (hs : g.sentinels? a.function = some s) : Formed g'.outlines := by
  rw [h.outlines, ← outlines_arrive g _ s.exit]
  exact formed_arrive hg hs category

theorem exit_lt_size {function : String} (hg : Formed g.outlines)
    (hs : g.sentinels? function = some s) : s.exit < g.size := by
  obtain ⟨-, -, hx⟩ := hg.of_sentinels? hs
  exact size_outlines g ▸ (Array.getElem?_eq_some_iff.mp hx).1

theorem node?_arrive_size {n : Node} {exit : NodeId} (hexit : exit < g.size) :
    (g.arrive n exit).node? g.size = some n := by
  rw [node?_arrive hexit, if_pos rfl]

theorem readyFor_of_idle (hpending : g.pending = []) (hs : g.sentinels? a.function = some s) :
    g.readyFor host a = (g, s) := by
  unfold readyFor withFunction
  rw [flushWhere_value, pendingWhere, hpending, List.filter_nil, List.foldl_nil, hs]
  rfl

/-- A node that is linked to a single node as it arrives. -/
theorem continues_connect {n : Node} (hg : Formed g.outlines)
    (hg' : Formed (g.arrive n s.exit).outlines) (hs : g.sentinels? n.function = some s)
    (hwait : n.awaiting = false) (hpred : pred < g.size) (hexit : pred ≠ s.exit) :
    g.Continues ((g.arrive n s.exit).connect pred g.size 0) n pred s.exit := by
  obtain ⟨hnext, hentry, -⟩ := hg.of_sentinels? hs
  have hlt : s.entry < g.outlines.size := (Array.getElem?_eq_some_iff.mp hentry).1
  have hlast : s.exit < g.size := exit_lt_size hg hs
  have hnode : (g.arrive n s.exit).node? g.size = some n := node?_arrive_size hlast
  have hbound : (g.arrive n s.exit).boundaries? g.size = some s := by
    have hopen : (g.arrive n s.exit).outlines[s.entry]? = some (.entry s.entry n.function) := by
      rw [outlines_arrive, Array.getElem?_push, if_neg (Nat.ne_of_lt hlt), hentry]
    rw [boundaries?_of_node? hnode, hg'.sentinels?_eq_of_entry hopen, ← hnext]
  have hold : ∀ i, i < g.size → i ≠ s.exit → (g.arrive n s.exit).node? i = g.node? i := by
    intro i hi hne
    rw [node?_arrive hlast, if_neg (Nat.ne_of_lt hi), if_neg hne]
  refine ⟨?_, ?_, node?_connect_self hnode hbound (Nat.ne_of_lt hpred) (Nat.ne_of_gt hlast), ?_, ?_⟩
  · rw [outlines_connect, outlines_arrive]
  · unfold connect
    rw [hbound]
    simp [arrive, hwait]
  · intro m hm
    unfold connect
    simp only [hbound, Option.map_some]
    rw [node?_update_of_ne hexit]
    apply node?_update_self
    rw [node?_update_of_ne (Nat.ne_of_lt hpred), hold pred hpred hexit, hm]
  · intro i hi hne hnexit
    unfold connect
    simp only [hbound, Option.map_some]
    rw [node?_update_of_ne hnexit, node?_update_of_ne hne, node?_update_of_ne (Nat.ne_of_lt hi),
      hold i hi hnexit]

section Directs

variable {function : String} {tx : UInt64} (ha : a.Directs function tx)
include ha

theorem kind_of_directs : ∃ target, a.kind a.opcode.category = .controlFlow target := by
  rw [ha.category]
  unfold Arrival.kind
  simp only [ha.plain, Bool.false_eq_true, if_false]
  split_ifs
  · exact ⟨_, rfl⟩
  · exact ⟨none, rfl⟩

theorem linksAtOnce_of_directs (o : Options) (g : Graph) (s : Sentinels) :
    linksAtOnce a (g.nodeOf o s a a.opcode.category) = true := by
  obtain ⟨target, hkind⟩ := kind_of_directs ha
  simp [linksAtOnce, nodeOf, hkind, ha.complete, Arrival.isDeferred, ha.unwaited]

theorem isFor_nodeOf {opcode : Opcode} (hopcode : a.opcode = opcode) (o : Options) (g : Graph)
    (s : Sentinels) :
    (g.nodeOf o s a a.opcode.category).IsFor function ⟨tx, opcode, a.address,
      if opcode = .jumpdest then g.size else g.leaderFor s.entry function tx a.address⟩ := by
  refine ⟨ha.function, ?_, by simp [Node.isDeleted, nodeOf, a.kind_ne]⟩
  simp [nodeOf, hopcode, ha.function, ha.tx]

theorem slots_of_directs (o : Options) (g : Graph) (s : Sentinels) :
    (g.nodeOf o s a a.opcode.category).slots = [o.slot g.size (.operand 0) (a.operand 0)] := by
  have hstorage : a.opcode.isStorage = false := by
    have hcategory := ha.category
    cases hopcode : a.opcode <;> simp_all [Opcode.category, Opcode.isStorage]
  simp [nodeOf, Options.slots, Arrival.slotValues, hstorage, ha.category, ha.plain]

/-- The instruction is linked to what the search for its edges finds. -/
theorem continues_added (hg : Formed g.outlines) (hpending : g.pending = [])
    (hs : g.sentinels? function = some s) (hpred : pred < g.size) (hexit : pred ≠ s.exit)
    (hfound : let joined := g.arrive (g.nodeOf host.options s a a.opcode.category) s.exit
      (joined.findEdges host g.size).value = (.ok (), (joined.link pred g.size 0).value)) :
    g.Continues (g.added host a) (g.nodeOf host.options s a a.opcode.category) pred s.exit := by
  rw [← ha.function] at hs
  have hslots := slots_of_directs ha host.options g s
  have hlinks := linksAtOnce_of_directs ha host.options g s
  have hg' := formed_arrive (o := host.options) hg hs a.opcode.category
  have hadded : g.added host a = receive host a a.opcode.category g s := by
    rw [added, readyFor_of_idle hpending hs]
  have hwait : (g.nodeOf host.options s a a.opcode.category).awaiting = false := by
    simp [nodeOf, Arrival.isDeferred, ha.unwaited]
  have hfunction : (g.nodeOf host.options s a a.opcode.category).function = a.function := rfl
  have huid : (g.nodeOf host.options s a a.opcode.category).uid = g.size := rfl
  unfold receive at hadded
  dsimp only at hadded hfound
  rw [if_pos hlinks, runEdgeSearch_value, huid, hfound] at hadded
  generalize g.nodeOf host.options s a a.opcode.category = n at *
  have hnode : (g.arrive n s.exit).node? g.size = some n := node?_arrive_size (exit_lt_size hg hs)
  have hlink : ((g.arrive n s.exit).link pred g.size 0).value =
      (g.arrive n s.exit).connect pred g.size 0 := by
    simp [link, hnode, hslots, Options.slot, Nat.ne_of_lt hpred]
  rw [hadded, hlink]
  exact continues_connect hg hg' (hfunction ▸ hs) hwait hpred hexit

/-- A destination looks for a jump to it, and any other instruction goes on with its block. -/
theorem findEdges_of_directs (host : Host) (hg : Formed g.outlines)
    (hs : g.sentinels? function = some s) :
    let n := g.nodeOf host.options s a a.opcode.category
    let joined := g.arrive n s.exit
    (joined.findEdges host g.size).value =
      (.ok (), (if a.opcode = .jumpdest then joined.linkDestination host n
        else joined.linkFromLeader n).value) := by
  intro n joined
  have hnode : joined.node? g.size = some n := node?_arrive_size (exit_lt_size hg hs)
  obtain ⟨target, hkind⟩ := kind_of_directs ha
  have hsearched : (n.isDeleted || n.isSentinel) = false := by
    simp [n, Node.isDeleted, Node.isSentinel, nodeOf, a.kind_ne]
  have hopcode : n.opcode? = some a.opcode := rfl
  have hkind : n.kind = .controlFlow target := hkind
  unfold findEdges
  rw [hnode]
  dsimp only
  rw [hsearched, hopcode]
  simp only [Logged.value_bind]
  by_cases hdest : a.opcode = .jumpdest
  · simp [linkNode, hkind, hdest]
  · simp [linkNode, hkind, hdest]

end Directs

theorem take_nodes {l : NodeId} {m : Node} (hm : g.node? l = some m) :
    g.nodes.toList.take (l + 1) = g.nodes.toList.take l ++ [m] := by
  rw [List.take_add_one, Array.getElem?_toList, show g.nodes[l]? = some m from hm]
  rfl

/-- The newest node leads the block of an instruction if it can. -/
theorem leaderFor_of_newest (hg : Formed g.outlines) {l entry : NodeId} {m : Node}
    {function : String} {tx address : UInt64} (hm : g.node? l = some m) (hsize : g.size = l + 1)
    (hlead : canLead function tx address m = true) :
    g.leaderFor entry function tx address = l := by
  have hall : g.nodes.toList = g.nodes.toList.take l ++ [m] := by
    rw [← take_nodes hm, ← hsize]
    exact (List.take_of_length_le (Nat.le_of_eq Array.length_toList)).symm
  rw [leaderFor, hall, List.reverse_concat, List.find?_cons_of_pos hlead, Option.map_some,
    Option.getD_some]
  exact hg.uid_node hm

/-- The newest node before an instruction comes first. -/
theorem liveBefore_of_newest {l : NodeId} {m n : Node} {limit : Nat} (hm : g.node? l = some m)
    (huid : n.uid = l + 1) (hinstr : n.instruction ≠ none) (htrace : n.sameTrace m = true)
    (hlive : m.isDeleted = false) (hlimit : 1 ≤ limit) :
    ∃ rest, g.liveBefore limit n = m :: rest := by
  obtain ⟨limit, rfl⟩ := Nat.exists_eq_add_of_le' hlimit
  have hsome : n.instruction.isNone = false :=
    Option.isNone_eq_false_iff.mpr (Option.isSome_iff_ne_none.mpr hinstr)
  unfold liveBefore traceBefore
  rw [hsome, huid, take_nodes hm, List.reverse_concat]
  simp [htrace, hlive]

/-- A jump destination is linked to the newest node if that is an open jump to it. -/
theorem linkDestination_of_newest {n m : Node} {l : NodeId} (hg : Formed g.outlines)
    (hm : g.node? l = some m) (huid : n.uid = l + 1) (hinstr : n.instruction ≠ none)
    (hpreds : n.predsAt 0 = []) (htrace : n.sameTrace m = true) (hlive : m.isDeleted = false)
    (hopen : g.isOpenJump ((g.boundaries? n.uid).map (·.exit)) n.address.toNat m = true)
    (hreach : 1 ≤ host.options.reach) :
    (g.linkDestination host n).value = (g.link l n.uid 0).value := by
  obtain ⟨rest, hrest⟩ := liveBefore_of_newest hm huid hinstr htrace hlive hreach
  unfold linkDestination
  simp only [hpreds, List.isEmpty_nil, Bool.not_true, Bool.false_eq_true, if_false, hrest,
    List.find?_cons_of_pos hopen]
  rw [hg.uid_node hm]

/-- The leader of the block that is traced after so many turns. -/
def leaderAfter : Nat → Nat
  | 0 => 0
  | n + 1 => 2 * n + 3

theorem leaderAfter_cases (n : Nat) :
    n = 0 ∧ leaderAfter n = 0 ∨ 0 < n ∧ leaderAfter n = 2 * n + 1 := by
  cases n with
  | zero => exact Or.inl ⟨rfl, rfl⟩
  | succ n => exact Or.inr ⟨Nat.succ_pos n, rfl⟩

/-- Turns of a loop as they were traced from the start on. The conditional jumps stand at the given
addresses. -/
structure Unrolled (function : String) (tx target : UInt64) (jumps : List UInt64) (g : Graph) :
    Prop where
  entry : g.outlines[0]? = some (.entry 0 function)
  jump : ∀ (j : Nat) (address : UInt64), jumps[j]? = some address →
    ∃ m, g.node? (2 * j + 2) = some m ∧
      m.IsFor function ⟨tx, .jumpi, address, leaderAfter j⟩ ∧ m.successors = [2 * j + 3]
  dest : ∀ j : Nat, j < jumps.length → ∃ m, g.node? (2 * j + 3) = some m ∧
    m.IsFor function ⟨tx, .jumpdest, target, 2 * j + 3⟩ ∧ m.predsAt 0 = [2 * j + 2]

/-- A jump destination right behind an open jump to it. -/
theorem continues_dest {function : String} {tx : UInt64} {x : Instruction} {m : Node} {l : NodeId}
    (hg : Formed g.outlines) (hpending : g.pending = []) (hs : g.sentinels? function = some s)
    (hm : g.node? l = some m) (hsize : g.size = l + 1) (hexit : l ≠ s.exit)
    (hfor : m.IsFor function x) (hjump : x.opcode = .jumpi) (htx : x.tx = tx)
    (htarget : m.destination? = some a.address.toNat) (hsucc : m.successors = [s.exit])
    (ha : a.Directs function tx) (hdest : a.opcode = .jumpdest)
    (hreach : 1 ≤ host.options.reach) :
    g.Continues (g.added host a) (g.nodeOf host.options s a a.opcode.category) l s.exit := by
  have hlt : l < g.size := lt_size_of_node? hm
  refine continues_added ha hg hpending hs hlt hexit ?_
  have hnew := isFor_nodeOf ha hdest host.options g s
  have hslots := slots_of_directs ha host.options g s
  have hg' := formed_arrive (o := host.options) hg (ha.function ▸ hs) a.opcode.category
  have hfound := findEdges_of_directs ha host hg hs
  dsimp only at hfound ⊢
  rw [hfound, if_pos hdest]
  have huid : (g.nodeOf host.options s a a.opcode.category).uid = g.size := rfl
  generalize g.nodeOf host.options s a a.opcode.category = n at *
  obtain ⟨-, -, hx⟩ := hg.of_sentinels? hs
  obtain ⟨e, he, hexit'⟩ := node?_of_outlines hx
  have hlast : s.exit < g.size := lt_size_of_node? he
  have hm' : (g.arrive n s.exit).node? l = some m := by
    rw [node?_arrive hlast, if_neg (Nat.ne_of_lt hlt), if_neg hexit, hm]
  have he' : (g.arrive n s.exit).node? s.exit = some (e.addPred 0 n.uid) := by
    rw [node?_arrive hlast, if_neg (Nat.ne_of_lt hlast), if_pos rfl, he]
    rfl
  have hbare : ∀ o, (e.addPred 0 n.uid).is o = false := by
    intro o
    have hinstr : (e.addPred 0 n.uid).instruction = none := (Node.of_outline_exit hexit').2
    simp [Node.is, Node.opcode?, hinstr]
  have hinstr : n.instruction ≠ none := by simp [hnew.instruction]
  rw [← huid, linkDestination_of_newest hg' hm' (huid.trans hsize) hinstr ?_ ?_ hfor.live ?_ hreach]
  · rw [Node.predsAt_zero hslots]
    rfl
  · simp [Node.sameTrace, hnew.function, hfor.function, hnew.tx?, hfor.tx?, htx]
  · simp [isOpenJump, htarget, hnew.address, hfor.is, hjump, hsucc, he', hbare]

/-- Nothing else was traced than these turns. -/
structure OnlyTurns (function : String) (tx target : UInt64) (jumps : List UInt64) (g : Graph) :
    Prop extends g.Unrolled function tx target jumps where
  formed : Formed g.outlines
  size : g.size = 2 * jumps.length + 2
  pending : g.pending = []

variable {function : String} {tx target : UInt64} {jumps : List UInt64}

/-- The sentinels of the only function come first. -/
theorem Unrolled.sentinel (h : g.Unrolled function tx target jumps) (hg : Formed g.outlines) :
    g.sentinels? function = some ⟨0, 1⟩ ∧ ∀ i n, g.node? i = some n → i < 2 →
      n.instruction = none ∧ n.isDeleted = false ∧ (n.isEntry = true ↔ i = 0) := by
  have hs : g.sentinels? function = some ⟨0, 1⟩ := hg.sentinels?_eq_of_entry h.entry
  obtain ⟨-, -, hx⟩ := hg.of_sentinels? hs
  refine ⟨hs, fun i n hn hi => ?_⟩
  have ho := outlines_of_node? hn
  obtain rfl | rfl : i = 0 ∨ i = 1 := by grind
  · rw [h.entry, Option.some.injEq] at ho
    have hentry : n.isEntry = true := (congrArg Outline.isEntry ho).symm
    exact ⟨(congrArg Outline.instruction ho).symm,
      by simp [Node.isDeleted, n.isEntry_iff.mp hentry], by simp [hentry]⟩
  · rw [hx, Option.some.injEq] at ho
    obtain ⟨hkind, hinstr⟩ := Node.of_outline_exit ho.symm
    exact ⟨hinstr, by simp [Node.isDeleted, hkind], by simp [Node.isEntry, hkind]⟩

/-- A turn is complete when its destination is there. -/
theorem Unrolled.concat {m n : Node} {slot : Slot} {address : UInt64}
    (h : g.Unrolled function tx target jumps) (hsize : g.size = 2 * jumps.length + 3)
    (hm : g.node? (2 * jumps.length + 2) = some m)
    (hjump : m.IsFor function ⟨tx, .jumpi, address, leaderAfter jumps.length⟩)
    (hsucc : m.successors = [1])
    (hdest : n.IsFor function ⟨tx, .jumpdest, target, 2 * jumps.length + 3⟩)
    (hslots : n.slots = [slot]) (hfree : slot.preds = [])
    (hc : g.Continues g' n (2 * jumps.length + 2) 1) :
    g'.Unrolled function tx target (jumps ++ [address]) where
  entry := hc.outline h.entry
  jump := by
    intro j address' hj
    by_cases hlast : j = jumps.length
    · subst hlast
      rw [List.getElem?_concat_length, Option.some.injEq] at hj
      subst hj
      refine ⟨_, hc.before m hm, ?_, ?_⟩
      · rw [Node.addSuccessor_eq]
        exact (hjump.redirect _).redirect _
      · rw [Node.addSuccessor_eq, hsize]
        simp [Node.eraseSuccessor, hsucc]
    · have hlt : j < jumps.length := by
        have hlt := (List.getElem?_eq_some_iff.mp hj).1
        rw [List.length_append, List.length_singleton] at hlt
        omega
      rw [List.getElem?_append_left hlt] at hj
      obtain ⟨k, hk, hfor, hnext⟩ := h.jump j address' hj
      have hplace : 2 * j + 2 < g.size ∧ 2 * j + 2 ≠ 2 * jumps.length + 2 ∧ 2 * j + 2 ≠ 1 := by
        omega
      exact ⟨k, by rw [hc.other _ hplace.1 hplace.2.1 hplace.2.2, hk], hfor, hnext⟩
  dest := by
    intro j hj
    rw [List.length_append, List.length_singleton] at hj
    by_cases hlast : j = jumps.length
    · subst hlast
      have hself := hc.self
      rw [hsize] at hself
      refine ⟨_, hself, hdest.addPred 0 _, ?_⟩
      simp [Node.predsAt, Node.addPred, hslots, hfree]
    · obtain ⟨k, hk, hfor, hpreds⟩ := h.dest j (by omega)
      have hplace : 2 * j + 3 < g.size ∧ 2 * j + 3 ≠ 2 * jumps.length + 2 ∧ 2 * j + 3 ≠ 1 := by
        omega
      exact ⟨k, by rw [hc.other _ hplace.1 hplace.2.1 hplace.2.2, hk], hfor, hpreds⟩

namespace OnlyTurns

/-- The turns stay as they are when the last block goes on. -/
theorem continues {n : Node} (h : g.OnlyTurns function tx target jumps)
    (hc : g.Continues g' n (leaderAfter jumps.length) 1) :
    g'.Unrolled function tx target jumps where
  entry := hc.outline h.entry
  jump := by
    intro j address hj
    obtain ⟨m, hm, hfor, hsucc⟩ := h.jump j address hj
    refine ⟨m, ?_, hfor, hsucc⟩
    have hlt : j < jumps.length := (List.getElem?_eq_some_iff.mp hj).1
    have hplace : 2 * j + 2 < g.size ∧ 2 * j + 2 ≠ leaderAfter jumps.length ∧ 2 * j + 2 ≠ 1 := by
      have hsize := h.size
      have hlast := leaderAfter_cases jumps.length
      omega
    rw [hc.other _ hplace.1 hplace.2.1 hplace.2.2, hm]
  dest := by
    intro j hj
    obtain ⟨m, hm, hfor, hpreds⟩ := h.dest j hj
    by_cases hlast : 2 * j + 3 = leaderAfter jumps.length
    · rw [hlast] at hm ⊢
      refine ⟨_, hc.before m hm, ?_, ?_⟩
      · rw [Node.addSuccessor_eq]
        exact hlast ▸ hfor.redirect _
      · rw [Node.addSuccessor_eq]
        exact hpreds
    · have hplace : 2 * j + 3 < g.size ∧ 2 * j + 3 ≠ 1 := by
        have hsize := h.size
        omega
      exact ⟨m, by rw [hc.other _ hplace.1 hlast hplace.2, hm], hfor, hpreds⟩

/-- The newest destination leads the block that follows it. -/
theorem leaderFor (h : g.OnlyTurns function tx target jumps) {address : UInt64}
    (haddress : jumps = [] ∨ target ≤ address) :
    g.leaderFor 0 function tx address = leaderAfter jumps.length := by
  obtain ⟨-, hbare⟩ := h.sentinel h.formed
  rcases leaderAfter_cases jumps.length with ⟨hlen, hleader⟩ | ⟨hpos, hleader⟩
  · have hnone : g.nodes.toList.reverse.find? (canLead function tx address) = none := by
      rw [List.find?_eq_none]
      intro n hn
      obtain ⟨i, hi⟩ := mem_nodes_iff.mp (List.mem_reverse.mp hn)
      have hlt : i < 2 := by
        have hlt := lt_size_of_node? hi
        rw [h.size, hlen] at hlt
        exact hlt
      simp [canLead, Node.tx?, (hbare i n hi hlt).1]
    rw [Graph.leaderFor, hnone, hleader, Option.map_none, Option.getD_none]
  · have htarget : target ≤ address := haddress.resolve_left (List.ne_nil_of_length_pos hpos)
    have hplace : 2 * (jumps.length - 1) + 3 = 2 * jumps.length + 1 := by omega
    obtain ⟨m, hm, hfor, -⟩ := h.dest (jumps.length - 1) (by omega)
    rw [hplace] at hm hfor
    rw [hleader]
    refine leaderFor_of_newest h.formed hm h.size ?_
    simp [canLead, hfor.function, hfor.tx?, hfor.live, hfor.is, hfor.address, htarget]

/-- Whatever directs the flow of control and is no destination goes on with the last block. -/
theorem continues_added (h : g.OnlyTurns function tx target jumps) (host : Host)
    {opcode : Opcode} (ha : a.Directs function tx) (hopcode : a.opcode = opcode)
    (hdest : opcode ≠ .jumpdest) (haddress : jumps = [] ∨ target ≤ a.address) :
    let n := g.nodeOf host.options ⟨0, 1⟩ a a.opcode.category
    n.IsFor function ⟨tx, opcode, a.address, leaderAfter jumps.length⟩ ∧
      g.Continues (g.added host a) n (leaderAfter jumps.length) 1 ∧
      Formed (g.added host a).outlines := by
  intro n
  have hleader := h.leaderFor haddress
  have hfor := isFor_nodeOf ha hopcode host.options g ⟨0, 1⟩
  rw [if_neg hdest, hleader] at hfor
  obtain ⟨hs, -⟩ := h.sentinel h.formed
  have hplace : leaderAfter jumps.length < g.size ∧ leaderAfter jumps.length ≠ 1 := by
    have hsize := h.size
    have hlast := leaderAfter_cases jumps.length
    omega
  have hfound := findEdges_of_directs ha host h.formed hs
  have hc : g.Continues (g.added host a) n (leaderAfter jumps.length) 1 := by
    refine Graph.continues_added ha h.formed h.pending hs hplace.1 hplace.2 ?_
    dsimp only
    rw [hfound, if_neg (hopcode ▸ hdest), linkFromLeader, hfor.leader?]
    rfl
  exact ⟨hfor, hc, hc.formed h.formed (ha.function ▸ hs)⟩

/-- One more turn. -/
theorem turn {jump dest : Arrival} (h : g.OnlyTurns function tx target jumps)
    (hjump : jump.Directs function tx) (hjumpi : jump.opcode = .jumpi)
    (htarget : jump.operands.head?.bind Value.concrete? = some target.toNat)
    (haddress : jumps = [] ∨ target ≤ jump.address)
    (hdest : dest.Directs function tx) (hjumpdest : dest.opcode = .jumpdest)
    (hat : dest.address = target) (hreach : 1 ≤ host.options.reach) :
    ((g.added host jump).added host dest).OnlyTurns function tx target
      (jumps ++ [jump.address]) := by
  obtain ⟨hfor, hc, hg⟩ := h.continues_added host hjump hjumpi nofun haddress
  have h₁ := h.continues hc
  obtain ⟨hs, -⟩ := h₁.sentinel hg
  have hsize : (g.added host jump).size = 2 * jumps.length + 3 := by rw [hc.size, h.size]
  have hnode := hc.self
  rw [h.size] at hnode
  have htarget : ((g.nodeOf host.options ⟨0, 1⟩ jump jump.opcode.category).addPred 0
      (leaderAfter jumps.length)).destination? = some dest.address.toNat := by
    simp [Node.destination?, Node.addPred, nodeOf, Arrival.kind, hjumpi, Opcode.category,
      Opcode.isCall, Opcode.isJump, htarget, hat]
  have hc' := continues_dest hg (hc.pending.trans h.pending) hs hnode hsize (by simp)
    (hfor.addPred 0 _) rfl rfl htarget rfl hdest hjumpdest hreach
  have hnew := isFor_nodeOf hdest hjumpdest host.options (g.added host jump) ⟨0, 1⟩
  rw [if_pos rfl, hat, hsize] at hnew
  exact
    { h₁.concat hsize hnode (hfor.addPred 0 _) rfl hnew
        (slots_of_directs hdest host.options _ _) rfl hc' with
      formed := hc'.formed hg (hdest.function ▸ hs)
      size := by rw [hc'.size, hsize, List.length_append, List.length_singleton]; omega
      pending := hc'.pending.trans (hc.pending.trans h.pending) }

end OnlyTurns

theorem onlyTurns_withFunction (o : Options) (function : String) (tx target : UInt64) :
    (empty.withFunction o function).value.1.OnlyTurns function tx target [] := by
  have hempty : Formed empty.outlines := outlines_empty ▸ formed_empty
  obtain ⟨hformed, hs⟩ := formed_withFunction (o := o) hempty function
  obtain ⟨-, hentry, -⟩ := hformed.of_sentinels? hs
  exact ⟨⟨hentry, nofun, nofun⟩, hformed, rfl, rfl⟩

namespace Unrolled

/-- The blocks that were executed up to the end of some turn. -/
theorem chainTo (h : g.Unrolled function tx target jumps) (hg : Formed g.outlines) {n : Nat}
    (hn : n ≤ jumps.length) :
    g.chainTo (some 0) (leaderAfter n) = 0 :: List.range' 2 (2 * n) := by
  induction n with
  | zero =>
    obtain ⟨e, he, ho⟩ := node?_of_outlines h.entry
    have hentry : e.isEntry = true := congrArg Outline.isEntry ho
    rw [Graph.chainTo]
    simp [leaderAfter, stepBack, he, hentry]
  | succ n ih =>
    obtain ⟨m, hm, hdest, hpreds⟩ := h.dest n (by omega)
    obtain ⟨k, hk, hjump, -⟩ := h.jump n _ (List.getElem?_eq_getElem (by omega))
    have hback : g.stepBack (some 0) (leaderAfter (n + 1)) =
        (some (leaderAfter n), [2 * n + 2]) := by
      have hm' := hg.isEntry_eq_false hm (by simp [hdest.instruction])
      have hk' := hg.isEntry_eq_false hk (by simp [hjump.instruction])
      simp [leaderAfter, stepBack, hm, hm', hdest.is, hpreds, hk, hk', hjump.is, hjump.leader?]
    have hlt : leaderAfter n < leaderAfter (n + 1) := by
      have hlast := leaderAfter_cases n
      have hnext := leaderAfter_cases (n + 1)
      omega
    have hrange : List.range' 2 (2 * (n + 1)) =
        List.range' 2 (2 * n) ++ [2 * n + 2, 2 * n + 3] := by
      rw [show 2 * (n + 1) = 2 * n + 2 by omega, List.range'_concat, List.range'_concat]
      simp
      omega
    rw [Graph.chainTo, hback]
    dsimp only
    rw [if_pos hlt, ih (by omega), hrange]
    simp [leaderAfter]

/-- Every turn enters the target once. -/
theorem entrances? (h : g.Unrolled function tx target jumps) {k m : Nat}
    (hlen : k + m = jumps.length) {i : NodeId} {n : Node} (hn : g.node? i = some n) :
    g.entrances? (i :: List.range' (2 * k + 2) (2 * m)) =
      some ((List.range' k m).map fun j => ⟨target, 2 * j + 2, 2 * j + 3⟩) := by
  induction m generalizing k i n with
  | zero => rfl
  | succ m ih =>
    obtain ⟨jump, hj, hjumpi, -⟩ := h.jump k _ (List.getElem?_eq_getElem (by omega))
    obtain ⟨dest, hd, hdest, -⟩ := h.dest k (by omega)
    have hrest := ih (k := k + 1) (by omega) hd
    have hrange : List.range' (2 * k + 2) (2 * (m + 1)) =
        (2 * k + 2) :: (2 * k + 3) :: List.range' (2 * (k + 1) + 2) (2 * m) := rfl
    rw [hrange, Graph.entrances?, Graph.entrances?, hrest, hn, hj, hd]
    simp [hjumpi.is, hdest.is, hdest.address, List.range'_succ]

end Unrolled

/-- The span of all turns, if there are more of them than the threshold. -/
theorem isSpan_turns {chain : List NodeId} {n : Nat} (threshold : Nat)
    (h : g.entrances? chain =
      some ((List.range' 0 n).map fun j => ⟨target, 2 * j + 2, 2 * j + 3⟩)) :
    IsSpan (g.looping threshold chain) (if threshold < n then some (2, 2 * n + 1) else none) := by
  have hmem : ∀ i : Nat, i ∈ g.looping threshold chain ↔
      threshold < n ∧ ∃ j, j < n ∧ (i = 2 * j + 2 ∨ i = 2 * j + 3) := by
    intro i
    rw [mem_looping_iff h]
    have hcount : ((List.range' 0 n).map
        fun j => (⟨target, 2 * j + 2, 2 * j + 3⟩ : Entrance)).countP (fun f => f.address = target) =
          n := by
      rw [List.countP_eq_length.mpr (by simp), List.length_map, List.length_range']
    constructor
    · rintro ⟨e, he, hmany, hi⟩
      obtain ⟨j, hj, rfl⟩ := List.mem_map.mp he
      rw [List.mem_range'_1] at hj
      rw [hcount] at hmany
      exact ⟨hmany, j, by omega, hi⟩
    · rintro ⟨hmany, j, hj, hi⟩
      refine ⟨_, List.mem_map.mpr ⟨j, List.mem_range'_1.mpr (by omega), rfl⟩, ?_, hi⟩
      rw [hcount]
      exact hmany
  by_cases hmany : threshold < n
  · rw [if_pos hmany]
    refine ⟨⟨(hmem 2).mpr ⟨hmany, 0, by omega, by omega⟩, ?_⟩,
      ⟨(hmem (2 * n + 1)).mpr ⟨hmany, n - 1, by omega, by omega⟩, ?_⟩⟩
    · intro (i : Nat) hi
      obtain ⟨-, j, -, hj⟩ := (hmem i).mp hi
      show 2 ≤ i
      omega
    · intro (i : Nat) hi
      obtain ⟨-, j, hlt, hj⟩ := (hmem i).mp hi
      show i ≤ 2 * n + 1
      omega
  · rw [if_neg hmany]
    exact Set.eq_empty_of_forall_notMem fun i hi => hmany ((hmem i).mp hi).1

/-- Only one node has the property. -/
theorem filter_nodes_eq_singleton {p : Node → Bool} {i : NodeId} {n : Node}
    (hn : g.node? i = some n) (hp : p n = true)
    (hother : ∀ j m, g.node? j = some m → j ≠ i → p m = false) : g.nodes.toList.filter p = [n] := by
  have hsplit : g.nodes.toList = g.nodes.toList.take i ++ n :: g.nodes.toList.drop (i + 1) := by
    refine (List.take_append_drop (i + 1) _).symm.trans ?_
    rw [take_nodes hn, List.append_assoc]
    rfl
  have hbefore : (g.nodes.toList.take i).filter p = [] := by
    refine List.filter_eq_nil_iff.mpr fun m hm => ?_
    obtain ⟨j, hj⟩ := List.mem_iff_getElem?.mp hm
    rw [List.getElem?_take] at hj
    split_ifs at hj with hlt
    rw [Array.getElem?_toList] at hj
    simp [hother j m hj (Nat.ne_of_lt hlt)]
  have hafter : (g.nodes.toList.drop (i + 1)).filter p = [] := by
    refine List.filter_eq_nil_iff.mpr fun m hm => ?_
    obtain ⟨j, hj⟩ := List.mem_iff_getElem?.mp hm
    rw [List.getElem?_drop, Array.getElem?_toList] at hj
    simp [hother (i + 1 + j) m hj (by grind)]
  rw [hsplit, List.filter_append, List.filter_cons_of_pos hp, hbefore, hafter]
  rfl

/-- The turns of a loop, and a halt behind them. -/
structure Halted (function : String) (tx target : UInt64) (jumps : List UInt64) (address : UInt64)
    (g : Graph) : Prop extends g.Unrolled function tx target jumps where
  formed : Formed g.outlines
  size : g.size = 2 * jumps.length + 3
  halt : ∃ m, g.node? (2 * jumps.length + 2) = some m ∧
    m.IsFor function ⟨tx, .stop, address, leaderAfter jumps.length⟩ ∧ m.successors = [1]

theorem OnlyTurns.halt (h : g.OnlyTurns function tx target jumps) (host : Host)
    (ha : a.Directs function tx) (hstop : a.opcode = .stop)
    (haddress : jumps = [] ∨ target ≤ a.address) :
    (g.added host a).Halted function tx target jumps a.address := by
  obtain ⟨hfor, hc, hg⟩ := h.continues_added host ha hstop nofun haddress
  have hself := hc.self
  rw [h.size] at hself
  exact { h.continues hc with
    formed := hg
    size := by rw [hc.size, h.size]
    halt := ⟨_, hself, hfor.addPred 0 _, rfl⟩ }

namespace Halted

variable {address : UInt64} (h : g.Halted function tx target jumps address)
include h

/-- All nodes of the graph. -/
theorem node_cases {i : NodeId} {n : Node} (hn : g.node? i = some n) :
    (n.instruction = none ∧ n.isDeleted = false ∧ (n.isEntry = true ↔ i = 0)) ∨
      ∃ x, n.IsFor function x ∧ (x.opcode = .jumpi ∧ n.successors ≠ [1] ∨ x.opcode = .jumpdest ∨
        i = 2 * jumps.length + 2) := by
  have hlt : i < 2 * jumps.length + 3 := h.size ▸ lt_size_of_node? hn
  have hplace : i < 2 ∨ (∃ j < jumps.length, i = 2 * j + 2 ∨ i = 2 * j + 3) ∨
      i = 2 * jumps.length + 2 := by
    by_cases hfirst : i < 2
    · exact Or.inl hfirst
    · by_cases hlast : i = 2 * jumps.length + 2
      · exact Or.inr (Or.inr hlast)
      · exact Or.inr (Or.inl ⟨(i - 2) / 2, by grind, by grind⟩)
  rcases hplace with hfirst | ⟨j, hj, rfl | rfl⟩ | rfl
  · exact Or.inl ((h.sentinel h.formed).2 i n hn hfirst)
  · obtain ⟨m, hm, hfor, hsucc⟩ := h.jump j _ (List.getElem?_eq_getElem hj)
    rw [hn] at hm
    cases hm
    refine Or.inr ⟨_, hfor, Or.inl ⟨rfl, ?_⟩⟩
    simp [hsucc]
  · obtain ⟨m, hm, hfor, -⟩ := h.dest j hj
    rw [hn] at hm
    cases hm
    exact Or.inr ⟨_, hfor, Or.inr (Or.inl rfl)⟩
  · obtain ⟨m, hm, hfor, -⟩ := h.halt
    rw [hn] at hm
    cases hm
    exact Or.inr ⟨_, hfor, Or.inr (Or.inr rfl)⟩

theorem functions : g.functions = [function] := by
  obtain ⟨e, he, ho⟩ := node?_of_outlines h.entry
  have hentry : e.isEntry = true := congrArg Outline.isEntry ho
  have hfun : e.function = function := congrArg Outline.function ho
  have honly : g.nodes.toList.filter Node.isEntry = [e] := by
    refine filter_nodes_eq_singleton he hentry fun i n hn hne => ?_
    rcases h.node_cases hn with ⟨-, -, hiff⟩ | ⟨x, hfor, -⟩
    · exact Bool.eq_false_iff.mpr (mt hiff.mp hne)
    · exact h.formed.isEntry_eq_false hn (by simp [hfor.instruction])
  rw [Graph.functions, honly, List.map_singleton, List.mergeSort_singleton, hfun]

theorem terminals : g.terminals function = [2 * jumps.length + 2] := by
  obtain ⟨m, hm, hfor, hsucc⟩ := h.halt
  obtain ⟨hs, -⟩ := h.sentinel h.formed
  unfold Graph.terminals
  rw [hs]
  dsimp only
  rw [filter_nodes_eq_singleton hm]
  · rw [List.map_singleton, h.formed.uid_node hm]
  · simp [hfor.function, hfor.live, hsucc, Node.opcode?, hfor.instruction, Opcode.isHalt]
  · intro i n hn hne
    rcases h.node_cases hn with ⟨hbare, -⟩ | ⟨x, hx, ⟨-, hnot⟩ | hdest | heq⟩
    · simp [Node.opcode?, hbare]
    · simp [hnot]
    · simp [Node.opcode?, hx.instruction, hdest, Opcode.isJump, Opcode.isHalt]
    · exact absurd heq hne

theorem leaderChain :
    g.leaderChain (2 * jumps.length + 2) = .ok (0 :: List.range' 2 (2 * jumps.length)) := by
  obtain ⟨m, hm, hfor, -⟩ := h.halt
  obtain ⟨hs, -⟩ := h.sentinel h.formed
  rw [leaderChain_of_sentinels? hm hfor.leader? (hfor.function ▸ hs),
    h.chainTo h.formed (Nat.le_refl _)]

theorem loopBounds (threshold : Nat) :
    g.loopBounds? threshold (0 :: List.range' 2 (2 * jumps.length)) =
      some (if threshold < jumps.length then some (2, 2 * jumps.length + 1) else none) := by
  obtain ⟨e, he, -⟩ := node?_of_outlines h.entry
  have hentrances := h.entrances? (Nat.zero_add jumps.length) he
  have hspan := isSpan_turns threshold hentrances
  rw [loopBounds?, hentrances, Option.map_some, (isSpan_spanOf hentrances).unique hspan]

end Halted

/-- The sentinels are made for the first instruction in any case. -/
theorem added_withFunction (host : Host) (a : Arrival) :
    (empty.withFunction host.options a.function).value.1.added host a = empty.added host a := by
  have hempty : Formed empty.outlines := outlines_empty ▸ formed_empty
  obtain ⟨-, hs⟩ := formed_withFunction (o := host.options) hempty a.function
  rw [added, readyFor_of_idle rfl hs]
  rfl

end Graph

end OperandFlow
