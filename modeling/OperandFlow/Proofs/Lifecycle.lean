import Mathlib.Data.List.Pairwise
import OperandFlow.Proofs.Runs

/-! The nodes of a session: what becomes of each of them, and which of them wait for a result. -/
namespace OperandFlow

namespace Graph

variable {host : Host} {g g' : Graph}

/-- The two sentinels of a function stand side by side, before its other nodes. -/
theorem sentinels_of_node? (hg : Formed g.outlines) {i : NodeId} {n : Node}
    (hn : g.node? i = some n) :
    ∃ e p q, g.node? e = some p ∧ p.kind = .entry ∧ p.function = n.function ∧
      g.node? (e + 1) = some q ∧ q.kind = .exit ∧ q.function = n.function ∧
      ∀ j m, g.node? j = some m → m.function = n.function → (m.kind = .entry → j = e) ∧
        (m.kind = .exit → j = e + 1) ∧ (m.isSentinel = false → e + 1 < j) := by
  obtain ⟨e, -, -, he, hx⟩ := hg.boundaries hn
  obtain ⟨p, hp, hentry⟩ := node?_of_outlines he
  obtain ⟨q, hq, hexit⟩ := node?_of_outlines hx
  refine ⟨e, p, q, hp, p.isEntry_iff.mp (congrArg Outline.isEntry hentry),
    congrArg Outline.function hentry, hq, (Node.of_outline_exit hexit).1,
    congrArg Outline.function hexit, ?_⟩
  intro j m hm hfun
  have hentry_eq : ∀ {j : NodeId} {o : Outline}, g.outlines[j]? = some o → o.isEntry = true →
      o.function = n.function → j = e :=
    fun ho hisEntry hfun => hg.entry_unique ho he hisEntry rfl hfun
  refine ⟨fun hkind => hentry_eq (outlines_of_node? hm) (m.isEntry_iff.mpr hkind) hfun,
    fun hkind => hg.exit_unique (outlines_of_node? hm) hx (by simpa using hkind) rfl hfun, ?_⟩
  intro hsent
  obtain ⟨e', hle, -, he', -⟩ := hg.boundaries hm
  rw [hfun] at he'
  rw [hentry_eq he' rfl rfl] at hle
  have hinstr : ∀ o, g.outlines[j]? = some o → o.instruction ≠ none := by
    intro o ho
    rw [outlines_of_node? hm] at ho
    cases ho
    exact hg.instruction_ne_none hm hsent
  have hne : e ≠ j := by
    rintro rfl
    exact hinstr _ he rfl
  have hne' : e + 1 ≠ j := by
    rintro rfl
    exact hinstr _ hx rfl
  exact Nat.lt_of_le_of_ne (Nat.succ_le_of_lt (Nat.lt_of_le_of_ne hle hne)) hne'

/-- The node waits for the result of an opcode in a function. -/
def WaitsFor (g : Graph) (function : String) (opcode : Opcode) (i : NodeId) : Prop :=
  i ∈ g.pending ∧ ∃ n, g.node? i = some n ∧ n.function = function ∧ n.opcode? = some opcode

theorem mem_pendingWhere {function : String} {opcode : Opcode} {i : NodeId} :
    (i ∈ g.pendingWhere fun n => n.function = function && n.is opcode) ↔
      g.WaitsFor function opcode i := by
  unfold pendingWhere WaitsFor Node.is
  rw [List.mem_filter, Option.any_eq_true]
  simp only [Bool.and_eq_true, decide_eq_true_eq]

/-- The node that a result goes to is the newest that waits for it. -/
theorem Paced.awaiting?_cases (hg : g.Paced) (function : String) (opcode : Opcode) :
    (g.awaiting? function opcode = none ∧ ∀ i, ¬ g.WaitsFor function opcode i) ∨
      ∃ uid, g.awaiting? function opcode = some uid ∧ g.WaitsFor function opcode uid ∧
        ∀ i, g.WaitsFor function opcode i → i ≤ uid := by
  unfold awaiting?
  generalize hl : (g.pendingWhere fun n => n.function = function && n.is opcode) = l
  have hmem : ∀ i, i ∈ l ↔ g.WaitsFor function opcode i := fun i => hl ▸ mem_pendingWhere
  have hsorted : l.Pairwise (· ≤ ·) := by
    rw [← hl]
    exact (hg.increasing.filter _).imp Nat.le_of_lt
  by_cases hnil : l = []
  · left
    refine ⟨by rw [hnil, List.getLast?_nil], ?_⟩
    intro i hi
    have := (hmem i).mpr hi
    rw [hnil] at this
    cases this
  · refine Or.inr ⟨l.getLast hnil, List.getLast?_eq_some_getLast hnil,
      (hmem _).mp (List.getLast_mem hnil), ?_⟩
    intro i hi
    exact hsorted.rel_getLast ((hmem i).mpr hi)

/-- Nothing of the call of a waiting node came after it. -/
theorem Paced.newest (hp : g.Paced) (hg : Formed g.outlines) {i j : NodeId} {n m : Node}
    (hi : i ∈ g.pending) (hn : g.node? i = some n) (hm : g.node? j = some m)
    (hfun : m.function = n.function) (htx : m.tx? = n.tx?) : j ≤ i := by
  by_contra hlt
  obtain ⟨n', hn', hinstr, -⟩ := hp.live hi
  rw [hn] at hn'
  cases hn'
  have hexit : n.outline.isExit = false := by
    simpa using hg.kind_ne_exit hn hinstr
  have hinstr' : m.instruction ≠ none := by
    intro hnone
    rw [Node.tx?, Node.tx?, hnone, Option.map_none, eq_comm, Option.map_eq_none_iff] at htx
    exact hinstr htx
  exact hp.last hi ⟨Nat.lt_of_not_le hlt, n.outline, m.outline, outlines_of_node? hn,
    outlines_of_node? hm, hfun.symm, hexit, hinstr', Or.inr htx.symm⟩

theorem Paced.not_awaiting_of_candidate (hp : g.Paced) (hg : Formed g.outlines) {i : NodeId}
    {n m : Node} {limit : Nat} (hn : g.node? i = some n) (hm : m ∈ g.candidates limit n) :
    m.awaiting = false := by
  have hlive : m ∈ g.liveBefore limit n := List.mem_of_mem_filter hm
  have hself : g.node? n.uid = some n := by
    rw [hg.uid_node hn]
    exact hn
  by_contra hwait
  have hpend := (hp.awaiting_iff (mem_liveBefore hg hlive).1).mp (by simpa using hwait)
  exact hp.last hpend (precedes_of_mem_liveBefore hg hself hlive)

/-- A result that arrives ends one wait, and stays. -/
theorem Consistent.completed (hg : g.Consistent) {uid : NodeId} {n : Node} {opcode : Opcode}
    (huid : uid ∈ g.pending) (hn : g.node? uid = some n) (ho : n.is opcode = true) (result : Value)
    (state : Option String) :
    let g' := (((g.unpend uid).update uid
      (supply host.options opcode result state)).runEdgeSearch host uid).value
    g'.pending = g.pending.filter (· ≠ uid) ∧
      ∃ m, g'.node? uid = some m ∧ m.awaiting = false ∧
        m.output = some (host.options.datum uid .result result) := by
  intro g'
  have hsupply : g.Moves host _ := .supply huid hn ho result state
  have hg₁ := hg.moves hsupply
  have hsearched := searched_runEdgeSearch host hg₁.causal.formed uid
  have hn₁ : ((g.unpend uid).update uid (supply host.options opcode result state)).node? uid =
      some (supply host.options opcode result state { n with awaiting := false }) := by
    apply node?_update_self
    rw [node?_unpend, if_pos rfl, hn]
    rfl
  obtain ⟨m, hm, hevolves⟩ := Extends.searched hg₁.causal.formed hsearched hn₁
  refine ⟨hsearched.pending hg₁.causal.formed (by simp [unpend]), m, hm, ?_, ?_⟩
  · by_contra hwait
    cases hevolves.awaiting (by simpa using hwait)
  · rcases hevolves.output with hsame | ⟨-, hwait, -⟩
    · rw [hsame, ← hg.causal.formed.uid_node hn]
      rfl
    · cases hwait

/-- A node that has just been made has no result. -/
theorem Consistent.output_of_add (hg : g.Consistent) {a : Arrival} {uid i : NodeId} {m : Node}
    (h : (g.add host a).value = (.ok uid, g')) (hi : g.node? i = none)
    (hm : g'.node? i = some m) : m.output = none := by
  obtain ⟨category, -, -, rfl⟩ := add_cases h
  have hready := hg.becomes (becomes_readyFor host hg.causal a)
  have hs := hg.causal.sentinels?_readyFor host a
  obtain ⟨-, -, hx⟩ := hready.1.causal.formed.of_sentinels? hs
  have hexit := size_outlines (g.readyFor host a).1 ▸ (Array.getElem?_eq_some_iff.mp hx).1
  have hformed := (hready.1.causal.arrive (o := host.options) hs category).formed
  have hsentinel : ∀ k, (g.readyFor host a).1.node? i = some k → k.output = none ∧
      k.awaiting = false := by
    intro k hk
    rcases node?_withFunction hk with hk | ⟨-, kind, -, rfl⟩
    · have hlt := lt_size_of_node? hk
      rw [← size_outlines, outlines_flushWhere host _ hg.causal.formed, size_outlines] at hlt
      obtain ⟨n, hn⟩ := exists_node?_of_lt hlt
      cases hi.symm.trans hn
    · exact ⟨rfl, rfl⟩
  generalize hnew : (g.readyFor host a).1.nodeOf host.options (g.readyFor host a).2 a category = n
  have harrived : ∀ k, ((g.readyFor host a).1.arrive n (g.readyFor host a).2.exit).node? i =
      some k → k.output = none ∧ (n.awaiting = false → k.awaiting = false) := by
    intro k hk
    rw [node?_arrive hexit] at hk
    split_ifs at hk with hsize hat
    · cases hk
      exact ⟨hnew ▸ rfl, id⟩
    · obtain ⟨k', hk', rfl⟩ := Option.map_eq_some_iff.mp hk
      exact ⟨(hsentinel k' hk').1, fun _ => (hsentinel k' hk').2⟩
    · exact ⟨(hsentinel k hk).1, fun _ => (hsentinel k hk).2⟩
  rcases receive_cases host a category (g.readyFor host a).1 (g.readyFor host a).2 with
    heq | ⟨hwait, heq⟩
  · rw [heq, hnew] at hm
    exact (harrived m hm).1
  · rw [hnew] at hwait heq hformed
    rw [heq] at hm
    have hsearched := searched_runEdgeSearch host hformed (g.readyFor host a).1.size
    have hlt := lt_size_of_node? hm
    rw [← size_outlines, hsearched.outlines hformed, size_outlines] at hlt
    obtain ⟨k, hk⟩ := exists_node?_of_lt hlt
    obtain ⟨m', hm', hevolves⟩ := Extends.searched hformed hsearched hk
    rw [hm] at hm'
    cases hm'
    rcases hevolves.output with hsame | ⟨-, hk', -⟩
    · exact hsame.trans (harrived k hk).1
    · cases ((harrived k hk).2 hwait).symm.trans hk'

end Graph

namespace Analysis

open OperandFlow.Graph

/-- Nodes are never taken out. Each keeps its place and identity, is removed at most once, and
gets its result at most once, while it is live and waits for it. Slots only become fewer, and
every function has its two sentinels for good. -/
theorem nodes_persist (host : Host) (front back : List Action) (hback : .reset ∉ back) :
    let s := (start host).performAll front
    let t := s.performAll back
    s.graph.size ≤ t.graph.size ∧
    (∀ i n, s.graph.node? i = some n →
      ∃ m, t.graph.node? i = some m ∧ n.Evolves m ∧ m.slots.length ≤ n.slots.length) ∧
    (∀ i m, t.graph.node? i = some m → m.uid = i ∧ 1 ≤ m.slots.length ∧
      (m.opcode?.any Opcode.isStorage = true → m.slots.length = 2) ∧
      ∃ e p q, t.graph.node? e = some p ∧ p.kind = .entry ∧ p.function = m.function ∧
        t.graph.node? (e + 1) = some q ∧ q.kind = .exit ∧ q.function = m.function ∧
        ∀ j k, t.graph.node? j = some k → k.function = m.function → (k.kind = .entry → j = e) ∧
          (k.kind = .exit → j = e + 1) ∧ (k.isSentinel = false → e + 1 < j)) ∧
    (∀ a i m, t.graph.node? i = none → (t.add a).2.graph.node? i = some m → m.output = none) := by
  intro s t
  have hs : s.graph.Consistent := consistent_performAll host front
  have ht : t.graph.Consistent := by
    have hall : t = (start host).performAll (front ++ back) := List.foldl_append.symm
    exact hall ▸ consistent_performAll host (front ++ back)
  have hext : s.graph.Extends t.graph := extends_performAll hs hback
  refine ⟨hext.size_le, ?_, ?_, ?_⟩
  · intro i n hn
    obtain ⟨m, hm, hevolves⟩ := hext hn
    exact ⟨m, hm, hevolves, hevolves.length_slots_le⟩
  · intro i m hm
    obtain ⟨n, hbegins, hevolves⟩ := ht.evolved hm
    exact ⟨ht.causal.formed.uid_node hm, hevolves.slots_pos hbegins,
      hevolves.slots_storage hbegins, sentinels_of_node? ht.causal.formed hm⟩
  · intro a i m hi hm
    obtain hgraph | ⟨uid, hvalue⟩ : (t.add a).2.graph = _ ∨ _ := t.change_cases add_of_error
    · rw [hgraph, hi] at hm
      cases hm
    · exact ht.output_of_add hvalue hi hm

/-- The caller is made known and removed later. -/
theorem nodes_persist_storeOfCaller :
    let s := (start ⟨{}, .text, 0⟩).performAll (storeOfCaller.take 1)
    let t := s.performAll (storeOfCaller.drop 1 ++ [.remove 2])
    .reset ∉ storeOfCaller.drop 1 ++ [.remove 2] ∧ s.graph.size ≤ t.graph.size ∧
      ∃ n m, s.graph.node? 2 = some n ∧ t.graph.node? 2 = some m ∧ n.Evolves m ∧
        n.awaiting = true ∧ n.output = none ∧ m.output.isSome = true ∧ m.isDeleted = true := by
  intro s t
  have hback : .reset ∉ storeOfCaller.drop 1 ++ [.remove 2] := by simp [storeOfCaller]
  have hpersist := nodes_persist ⟨{}, .text, 0⟩ (storeOfCaller.take 1)
    (storeOfCaller.drop 1 ++ [.remove 2]) hback
  have hbefore : (s.graph.node? 2).any fun n => n.awaiting && n.output.isNone := by decide +kernel
  have hafter : (t.graph.node? 2).any fun m => m.output.isSome && m.isDeleted := by decide +kernel
  obtain ⟨n, hn, hwait⟩ := (Option.any_eq_true ..).mp hbefore
  obtain ⟨m, hm, hdone⟩ := (Option.any_eq_true ..).mp hafter
  obtain ⟨m', hm', hevolves, -⟩ := hpersist.2.1 2 n hn
  rw [hm] at hm'
  cases hm'
  rw [Bool.and_eq_true] at hwait hdone
  exact ⟨hback, hpersist.1, n, m, hn, hm, hevolves, hwait.1, Option.isNone_iff_eq_none.mp hwait.2,
    hdone⟩

/-- The nodes that wait for a result are live, listed in their order, and the newest of their
calls. So no candidate waits, and a result goes to the newest node that waits for it, or nowhere. -/
theorem waits_listed (host : Host) (actions : List Action) :
    let s := (start host).performAll actions
    let g := s.graph
    g.pending.Pairwise (· < ·) ∧
    (∀ i, i ∈ g.pending ↔ ∃ n, g.node? i = some n ∧ n.awaiting = true) ∧
    (∀ i n, g.node? i = some n → n.awaiting = true →
      n.isDeleted = false ∧ n.opcode?.any Opcode.reportsResult = true ∧ n.output = none ∧
      ∀ j m, g.node? j = some m → m.function = n.function → m.tx? = n.tx? →
        j ≤ i ∧ (m.awaiting = true → j = i)) ∧
    (∀ limit i n, g.node? i = some n → ∀ m ∈ g.candidates limit n, m.awaiting = false) ∧
    (∀ function opcode result state,
      let r := s.complete function opcode result state
      ((∃ uid, r.1 = .ok uid) ↔ ∃ i, g.WaitsFor function opcode i) ∧
      ∀ uid, r.1 = .ok uid → g.WaitsFor function opcode uid ∧
        (∀ i, g.WaitsFor function opcode i → i ≤ uid) ∧
        r.2.graph.pending = g.pending.filter (· ≠ uid) ∧
        ∃ m, r.2.graph.node? uid = some m ∧ m.awaiting = false ∧
          m.output = some (s.host.options.datum uid .result result)) := by
  intro s g
  have hg : g.Consistent := consistent_performAll host actions
  have hformed := hg.causal.formed
  refine ⟨hg.paced.increasing, ?_, ?_, ?_, ?_⟩
  · intro i
    constructor
    · intro hi
      obtain ⟨n, hn, -⟩ := hg.paced.live hi
      exact ⟨n, hn, (hg.paced.awaiting_iff hn).mpr hi⟩
    · rintro ⟨n, hn, hwait⟩
      exact (hg.paced.awaiting_iff hn).mp hwait
  · intro i n hn hwait
    have hi := (hg.paced.awaiting_iff hn).mp hwait
    obtain ⟨hlive, -, hnone⟩ := hg.of_pending hn hi
    obtain ⟨k, hbegins, hevolves⟩ := hg.evolved hn
    refine ⟨hlive, hevolves.reportsResult hbegins hwait, hnone, ?_⟩
    intro j m hm hfun htx
    have hle := hg.paced.newest hformed hi hn hm hfun htx
    refine ⟨hle, fun hwait' => Nat.le_antisymm hle ?_⟩
    exact hg.paced.newest hformed ((hg.paced.awaiting_iff hm).mp hwait') hm hn hfun.symm htx.symm
  · intro limit i n hn m hm
    exact hg.paced.not_awaiting_of_candidate hformed hn hm
  · intro function opcode result state r
    have hvalue := g.complete_value s.host function opcode result state
    rcases hg.paced.awaiting?_cases function opcode with ⟨hnone, hnot⟩ | ⟨uid, hsome, hwaits, hmax⟩
    · rw [hnone] at hvalue
      have hr : r.1 = .error (.noPendingNode function opcode) := (s.change_of_value hvalue).1
      simp [hr, hnot]
    · rw [hsome] at hvalue
      obtain ⟨hr, hgraph⟩ : r.1 = .ok uid ∧ r.2.graph = _ := s.change_of_value hvalue
      refine ⟨⟨fun _ => ⟨uid, hwaits⟩, fun _ => ⟨uid, hr⟩⟩, ?_⟩
      intro uid' huid'
      rw [hr] at huid'
      cases huid'
      obtain ⟨hpend, n, hn, -, ho⟩ := id hwaits
      rw [hgraph]
      exact ⟨hwaits, hmax, hg.completed hpend hn (decide_eq_true ho) result state⟩

/-- Two calls of a function ask who called them. -/
def twoCallers : List Action :=
  [.pre ⟨"f", 0, "CALLER", 0, [], none, none⟩ none,
    .pre ⟨"f", 1, "CALLER", 0, [], none, none⟩ none]

theorem waits_listed_twoCallers :
    let s := (start ⟨{}, .text, 0⟩).performAll twoCallers
    let r := s.complete "f" .caller ⟨256, "caller"⟩ none
    s.graph.pending = [2, 3] ∧ s.graph.pending.Pairwise (· < ·) ∧ r.1 = .ok 3 ∧
      s.graph.WaitsFor "f" .caller 3 ∧ (∀ i, s.graph.WaitsFor "f" .caller i → i ≤ 3) ∧
      r.2.graph.pending = [2] := by
  intro s r
  obtain ⟨hsorted, -, -, -, hcomplete⟩ := waits_listed ⟨{}, .text, 0⟩ twoCallers
  have hpending : s.graph.pending = [2, 3] := by decide +kernel
  have hr : r.1 = .ok 3 := by decide +kernel
  obtain ⟨hwaits, hmax, hrest, -⟩ := (hcomplete "f" .caller ⟨256, "caller"⟩ none).2 3 hr
  have hleft : r.2.graph.pending = [2] := by
    rw [hrest, hpending]
    rfl
  exact ⟨hpending, hsorted, hr, hwaits, hmax, hleft⟩

end Analysis
end OperandFlow
