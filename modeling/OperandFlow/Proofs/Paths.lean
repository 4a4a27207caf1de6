import OperandFlow.Proofs.Graph.Bounds
import OperandFlow.Proofs.Graph.Routes
import OperandFlow.Proofs.Order
import OperandFlow.Proofs.Anomalies

/-! In every session the path to a terminal holds whatever supplies the nodes on it. -/
namespace OperandFlow

section Session

variable {host : Host} {Q : Graph → NodeId → Prop} (hQ : Graph.Upheld host Q)
  (hnew : ∀ {g : Graph} {i : NodeId} {n : Node}, g.node? i = some n → n.Fresh → Q g i)
include hQ hnew

/-- What is upheld holds in every session. -/
theorem Analysis.upheld_performAll {actions : List Action}
    (h : ∀ action ∈ actions, action.isReport = true) :
    ((start host).performAll actions).graph.Coherent ∧
      ∀ i, Q ((start host).performAll actions).graph i := by
  have hrecorded : Graph.Recorded host fun _ => Q :=
    ⟨fun _ => hQ, fun _ h => h, fun _ hn _ _ hfresh _ => hnew hn hfresh⟩
  have hs := upholds_performAll hrecorded h
  exact ⟨hs.coherent, hs.upheld⟩

end Session

namespace Graph

/-- A path through a call of a function. It goes forward from the entry to the terminal, holds
live nodes of the call besides the entry, and holds whatever supplies its nodes. -/
structure IsPath (g : Graph) (function : String) (entry terminal : NodeId)
    (path : List NodeId) : Prop where
  ascending : path.Pairwise (· < ·)
  head : path.head? = some entry
  last : path.getLast? = some terminal
  inner : ∀ i ∈ path, i ≠ entry → ∃ n, g.node? i = some n ∧ n.isDeleted = false ∧
    n.function = function ∧ n.tx? = (g.node? terminal).bind Node.tx?
  closed : ∀ i ∈ path, ∃ n, g.node? i = some n ∧ ∀ slot ∈ n.slots, ∀ p ∈ slot.preds, p ∈ path

theorem squeeze_of_pairwise {path : List NodeId} (h : path.Pairwise (· < ·)) :
    squeeze path = path := by
  induction path with
  | nil => rfl
  | cons a rest ih =>
    cases rest with
    | nil => rfl
    | cons b rest =>
      have hab : a < b := List.rel_of_pairwise_cons h List.mem_cons_self
      rw [squeeze, if_neg (Nat.ne_of_lt hab), ih h.of_cons]

theorem getLast?_of_pairwise {path : List NodeId} {last : NodeId} (h : path.Pairwise (· < ·))
    (hmem : last ∈ path) (hle : ∀ i ∈ path, i ≤ last) : path.getLast? = some last := by
  induction path with
  | nil => cases hmem
  | cons a rest ih =>
    cases rest with
    | nil =>
      rw [List.mem_singleton] at hmem
      rw [hmem, List.getLast?_singleton]
    | cons b rest =>
      have hlast : last ∈ b :: rest := by
        rcases List.mem_cons.mp hmem with rfl | hlast
        · have hlt : last < b := List.rel_of_pairwise_cons h List.mem_cons_self
          exact absurd (hle b (by simp)) (Nat.not_le_of_lt hlt)
        · exact hlast
      rw [List.getLast?_cons_cons]
      exact ih h.of_cons hlast fun i hi => hle i (List.mem_cons_of_mem a hi)

variable {g : Graph} {function : String} {i t : NodeId} {n : Node}

theorem mem_terminals (hg : Formed g.outlines) (h : t ∈ g.terminals function) :
    ∃ n, g.node? t = some n ∧ n.function = function ∧ n.isDeleted = false ∧
      n.instruction ≠ none := by
  unfold terminals at h
  cases hs : g.sentinels? function with
  | none => simp [hs] at h
  | some s =>
    simp only [hs, List.mem_map, List.mem_filter, Bool.and_eq_true, decide_eq_true_eq,
      Bool.not_eq_true'] at h
    obtain ⟨n, ⟨hmem, ⟨⟨hfun, hlive⟩, hop⟩, -⟩, rfl⟩ := h
    obtain ⟨i, hn⟩ := mem_nodes_iff.mp hmem
    rw [hg.uid_node hn]
    refine ⟨n, hn, hfun, hlive, ?_⟩
    intro hnone
    simp [Node.opcode?, hnone] at hop

theorem pairwise_terminals (hg : Formed g.outlines) (function : String) :
    (g.terminals function).Pairwise (· < ·) := by
  unfold terminals
  split
  · exact List.Pairwise.nil
  · exact List.pairwise_map.mpr ((pairwise_uid hg).filter _)

theorem mem_executed (hg : Formed g.outlines) {leaders : List NodeId} :
    i ∈ g.executed n leaders ↔ ∃ m, g.node? i = some m ∧ m.function = n.function ∧
      m.tx? = n.tx? ∧ i ≤ n.uid ∧ m.isDeleted = false ∧
        (i ∈ leaders ∨ ∃ l ∈ leaders, m.leader? = some l) := by
  simp only [executed, Node.sameTrace, List.mem_map, List.mem_filter, Bool.and_eq_true,
    Bool.or_eq_true, decide_eq_true_eq, Bool.not_eq_true', Option.any_eq_true,
    List.contains_iff_mem, mem_nodes_iff]
  constructor
  · rintro ⟨m, ⟨⟨j, hm⟩, ⟨⟨⟨hfun, htx⟩, hle⟩, hlive⟩, hlead⟩, rfl⟩
    rw [← hg.uid_node hm] at hm
    refine ⟨m, hm, hfun.symm, htx.symm, hle, hlive, ?_⟩
    rcases hlead with ⟨l, hl, hmem⟩ | hmem
    · exact Or.inr ⟨l, hmem, hl⟩
    · exact Or.inl hmem
  · rintro ⟨m, hm, hfun, htx, hle, hlive, hlead⟩
    obtain rfl := hg.uid_node hm
    refine ⟨m, ⟨⟨_, hm⟩, ⟨⟨⟨hfun.symm, htx.symm⟩, hle⟩, hlive⟩, ?_⟩, rfl⟩
    rcases hlead with hmem | ⟨l, hmem, hl⟩
    · exact Or.inr hmem
    · exact Or.inl ⟨l, hl, hmem⟩

/-- Nothing supplies an entry. -/
theorem Causal.not_fedBy_entry (hg : g.Causal) {s : Sentinels}
    (hs : g.sentinels? function = some s) :
    ∃ n, g.node? s.entry = some n ∧ ∀ p, ¬ n.FedBy p := by
  obtain ⟨-, he, -⟩ := hg.formed.of_sentinels? hs
  obtain ⟨n, hn, ho⟩ := node?_of_outlines he
  refine ⟨n, hn, ?_⟩
  intro p hp
  have hkind : n.kind = .entry := n.isEntry_iff.mp (congrArg Outline.isEntry ho)
  obtain ⟨-, -, q, -, hq, -, -, hinstr, -⟩ :=
    hg.precedes_of_feeds hn (by simp [hkind]) ⟨n, hn, hp⟩
  rw [he] at hq
  cases hq
  exact hinstr rfl

section Terminal

variable (hg : g.Coherent) (hr : ∀ i, g.Routed i) {s : Sentinels} (hn : g.node? t = some n)
  (hinstr : n.instruction ≠ none) (hs : g.sentinels? n.function = some s)
include hg hinstr hs

theorem pairwise_path (leaders : List NodeId) :
    (s.entry :: g.executed n leaders).Pairwise (· < ·) := by
  have hformed := hg.causal.formed
  rw [List.pairwise_cons]
  constructor
  · intro i hi
    obtain ⟨m, hm, hfun, htx, -⟩ := (mem_executed hformed).mp hi
    obtain ⟨e, hle, hs', he, -⟩ := hformed.boundaries hm
    rw [hfun, hs] at hs'
    cases hs'
    refine Nat.lt_of_le_of_ne hle ?_
    rintro rfl
    rw [outlines_of_node? hm] at he
    have hnone : m.instruction = none := congrArg Outline.instruction (Option.some.inj he)
    exact Node.instruction_ne_none_of_tx? htx hinstr hnone
  · exact List.pairwise_map.mpr ((pairwise_uid hformed).filter _)

include hr hn

/-- The blocks on the way to an instruction end with its own, and are there to be listed. -/
theorem leadersTo_cases : ∃ l, n.leader? = some l ∧ g.IsLeader l ∧
    g.leadersTo t = g.leadersFrom (some s.entry) l ∧
    g.leaderChain t = .ok (g.chainTo (some s.entry) l) ∧
    g.trail? (g.chainTo (some s.entry) l) = some (g.leadersTo t) := by
  obtain ⟨l, hl, hlead, -⟩ := leader_cases hg hr hn hinstr
  have hbounds : (g.boundaries? t).map (·.entry) = some s.entry := by
    rw [boundaries?_of_node? hn, hs, Option.map_some]
  have hto := leadersTo_eq hn hl
  have hchain := leaderChain_of_leader hn hl
  rw [hbounds] at hto hchain
  refine ⟨l, hl, hlead, hto, hchain, ?_⟩
  rw [hto]
  exact (leadersFrom_eq hg hr (isLeader_entry hg.causal.formed hs) hlead).1

theorem mem_executed_self (hlive : n.isDeleted = false) :
    t ∈ g.executed n (g.leadersTo t) := by
  obtain ⟨l, hl, hlead, hto, -⟩ := leadersTo_cases hg hr hn hinstr hs
  have hmem : l ∈ g.leadersTo t :=
    hto ▸ mem_leadersFrom_self hg hr (isLeader_entry hg.causal.formed hs) hlead
  exact (mem_executed hg.causal.formed).mpr
    ⟨n, hn, rfl, rfl, Nat.le_of_eq (hg.causal.formed.uid_node hn).symm, hlive, Or.inr ⟨l, hmem, hl⟩⟩

/-- What supplies a node on the way is the entry or on the way, too. -/
theorem mem_executed_of_fedBy {m : Node} {p : NodeId} (hm : g.node? i = some m)
    (hi : i ∈ g.executed n (g.leadersTo t)) (hp : m.FedBy p) :
    p = s.entry ∨ p ∈ g.executed n (g.leadersTo t) := by
  have hformed := hg.causal.formed
  have hentry := isLeader_entry hformed hs
  obtain ⟨l, -, hlead, hto, -⟩ := leadersTo_cases hg hr hn hinstr hs
  obtain ⟨m', hm', hfun, htx, hle, -, hblock⟩ := (mem_executed hformed).mp hi
  rw [hm] at hm'
  cases hm'
  have hinstr' := Node.instruction_ne_none_of_tx? htx hinstr
  have hprec := hg.causal.precedes_of_fedBy hm hinstr' hp
  -- the node stands in a block on the way, also where it leads one
  obtain ⟨k, hk, hmem⟩ : ∃ k, m.leader? = some k ∧ k ∈ g.leadersFrom (some s.entry) l := by
    rw [hto] at hblock
    rcases hblock with hmem | ⟨k, hmem, hk⟩
    · obtain ⟨k, hk, -⟩ := leader_cases hg hr hm hinstr'
      have hown := leader_mem_leadersFrom hg hr hentry hm hinstr' hk
      exact ⟨k, hk, leadersFrom_subset hg hr hentry hlead hmem hown⟩
    · exact ⟨k, hk, hmem⟩
  have hbounds : (g.boundaries? i).map (·.entry) = some s.entry := by
    rw [boundaries?_of_node? hm, hfun, hs, Option.map_some]
  obtain ⟨q, hq, hway⟩ := onWay_of_fedBy hg hr hentry hm hinstr' hbounds hlead hk hmem hp
  obtain ⟨hlt, q', m', s', hq', hm', hfun', -, hs', hsource⟩ := hg.causal.nodes_of_precedes hprec
  rw [hq] at hq'
  rw [hm] at hm'
  cases hq'
  cases hm'
  rw [hfun, hs] at hs'
  cases hs'
  rcases hsource with hpentry | htx'
  · exact Or.inl hpentry
  · right
    have hq_instr := Node.instruction_ne_none_of_tx? htx' hinstr'
    have hqentry := hformed.isEntry_eq_false hq hq_instr
    rw [hto]
    exact (mem_executed hformed).mpr ⟨q, hq, hfun'.trans hfun, htx'.trans htx,
      Nat.le_of_lt (Nat.lt_of_lt_of_le hlt hle), hg.live_of_feeds hq ⟨m, hm, hp⟩,
      hway.resolve_left (by simp [hqentry])⟩

theorem isPath_executed (hlive : n.isDeleted = false) :
    g.IsPath n.function s.entry t (s.entry :: g.executed n (g.leadersTo t)) where
  ascending := pairwise_path hg hinstr hs _
  head := rfl
  last := by
    have hself := mem_executed_self hg hr hn hinstr hs hlive
    have hpath := pairwise_path hg hinstr hs (g.leadersTo t)
    apply getLast?_of_pairwise hpath (List.mem_cons_of_mem _ hself)
    intro i hi
    rcases List.mem_cons.mp hi with rfl | hi
    · exact Nat.le_of_lt (List.rel_of_pairwise_cons hpath hself)
    · obtain ⟨-, -, -, -, hle, -⟩ := (mem_executed hg.causal.formed).mp hi
      exact hg.causal.formed.uid_node hn ▸ hle
  inner := by
    intro i hi hne
    obtain ⟨m, hm, hfun, htx, -, hlive', -⟩ :=
      (mem_executed hg.causal.formed).mp ((List.mem_cons.mp hi).resolve_left hne)
    exact ⟨m, hm, hlive', hfun, by rw [htx, hn, Option.bind_some]⟩
  closed := by
    intro i hi
    rcases List.mem_cons.mp hi with rfl | hi
    · obtain ⟨m, hm, hunfed⟩ := hg.causal.not_fedBy_entry hs
      exact ⟨m, hm, fun slot hslot p hp => absurd ⟨slot, hslot, hp⟩ (hunfed p)⟩
    · obtain ⟨m, hm, -⟩ := (mem_executed hg.causal.formed).mp hi
      refine ⟨m, hm, ?_⟩
      intro slot hslot p hp
      have hmem := mem_executed_of_fedBy hg hr hn hinstr hs hm hi ⟨slot, hslot, hp⟩
      exact List.mem_cons.mpr hmem

end Terminal

/-- A fresh node is accounted for and was reached as it should. -/
theorem accounts_and_routed_of_fresh {host : Host} (hn : g.node? i = some n) (h : n.Fresh) :
    g.Accounts host (fun _ => True) i ∧ g.Routed i := by
  refine ⟨accounts_of_fresh hn h, ?_⟩
  intro m hm _
  rw [hn] at hm
  cases hm
  exact routes_of_fresh h g

end Graph

/-- A loop that is entered twice and left to store who called, while another call stops. -/
def loopThenStore : List Action :=
  [.pre ⟨"f", 0, "CALLER", 0, [], none, none⟩ none,
    .post ⟨"f", "CALLER", ⟨256, "caller"⟩⟩ none,
    .pre ⟨"f", 0, "JUMPDEST", 1, [], none, none⟩ none,
    .pre ⟨"f", 0, "JUMPI", 2, [⟨256, "1"⟩, ⟨256, "more"⟩], none, none⟩ none,
    .pre ⟨"f", 1, "STOP", 0, [], none, none⟩ none,
    .pre ⟨"f", 0, "JUMPDEST", 1, [], none, none⟩ none,
    .pre ⟨"f", 0, "JUMPI", 2, [⟨256, "1"⟩, ⟨256, "done"⟩], none, none⟩ none,
    .pre ⟨"f", 0, "SSTORE", 3, [⟨256, "0"⟩, ⟨256, "caller"⟩], none, none⟩ none,
    .pre ⟨"f", 0, "STOP", 4, [], none, none⟩ none]

namespace Analysis

/-- After any reports there is one path to each terminal of a function, and no way to one is cut
off. It goes forward from the entry to the terminal through the call of the terminal, and holds
whatever supplies its nodes. -/
theorem paths_closed (host : Host) {actions : List Action}
    (h : ∀ action ∈ actions, action.isReport = true) (function : String) :
    let s := (start host).performAll actions
    (s.paths? function).1 = .ok (s.paths function).1 ∧
    (s.paths function).1.map Prod.fst = s.graph.terminals function ∧
    (s.graph.terminals function).Pairwise (· < ·) ∧
    ∀ t path, (t, path) ∈ (s.paths function).1 →
      (∃ chain leaders, s.graph.leaderChain t = .ok chain ∧ s.graph.trail? chain = some leaders) ∧
      ∃ bounds, s.graph.sentinels? function = some bounds ∧
        s.graph.IsPath function bounds.entry t path := by
  intro s
  obtain ⟨hg, hupheld⟩ := upheld_performAll (Graph.upheld_routed host)
    Graph.accounts_and_routed_of_fresh h
  have hr : ∀ i, s.graph.Routed i := fun i => (hupheld i).2
  have hpaths : (s.paths? function).1 = .ok _ := Graph.paths_value hg.causal.formed function
  have hvalue : (s.paths function).1 = (s.paths? function).1.toOption.getD [] := rfl
  rw [hvalue, hpaths]
  refine ⟨rfl, ?_, Graph.pairwise_terminals hg.causal.formed function, ?_⟩
  · rw [Except.toOption, Option.getD_some, List.map_map]
    exact List.map_id _
  · intro t path hmem
    obtain ⟨t', ht, heq⟩ := List.mem_map.mp hmem
    cases heq
    obtain ⟨n, hn, rfl, hlive, hinstr⟩ := Graph.mem_terminals hg.causal.formed ht
    obtain ⟨e, -, hs, -, -⟩ := hg.causal.formed.boundaries hn
    obtain ⟨l, -, -, -, hchain, htrail⟩ := Graph.leadersTo_cases hg hr hn hinstr hs
    have hpath := Graph.isPath_executed hg hr hn hinstr hs hlive
    refine ⟨⟨_, _, hchain, htrail⟩, _, hs, ?_⟩
    rw [hs, Option.elim_some, hn, Option.map_some, Option.getD_some,
      Graph.squeeze_of_pairwise hpath.ascending]
    exact hpath

theorem paths_closed_loopThenStore :
    (∀ action ∈ loopThenStore, action.isReport = true) ∧
      let s := (start ⟨{}, .text, 0⟩).performAll loopThenStore
      (s.paths? "f").1 = .ok [(5, [0, 5]), (9, [0, 2, 3, 4, 6, 7, 8, 9])] ∧
        s.graph.terminals "f" = [5, 9] ∧
        s.graph.IsPath "f" 0 9 [0, 2, 3, 4, 6, 7, 8, 9] := by
  have hreports : ∀ action ∈ loopThenStore, action.isReport = true := by decide
  refine ⟨hreports, ?_⟩
  intro s
  have hpaths : (s.paths "f").1 = [(5, [0, 5]), (9, [0, 2, 3, 4, 6, 7, 8, 9])] := by decide +kernel
  have hentry : s.graph.sentinels? "f" = some ⟨0, 1⟩ := by decide +kernel
  obtain ⟨hok, hkeys, -, hclosed⟩ := paths_closed ⟨{}, .text, 0⟩ hreports "f"
  obtain ⟨-, bounds, hbounds, hpath⟩ := hclosed 9 [0, 2, 3, 4, 6, 7, 8, 9] (by simp [s, hpaths])
  rw [hentry] at hbounds
  cases hbounds
  rw [hpaths] at hkeys hok
  exact ⟨hok, hkeys.symm, hpath⟩

end Analysis
end OperandFlow
