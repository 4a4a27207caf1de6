import OperandFlow.Proofs.Graph.Skeleton
import OperandFlow.Proofs.Anomalies
import OperandFlow.Proofs.Removal

/-! In every session the skeletons of the functions are trees: what a jump destination, a jump or a
halt hangs on is unique, and the way up ends at the entry, or at a jump that lacks an operand. -/
namespace OperandFlow

open Relation

namespace Graph

/-- The node `p` supplies `i`, and nothing else does. -/
def HangsOn (g : Graph) (i p : NodeId) : Prop :=
  ∃ n, g.node? i = some n ∧ n.sources = [p]

section Tree

variable {lacks : NodeId → Prop} {g : Graph} {i p : NodeId} {n m : Node}

theorem Causal.sources_of_isEntry (hg : g.Causal) (hm : g.node? p = some m)
    (hentry : m.isEntry = true) : m.sources = [] := by
  rw [List.eq_nil_iff_forall_not_mem]
  intro a ha
  have hbare : m.instruction = none :=
    (hg.formed.sentinel_iff hm).mp (by simp_all [Node.isEntry, Node.isSentinel])
  rcases hg.sourced ((feeds_iff hm).mpr (Node.mem_sources.mp ha)) with
    ⟨-, -, q, -, hq, -, -, hinstr, -⟩ | ⟨-, q, -, hq, -, -, hexit⟩
  · rw [outlines_of_node? hm] at hq
    cases hq
    exact hinstr hbare
  · rw [outlines_of_node? hm] at hq
    cases hq
    simp_all [Node.isEntry]

theorem trace_of_precedes (hprec : Precedes g.outlines p i) (hm : g.node? p = some m)
    (hn : g.node? i = some n) :
    m.function = n.function ∧ (m.isEntry = true ∨ m.tx? = n.tx?) := by
  obtain ⟨-, o, q, ho, hq, hfun, -, -, htx⟩ := hprec
  rw [outlines_of_node? hm] at ho
  rw [outlines_of_node? hn] at hq
  cases ho
  cases hq
  exact ⟨hfun, htx⟩

theorem isEntry_eq_false_of_isJump (hg : Formed g.outlines) (hm : g.node? p = some m)
    (hjump : m.isJump = true) : m.isEntry = false := by
  apply hg.isEntry_eq_false hm
  intro hnone
  simp [Node.isJump, Node.opcode?, hnone] at hjump

/-- Of two jump destinations, the later one is not entered from a jump that went to the other. -/
theorem not_flows_later (hg : g.Coherent) (h : ∀ i, g.Framed lacks i) (hm : g.node? p = some m)
    (hjump : m.isJump = true) {a b : NodeId} {k l : Node} (hk : g.node? a = some k)
    (hkdest : k.is .jumpdest = true) (hl : g.node? b = some l) (hlive : l.isDeleted = false)
    (hldest : l.is .jumpdest = true) (ha : a ∈ m.successors) (hb : b ∈ m.successors) :
    ¬ a < b := by
  intro hlt
  have hformed := hg.causal.formed
  have hentry := isEntry_eq_false_of_isJump hformed hm hjump
  have hlinstr := Node.instruction_ne_none_of_is hldest
  have hkfed : k.FedBy p := (feeds_iff hk).mp (hg.agree.mp ((flows_iff hm).mpr ha))
  have hlfed : l.FedBy p := (feeds_iff hl).mp (hg.agree.mp ((flows_iff hm).mpr hb))
  obtain ⟨q, hq, -, m', hm', hsource⟩ := (h b l hl hlinstr hlive).entered hldest
  have hpq : p = q := by simpa [hq] using Node.mem_sources.mpr hlfed
  subst hpq
  rw [hm] at hm'
  cases hm'
  rcases hsource with hsource | hgoes
  · exact absurd (hentry.symm.trans hsource) Bool.false_ne_true
  -- Both are in the call of the jump, so that the earlier one is among those it did not go to.
  have hsame : l.sameTrace k = true := by
    have hk' := trace_of_precedes (hg.causal.precedes_of_fedBy hk
      (Node.instruction_ne_none_of_is hkdest) hkfed) hm hk
    have hl' := trace_of_precedes (hg.causal.precedes_of_fedBy hl hlinstr hlfed) hm hl
    simp only [hentry, Bool.false_eq_true, false_or] at hk' hl'
    simp [Node.sameTrace, ← hk'.1, ← hk'.2, ← hl'.1, ← hl'.2]
  have hprec := precedes_of_sameTrace hformed hl hlinstr hk hlt hsame
  exact hgoes.first a k (hformed.uid_node hl ▸ hprec) hk hkdest (hformed.uid_node hm ▸ hkfed)

/-- What a node of the skeleton hangs on is live, and is the entry or in the skeleton, too. -/
theorem hangs_cases (hg : g.Coherent) (hled : Led g.outlines) (h : ∀ i, g.Framed lacks i)
    (hn : g.node? i = some n) (hlive : n.isDeleted = false)
    (hskeleton : n.is .jumpdest = true ∨ n.endsBlock = true) :
    (n.sources = [] ∧ n.isJump = true ∧ lacks i) ∨
      ∃ p m, n.sources = [p] ∧ Precedes g.outlines p i ∧ g.node? p = some m ∧
        m.isDeleted = false ∧
        (m.isEntry = true ∨ m.is .jumpdest = true ∨ m.endsBlock = true) := by
  have hinstr : n.instruction ≠ none :=
    hskeleton.elim Node.instruction_ne_none_of_is Node.instruction_ne_none_of_endsBlock
  obtain ⟨hentered, hends⟩ := h i n hn hinstr hlive
  have hsource : ∀ {p : NodeId}, n.sources = [p] → n.FedBy p := fun hp =>
    Node.mem_sources.mp (by simp [hp])
  rcases hskeleton with hdest | hend
  · obtain ⟨p, hp, hprec, m, hm, hsource'⟩ := hentered hdest
    refine Or.inr ⟨p, m, hp, hg.causal.formed.uid_node hn ▸ hprec, hm,
      hg.live_of_feeds hm ((feeds_iff hn).mpr (hsource hp)), hsource'.imp_right ?_⟩
    exact fun hgoes => Or.inr (Node.endsBlock_of_isJump hgoes.jump)
  · rcases hends hend with ⟨l, hl, hp⟩ | ⟨hnone, hjump, hlack⟩
    · have hprec := hg.causal.precedes_of_fedBy hn hinstr (hsource hp)
      obtain ⟨o, ho, hstarts⟩ := hled (outlines_of_node? hn) hl (Nat.ne_of_lt hprec.1)
      obtain ⟨m, hm, rfl⟩ := node?_of_outlines ho
      refine Or.inr ⟨l, m, hp, hprec, hm,
        hg.live_of_feeds hm ((feeds_iff hn).mpr (hsource hp)), hstarts.imp_right ?_⟩
      rintro (hdest | hjumpi)
      · exact Or.inl (decide_eq_true hdest)
      · exact Or.inr (Node.endsBlock_of_isJump (Node.isJump_of_is (decide_eq_true hjumpi) rfl))
    · exact Or.inl ⟨hnone, hjump, hg.causal.formed.uid_node hn ▸ hlack⟩

/-- The way up from a node of the skeleton ends at the entry of its function, or at a jump that
lacks an operand. -/
theorem climbs (hg : g.Coherent) (hled : Led g.outlines) (h : ∀ i, g.Framed lacks i)
    (hn : g.node? i = some n) (hlive : n.isDeleted = false)
    (hskeleton : n.is .jumpdest = true ∨ n.endsBlock = true) :
    ∃ root m, ReflTransGen g.HangsOn i root ∧ g.node? root = some m ∧ m.function = n.function ∧
      m.sources = [] ∧ (m.isEntry = true ∨ (m.isJump = true ∧ lacks root)) := by
  induction i using Nat.strongRecOn generalizing n with
  | ind i ih =>
    rcases hangs_cases hg hled h hn hlive hskeleton with
      ⟨hnone, hjump, hlack⟩ | ⟨p, m, hp, hprec, hm, hmlive, hentry | hskeleton⟩
    · exact ⟨i, n, .refl, hn, rfl, hnone, Or.inr ⟨hjump, hlack⟩⟩
    · exact ⟨p, m, .single ⟨n, hn, hp⟩, hm, (trace_of_precedes hprec hm hn).1,
        hg.causal.sources_of_isEntry hm hentry, Or.inl hentry⟩
    · obtain ⟨root, r, hway, hr, hfun, hroot⟩ := ih p hprec.1 hm hmlive hskeleton
      exact ⟨root, r, .head ⟨n, hn, hp⟩ hway, hr, hfun.trans (trace_of_precedes hprec hm hn).1, hroot⟩

end Tree
end Graph

/-- A call jumps on a condition, and another one on a condition that is not reported. -/
def jumpsOfTwoCalls : List Action :=
  [.pre ⟨"f", 0, "JUMPDEST", 0, [], none, none⟩ none,
    .pre ⟨"f", 0, "JUMPI", 1, [⟨256, "5"⟩, ⟨256, "c"⟩], none, none⟩ none,
    .pre ⟨"f", 0, "JUMPDEST", 5, [], none, none⟩ none,
    .pre ⟨"f", 0, "STOP", 6, [], none, none⟩ none,
    .pre ⟨"f", 1, "JUMPI", 1, [⟨256, "5"⟩], none, none⟩ none,
    .pre ⟨"f", 1, "JUMPDEST", 5, [], none, none⟩ none,
    .pre ⟨"f", 1, "STOP", 6, [], none, none⟩ none]

namespace Analysis

open OperandFlow.Graph

/-- After any reports, a jump destination hangs on the entry of its function or on an earlier jump
to it in its call, no jump leads to two destinations, and an instruction that ends a block hangs on
the live leader of the block unless it lacks an operand. So the way up from any of them ends at the
entry, or at a jump that lacks an operand. -/
theorem skeleton_tree (host : Host) (actions : List Action)
    (h : ∀ action ∈ actions, action.isReport = true) :
    let s := (start host).performAll actions
    let g := s.graph
    (∀ i n, g.node? i = some n → n.isDeleted = false → n.is .jumpdest = true →
      ∃ p m, n.sources = [p] ∧ g.node? p = some m ∧ p < i ∧ m.function = n.function ∧
        (m.isEntry = true ∨ (m.isJump = true ∧ m.tx? = n.tx? ∧
          m.destination? = some n.address.toNat))) ∧
    (∀ p m, g.node? p = some m → m.isJump = true → ∀ a ∈ m.successors, ∀ b ∈ m.successors,
      ∀ k l, g.node? a = some k → k.isDeleted = false → k.is .jumpdest = true →
        g.node? b = some l → l.isDeleted = false → l.is .jumpdest = true → a = b) ∧
    (∀ i n, g.node? i = some n → n.isDeleted = false → n.endsBlock = true →
      s.lacksOperand i = false →
      ∃ l m, n.leader? = some l ∧ n.sources = [l] ∧ g.node? l = some m ∧ m.isDeleted = false) ∧
    ∀ i n, g.node? i = some n → n.isDeleted = false →
      n.is .jumpdest = true ∨ n.endsBlock = true →
      ∃ root m, Relation.ReflTransGen g.HangsOn i root ∧ g.node? root = some m ∧
        m.function = n.function ∧ m.sources = [] ∧
        (m.isEntry = true ∨ (m.isJump = true ∧ s.lacksOperand root = true)) := by
  intro s g
  have hs := upholds_performAll (recorded_framed host) h
  have hg : g.Coherent := hs.coherent
  have hframed : ∀ i, g.Framed (fun i => s.lacksOperand i = true) i := fun i => (hs.upheld i).2
  have hled : Led g.outlines := (led_and_wired host actions).1
  refine ⟨?_, ?_, ?_, fun i n hn hlive => climbs hg hled hframed hn hlive⟩
  · intro i n hn hlive hdest
    obtain ⟨p, hp, hprec, m, hm, hsource⟩ :=
      (hframed i n hn (Node.instruction_ne_none_of_is hdest) hlive).entered hdest
    rw [hg.causal.formed.uid_node hn] at hprec
    obtain ⟨hfun, htx⟩ := trace_of_precedes hprec hm hn
    refine ⟨p, m, hp, hm, hprec.1, hfun, hsource.imp_right ?_⟩
    intro hgoes
    have hentry := isEntry_eq_false_of_isJump hg.causal.formed hm hgoes.jump
    exact ⟨hgoes.jump, htx.resolve_left (by simp [hentry]), hgoes.target⟩
  · intro p m hm hjump a ha b hb k l hk hklive hkdest hl hllive hldest
    have hab := not_flows_later hg hframed hm hjump hk hkdest hl hllive hldest ha hb
    have hba := not_flows_later hg hframed hm hjump hl hldest hk hklive hkdest hb ha
    exact Nat.le_antisymm (Nat.not_lt.mp hba) (Nat.not_lt.mp hab)
  · intro i n hn hlive hend hlacks
    have hinstr := Node.instruction_ne_none_of_endsBlock hend
    rcases (hframed i n hn hinstr hlive).led hend with ⟨l, hl, hp⟩ | ⟨-, -, hlack⟩
    · have hfed : n.FedBy l := Node.mem_sources.mp (by simp [hp])
      obtain ⟨m, hm⟩ := exists_node?_of_lt (Nat.lt_trans
        (hg.causal.precedes_of_fedBy hn hinstr hfed).1 (lt_size_of_node? hn))
      exact ⟨l, m, hl, hp, hm, hg.live_of_feeds hm ((feeds_iff hn).mpr hfed)⟩
    · rw [hg.causal.formed.uid_node hn, hlacks] at hlack
      cases hlack

/-- The first call goes up to the entry, and the second one to the jump without its condition. -/
theorem skeleton_tree_jumpsOfTwoCalls :
    (∀ action ∈ jumpsOfTwoCalls, action.isReport = true) ∧
      let s := (start ⟨{}, .text, 0⟩).performAll jumpsOfTwoCalls
      let g := s.graph
      (∃ n p m, g.node? 4 = some n ∧ n.isDeleted = false ∧ n.is .jumpdest = true ∧
        n.sources = [p] ∧ g.node? p = some m ∧ m.isJump = true ∧ m.tx? = n.tx? ∧
        m.destination? = some n.address.toNat ∧ 4 ∈ m.successors ∧
        ∀ b ∈ m.successors, ∀ l, g.node? b = some l → l.isDeleted = false →
          l.is .jumpdest = true → 4 = b) ∧
      (∃ n l m, g.node? 5 = some n ∧ n.isDeleted = false ∧ n.endsBlock = true ∧
        s.lacksOperand 5 = false ∧ n.leader? = some l ∧ n.sources = [l] ∧ g.node? l = some m ∧
        m.isDeleted = false) ∧
      ∃ n root m, g.node? 8 = some n ∧ n.isDeleted = false ∧ n.endsBlock = true ∧
        Relation.ReflTransGen g.HangsOn 8 root ∧ g.node? root = some m ∧ m.sources = [] ∧
        (m.isEntry = true ∨ (m.isJump = true ∧ s.lacksOperand root = true)) := by
  have hreports : ∀ action ∈ jumpsOfTwoCalls, action.isReport = true := by decide
  refine ⟨hreports, ?_⟩
  intro s g
  obtain ⟨hentered, honce, hled, hway⟩ := skeleton_tree ⟨{}, .text, 0⟩ jumpsOfTwoCalls hreports
  have hlacks : s.lacksOperand 5 = false := by
    simp only [s, performAll, jumpsOfTwoCalls, List.foldl_cons, List.foldl_nil, perform,
      lacksOperand_onPre]
    decide +kernel
  have hdest : (g.node? 4).any fun n => !n.isDeleted && n.is .jumpdest && n.sources = [3] := by
    decide +kernel
  have hjump : (g.node? 3).any fun m => !m.isEntry && m.isJump && 4 ∈ m.successors := by
    decide +kernel
  have hhalt : (g.node? 5).any fun n => !n.isDeleted && n.endsBlock := by decide +kernel
  have hlast : (g.node? 8).any fun n => !n.isDeleted && n.endsBlock := by decide +kernel
  simp only [Option.any_eq_true, Bool.and_eq_true, Bool.not_eq_true', decide_eq_true_eq]
    at hdest hjump hhalt hlast
  obtain ⟨n, hn, ⟨hlive, hdest⟩, hsource⟩ := hdest
  obtain ⟨m, hm, ⟨hentry, hjump⟩, hmem⟩ := hjump
  obtain ⟨halt, hhalt, hhlive, hend⟩ := hhalt
  obtain ⟨last, hlast, hllive, hlend⟩ := hlast
  refine ⟨?_, ?_, ?_⟩
  · obtain ⟨p, m', hp, hm', -, -, hfrom⟩ := hentered 4 n hn hlive hdest
    rw [hsource] at hp
    cases hp
    rw [hm] at hm'
    cases hm'
    obtain ⟨-, htx, htarget⟩ := hfrom.resolve_left (by simp [hentry])
    refine ⟨n, 3, m, hn, hlive, hdest, hsource, hm, hjump, htx, htarget, hmem, ?_⟩
    intro b hb l hl hllive hldest
    exact honce 3 m hm hjump 4 hmem b hb n l hn hlive hdest hl hllive hldest
  · obtain ⟨l, k, hl, hsole, hk, hklive⟩ := hled 5 halt hhalt hhlive hend hlacks
    exact ⟨halt, l, k, hhalt, hhlive, hend, hlacks, hl, hsole, hk, hklive⟩
  · obtain ⟨root, r, hclimb, hr, -, hnone, hroot⟩ := hway 8 last hlast hllive (Or.inr hlend)
    exact ⟨last, root, r, hlast, hllive, hlend, hclimb, hr, hnone, hroot⟩

end Analysis
end OperandFlow
