import OperandFlow.Proofs.Graph.Blocks
import OperandFlow.Proofs.Graph.Wiring

/-! The chain of block leaders. The walk back from an instruction goes down through jump
destinations and conditional jumps of its call until it comes to the entry of the function, and the
walks of all that it passes are parts of it. -/
namespace OperandFlow

/-- Exactly the jump destinations lead their own block. -/
def Heads (os : Outlines) : Prop :=
  ∀ ⦃i : NodeId⦄ ⦃o : Outline⦄, os[i]? = some o → (o.leader? = some i ↔ o.opcode? = some .jumpdest)

namespace Graph

theorem Consistent.heads_moves {host : Host} {g g' : Graph} (hc : g.Consistent)
    (hg : Heads g.outlines) (h : g.Moves host g') : Heads g'.outlines := by
  cases h with
  | search h => exact h.outlines hc.causal.formed ▸ hg
  | unpend uid => exact outlines_unpend g uid ▸ hg
  | supply =>
    rw [outlines_update (by intro m _; rfl), outlines_unpend]
    exact hg
  | withFunction function =>
    intro i o ho
    obtain ⟨n, hn, rfl⟩ := node?_of_outlines ho
    rcases node?_withFunction hn with hn | ⟨-, kind, -, rfl⟩
    · exact hg (outlines_of_node? hn)
    · exact ⟨nofun, nofun⟩
  | arrive category hs hfree =>
    rw [outlines_arrive]
    intro i o ho
    rw [Array.getElem?_push] at ho
    split_ifs at ho with hi
    · cases ho
      rw [hi, size_outlines]
      refine (leader_nodeOf hc.causal.formed hs host.options category).trans ?_
      exact Option.some_inj.symm
    · exact hg ho

/-- Every instruction knows the leader of its block. -/
structure Blocked (g : Graph) : Prop where
  causal : g.Causal
  led : Led g.outlines
  heads : Heads g.outlines

/-- The node `l` may lead a block of the call that `n` belongs to. -/
def LeadsIn (g : Graph) (entry : NodeId) (n : Node) (l : NodeId) : Prop :=
  l = entry ∨ ∃ m, g.node? l = some m ∧ (m.is .jumpdest = true ∨ m.is .jumpi = true) ∧
    m.function = n.function ∧ m.tx? = n.tx?

/-- The conditional jump `p` ended the block of `next` in the call of `n`. -/
structure TakenIn (g : Graph) (n : Node) (next p : NodeId) : Prop where
  lt : next < p
  jump : ∃ m, g.node? p = some m ∧ m.is .jumpi = true ∧ m.function = n.function ∧
    m.tx? = n.tx? ∧ m.leader? = some next

/-- The blocks of a call up to the one that the last of the chain leads. -/
structure IsChain (g : Graph) (entry : NodeId) (n : Node) (chain : List NodeId) : Prop where
  increasing : chain.Pairwise (· < ·)
  head : chain.head? = some entry
  leads : ∀ l ∈ chain, g.LeadsIn entry n l
  /-- No step back is refused for going up. -/
  back : ∀ l ∈ chain, ∀ next, (g.stepBack (some entry) l).1 = some next → next ∈ chain ∧ next < l
  front : ∀ l ∈ chain, l ≠ entry → ∃ front, g.leaderChain l = .ok front ∧ front <+: chain

theorem LeadsIn.congr {g : Graph} {entry l : NodeId} {n m : Node} (h : g.LeadsIn entry m l)
    (hfun : m.function = n.function) (htx : m.tx? = n.tx?) : g.LeadsIn entry n l := by
  rcases h with rfl | ⟨k, hk, hstarts, hkfun, hktx⟩
  · exact Or.inl rfl
  · exact Or.inr ⟨k, hk, hstarts, hkfun.trans hfun, hktx.trans htx⟩

namespace IsChain

variable {g : Graph} {entry l : NodeId} {n : Node} {chain : List NodeId}

theorem start {e : Node} (he : g.node? entry = some e) (hentry : e.isEntry = true) (n : Node) :
    g.IsChain entry n [entry] where
  increasing := List.pairwise_singleton _ _
  head := rfl
  leads := fun l hl => Or.inl (List.mem_singleton.mp hl)
  back := by
    intro l hl next hnext
    obtain rfl := List.mem_singleton.mp hl
    simp [stepBack, he, hentry] at hnext
  front := fun l hl hne => absurd (List.mem_singleton.mp hl) hne

/-- A chain goes on with a later leader that leads back into it. -/
theorem concat (h : g.IsChain entry n chain) (hlt : ∀ k ∈ chain, k < l)
    (hl : g.LeadsIn entry n l) {next : NodeId} (hback : (g.stepBack (some entry) l).1 = some next)
    (hnext : next ∈ chain) {front : List NodeId} (hfront : g.leaderChain l = .ok front)
    (hpart : front <+: chain ++ [l]) : g.IsChain entry n (chain ++ [l]) where
  increasing := List.pairwise_append.mpr ⟨h.increasing, List.pairwise_singleton _ _,
    fun k hk m hm => List.mem_singleton.mp hm ▸ hlt k hk⟩
  head := by
    rw [List.head?_append, h.head]
    rfl
  leads := by
    intro k hk
    obtain hk | rfl : k ∈ chain ∨ k = l := by simpa using hk
    · exact h.leads k hk
    · exact hl
  back := by
    intro k hk next' hnext'
    obtain hk | rfl : k ∈ chain ∨ k = l := by simpa using hk
    · obtain ⟨hmem, hlt'⟩ := h.back k hk next' hnext'
      exact ⟨List.mem_append_left _ hmem, hlt'⟩
    · obtain rfl := Option.some.inj (hback.symm.trans hnext')
      exact ⟨List.mem_append_left _ hnext, hlt _ hnext⟩
  front := by
    intro k hk hne
    obtain hk | rfl : k ∈ chain ∨ k = l := by simpa using hk
    · obtain ⟨earlier, hok, hearlier⟩ := h.front k hk hne
      exact ⟨earlier, hok, hearlier.trans (List.prefix_append _ _)⟩
    · exact ⟨front, hfront, hpart⟩

end IsChain

/-- What precedes a node is the entry of its function or an earlier instruction of its call. -/
theorem precedes_cases {g : Graph} (hg : Formed g.outlines) {s : Sentinels} {p i : NodeId}
    {n : Node} (hn : g.node? i = some n) (hs : g.sentinels? n.function = some s)
    (h : Precedes g.outlines p i) :
    ∃ m, g.node? p = some m ∧ (m.isEntry = true ∧ p = s.entry ∨
      m.isEntry = false ∧ m.instruction ≠ none ∧ m.function = n.function ∧ m.tx? = n.tx?) := by
  obtain ⟨-, o, q, ho, hq, hfun, hexit, -, htrace⟩ := h
  rw [outlines_of_node? hn] at hq
  cases hq
  obtain ⟨m, hm, rfl⟩ := node?_of_outlines ho
  refine ⟨m, hm, ?_⟩
  by_cases hentry : m.isEntry = true
  · obtain ⟨-, he, -⟩ := hg.of_sentinels? hs
    exact Or.inl ⟨hentry, hg.entry_unique ho he hentry rfl hfun⟩
  · refine Or.inr ⟨Bool.eq_false_iff.mpr hentry, ?_, hfun, htrace.resolve_left hentry⟩
    intro hnone
    rcases (hg.bare_iff ho).mp hnone with h | h
    · exact hentry h
    · cases h.symm.trans hexit

theorem leaderChain_of_sentinels? {g : Graph} {s : Sentinels} {i l : NodeId} {n : Node}
    (hn : g.node? i = some n) (hl : n.leader? = some l) (hs : g.sentinels? n.function = some s) :
    g.leaderChain i = .ok (g.chainTo (some s.entry) l) := by
  rw [leaderChain_of_leader hn hl, boundaries?_of_node? hn, hs, Option.map_some]

namespace Blocked

variable {g : Graph} (hg : g.Blocked) {s : Sentinels} {i l : NodeId} {n m : Node}
include hg

/-- A jump destination leads its own block, and any other instruction is led by an earlier node of
its call. -/
theorem leader_cases (hn : g.node? i = some n) (hinstr : n.instruction ≠ none)
    (hs : g.sentinels? n.function = some s) :
    ∃ l, n.leader? = some l ∧ g.LeadsIn s.entry n l ∧
      (n.is .jumpdest = true ∧ l = i ∨ n.is .jumpdest = false ∧ l < i) := by
  obtain ⟨x, hx⟩ := Option.ne_none_iff_exists'.mp hinstr
  have hl : n.leader? = some x.leader := by rw [Node.leader?, hx, Option.map_some]
  have hself : x.leader = i ↔ n.is .jumpdest = true := by
    rw [← Option.some_inj, ← hl]
    exact (hg.heads (outlines_of_node? hn)).trans decide_eq_true_iff.symm
  refine ⟨x.leader, hl, ?_⟩
  rcases hg.causal.formed.leader (outlines_of_node? hn) hx with heq | hprec
  · have hdest := hself.mp heq
    rw [heq]
    exact ⟨Or.inr ⟨n, hn, Or.inl hdest, rfl, rfl⟩, Or.inl ⟨hdest, rfl⟩⟩
  · have hne : x.leader ≠ i := Nat.ne_of_lt hprec.1
    refine ⟨?_, Or.inr ⟨Bool.eq_false_iff.mpr fun h => hne (hself.mpr h), hprec.1⟩⟩
    obtain ⟨m, hm, ⟨-, heq⟩ | ⟨hentry, -, hfun, htx⟩⟩ :=
      precedes_cases hg.causal.formed hn hs hprec
    · exact Or.inl heq
    · obtain ⟨p, hp, hleads⟩ := hg.led (outlines_of_node? hn) hl hne
      rw [outlines_of_node? hm] at hp
      cases hp
      have hstarts := hleads.resolve_left (Bool.eq_false_iff.mp hentry)
      exact Or.inr ⟨m, hm, hstarts.imp decide_eq_true_iff.mpr decide_eq_true_iff.mpr, hfun, htx⟩

/-- A jump destination is entered from the end of an earlier block of its call. -/
theorem stepBack_of_jumpdest (hm : g.node? l = some m) (hdest : m.is .jumpdest = true)
    (hs : g.sentinels? m.function = some s) :
    ∃ next taken, g.stepBack (some s.entry) l = (some next, taken) ∧ next < l ∧
      g.LeadsIn s.entry m next ∧ (taken = [] ∨ ∃ p, taken = [p] ∧ p < l ∧ g.TakenIn m next p) := by
  have hformed := hg.causal.formed
  have hinstr := Node.instruction_ne_none_of_is hdest
  have hlt : s.entry < l := by
    obtain ⟨e, hle, hse, he, -⟩ := hformed.boundaries hm
    rw [hs] at hse
    cases hse
    refine Nat.lt_of_le_of_ne hle ?_
    rintro rfl
    rw [outlines_of_node? hm] at he
    exact hinstr (congrArg Outline.instruction (Option.some.inj he))
  unfold stepBack
  simp only [hm, hformed.isEntry_eq_false hm hinstr, hdest, Bool.false_eq_true, if_false, if_true]
  cases hpreds : m.predsAt 0 with
  | nil => exact ⟨s.entry, [], rfl, hlt, Or.inl rfl, Or.inl rfl⟩
  | cons p rest =>
    have hfed : m.FedBy p := Node.fedBy_of_mem_predsAt (by rw [hpreds]; exact List.mem_cons_self)
    have hprec := hg.causal.precedes_of_fedBy hm hinstr hfed
    obtain ⟨k, hk, ⟨hentry, rfl⟩ | ⟨hentry, hkinstr, hfun, htx⟩⟩ :=
      precedes_cases hformed hm hs hprec
    · exact ⟨s.entry, [], by simp [hk, hentry], hlt, Or.inl rfl, Or.inl rfl⟩
    · obtain ⟨next, hnext, hleads, hcases⟩ := hg.leader_cases hk hkinstr (hfun ▸ hs)
      have hle : next ≤ p := by
        rcases hcases with ⟨-, rfl⟩ | ⟨-, hlt'⟩
        · exact Nat.le_refl _
        · exact Nat.le_of_lt hlt'
      refine ⟨next, if k.is .jumpi then [p] else [], by simp [hk, hentry, hnext],
        Nat.lt_of_le_of_lt hle hprec.1, hleads.congr hfun htx, ?_⟩
      by_cases hjumpi : k.is .jumpi = true
      · -- a conditional jump is no leader of its own block
        have hlt' : next < p := by
          rcases hcases with ⟨hdest', -⟩ | ⟨-, hlt'⟩
          · simp_all [Node.is]
          · exact hlt'
        exact Or.inr ⟨p, if_pos hjumpi, hprec.1, hlt', k, hk, hjumpi, hfun, htx, hnext⟩
      · exact Or.inl (if_neg hjumpi)

/-- A step back from a leader other than the entry. -/
theorem stepBack_cases (hs : g.sentinels? n.function = some s) (hl : g.LeadsIn s.entry n l)
    (hne : l ≠ s.entry) :
    ∃ next taken, g.stepBack (some s.entry) l = (some next, taken) ∧ next < l ∧
      g.LeadsIn s.entry n next ∧
      (taken = [] ∨ ∃ p, taken = [p] ∧ p < l ∧ g.TakenIn n next p) ∧
      (g.TakenIn n next l ∨ ∃ m, g.node? l = some m ∧ m.leader? = some l ∧
        m.function = n.function) := by
  obtain ⟨m, hm, hstarts, hfun, htx⟩ := hl.resolve_left hne
  rw [← hfun] at hs
  by_cases hdest : m.is .jumpdest = true
  · obtain ⟨next, taken, hstep, hlt, hnext, htaken⟩ := hg.stepBack_of_jumpdest hm hdest hs
    refine ⟨next, taken, hstep, hlt, hnext.congr hfun htx, htaken.imp_right ?_,
      Or.inr ⟨m, hm, ?_, hfun⟩⟩
    · rintro ⟨p, rfl, hp, hlt', k, hk, hjumpi, hkfun, hktx, hkl⟩
      exact ⟨p, rfl, hp, hlt', k, hk, hjumpi, hkfun.trans hfun, hktx.trans htx, hkl⟩
    · exact (hg.heads (outlines_of_node? hm)).mpr (of_decide_eq_true hdest)
  · have hjumpi := hstarts.resolve_left hdest
    have hinstr := Node.instruction_ne_none_of_is hjumpi
    obtain ⟨next, hnext, hleads, ⟨hdest', -⟩ | ⟨-, hlt⟩⟩ := hg.leader_cases hm hinstr hs
    · exact absurd hdest' hdest
    · refine ⟨next, [], ?_, hlt, hleads.congr hfun htx, Or.inl rfl,
        Or.inl ⟨hlt, m, hm, hjumpi, hfun, htx, hnext⟩⟩
      simp [stepBack, hm, hg.causal.formed.isEntry_eq_false hm hinstr, hdest, hnext]

/-- A conditional jump has the chain of the block that it ended. -/
theorem leaderChain_of_takenIn {next p : NodeId} (hs : g.sentinels? n.function = some s)
    (h : g.TakenIn n next p) : g.stepBack (some s.entry) p = (some next, []) ∧
      g.leaderChain p = .ok (g.chainTo (some s.entry) next) := by
  obtain ⟨m, hm, hjumpi, hfun, -, hl⟩ := h.jump
  have hentry := hg.causal.formed.isEntry_eq_false hm (Node.instruction_ne_none_of_is hjumpi)
  have hdest : m.is .jumpdest = false := by simp_all [Node.is]
  refine ⟨?_, leaderChain_of_sentinels? hm hl (hfun ▸ hs)⟩
  simp [stepBack, hm, hentry, hdest, hl]

/-- The walk back from any leader ends at the entry. -/
theorem isChain_chainTo (hs : g.sentinels? n.function = some s) (hl : g.LeadsIn s.entry n l) :
    (∀ k ∈ g.chainTo (some s.entry) l, k ≤ l) ∧ l ∈ g.chainTo (some s.entry) l ∧
      g.IsChain s.entry n (g.chainTo (some s.entry) l) := by
  -- by induction on the leader, which goes down with every step
  induction l using Nat.strongRecOn with
  | ind l ih =>
    by_cases hentry : l = s.entry
    · obtain ⟨-, he, -⟩ := hg.causal.formed.of_sentinels? hs
      obtain ⟨e, he, ho⟩ := node?_of_outlines he
      have hstart : e.isEntry = true := congrArg Outline.isEntry ho
      have heq : g.chainTo (some s.entry) l = [s.entry] := by
        rw [chainTo, hentry]
        simp [stepBack, he, hstart]
      rw [heq, hentry]
      exact ⟨by simp, by simp, IsChain.start he hstart n⟩
    · obtain ⟨next, taken, hstep, hlt, hnext, htaken, hself⟩ := hg.stepBack_cases hs hl hentry
      obtain ⟨hle, hlast, hchain⟩ := ih next hlt hnext
      have heq : g.chainTo (some s.entry) l = g.chainTo (some s.entry) next ++ taken ++ [l] := by
        rw [chainTo]
        simp [hstep, hlt]
      -- the conditional jump that was taken, if there is one, comes first
      have hbefore : (∀ k ∈ g.chainTo (some s.entry) next ++ taken, k < l) ∧
          g.IsChain s.entry n (g.chainTo (some s.entry) next ++ taken) := by
        rcases htaken with rfl | ⟨p, rfl, hp, htaken⟩
        · rw [List.append_nil]
          exact ⟨fun k hk => Nat.lt_of_le_of_lt (hle k hk) hlt, hchain⟩
        · obtain ⟨hback, hok⟩ := hg.leaderChain_of_takenIn hs htaken
          have hbelow : ∀ k ∈ g.chainTo (some s.entry) next, k < p :=
            fun k hk => Nat.lt_of_le_of_lt (hle k hk) htaken.lt
          obtain ⟨m, hm, hjumpi, hfun, htx, -⟩ := htaken.jump
          refine ⟨?_, hchain.concat hbelow (Or.inr ⟨m, hm, Or.inr hjumpi, hfun, htx⟩)
            (congrArg Prod.fst hback) hlast hok (List.prefix_append _ _)⟩
          intro k hk
          rcases List.mem_append.mp hk with hk | hk
          · exact Nat.lt_trans (hbelow k hk) hp
          · exact List.mem_singleton.mp hk ▸ hp
      have hfront : ∃ front, g.leaderChain l = .ok front ∧
          front <+: g.chainTo (some s.entry) next ++ taken ++ [l] := by
        rcases hself with hjump | ⟨m, hm, hlead, hfun⟩
        · exact ⟨_, (hg.leaderChain_of_takenIn hs hjump).2,
            List.append_assoc _ taken [l] ▸ List.prefix_append _ _⟩
        · exact ⟨_, leaderChain_of_sentinels? hm hlead (hfun ▸ hs), heq ▸ List.prefix_refl _⟩
      obtain ⟨front, hok, hpart⟩ := hfront
      rw [heq]
      refine ⟨?_, by simp, hbefore.2.concat hbefore.1 hl (congrArg Prod.fst hstep)
        (List.mem_append_left _ hlast) hok hpart⟩
      intro k hk
      rcases List.mem_append.mp hk with hk | hk
      · exact Nat.le_of_lt (hbefore.1 k hk)
      · exact Nat.le_of_eq (List.mem_singleton.mp hk)

end Blocked
end Graph
end OperandFlow
