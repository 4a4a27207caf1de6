import OperandFlow.Proofs.Graph.Skeleton

/-! The way to a node: what supplies an instruction stands in a block that was executed before it,
and the executed blocks before a block on the way are on the way, too. -/
namespace OperandFlow

namespace Graph

section Search

variable {host : Host} {g g' : Graph} {n m : Node} {uid p : NodeId}

/-- What supplies a node after it was linked did so before, or is a node it may be linked to. -/
theorem Links.fedBy (h : g.Links n g') (hg : Formed g.outlines) (hn : g.node? n.uid = some n)
    (hinstr : n.instruction ≠ none) (hm : g'.node? n.uid = some m) (hp : m.FedBy p) :
    n.FedBy p ∨ g.MayLink n p := by
  obtain ⟨links, hlinks, rfl⟩ := h
  have key : (g.linkAll n.uid links).outlines = g.outlines ∧
      ∀ m p, (g.linkAll n.uid links).node? n.uid = some m → m.FedBy p →
        n.FedBy p ∨ g.MayLink n p := by
    apply linkAll_induction (P := fun g' => g'.outlines = g.outlines ∧
      ∀ m p, g'.node? n.uid = some m → m.FedBy p → n.FedBy p ∨ g.MayLink n p)
    · refine ⟨rfl, ?_⟩
      intro m p hm hp
      rw [hn] at hm
      cases hm
      exact Or.inl hp
    · intro g' pred slot k s ⟨hout, ih⟩ hl hk _ hne _
      refine ⟨by rw [outlines_connect, hout], ?_⟩
      intro m p hm hp
      have hkinstr : k.instruction ≠ none := by
        have hsame := outlines_of_node? hk
        rw [hout, outlines_of_node? hn] at hsame
        rwa [← k.instruction_outline, ← Option.some.inj hsame]
      obtain ⟨b, hb, hexit, -⟩ := boundaries?_of_instruction (hout ▸ hg) hk hkinstr
      rw [node?_connect_self hk hb hne hexit] at hm
      cases hm
      rcases (k.fedBy_addPred slot pred p).mp hp with hp | ⟨rfl, -⟩
      · exact ih k p hk hp
      · exact Or.inr (hlinks _ hl)
  exact key.2 m p hm hp

theorem not_fedBy_detach (hg : Formed g.outlines) (hn : g.node? uid = some n)
    (hsent : n.isSentinel = false) (hm : (g.detach uid).node? uid = some m) : ¬ m.FedBy p := by
  obtain ⟨k, rfl⟩ := node?_detach hg hn hsent hm
  exact k.not_fedBy_bury p

theorem Searched.fedBy (h : g.Searched uid g') (hg : Formed g.outlines) (hn : g.node? uid = some n)
    (hinstr : n.instruction ≠ none) (hm : g'.node? uid = some m) (hp : m.FedBy p) :
    n.FedBy p ∨ g.MayLink n p := by
  have huid : n.uid = uid := hg.uid_node hn
  subst huid
  cases h with
  | unchanged =>
    rw [hn] at hm
    cases hm
    exact Or.inl hp
  | linked hn' _ _ hlinks =>
    rw [hn] at hn'
    cases hn'
    exact hlinks.fedBy hg hn hinstr hm hp
  | removed hn' _ hsent hlinks =>
    have hout := hlinks.outlines
    obtain ⟨k, hk, -⟩ := node?_of_outlines (hout ▸ outlines_of_node? hn)
    rw [hn] at hn'
    cases hn'
    exact absurd hp (not_fedBy_detach (hout ▸ hg) hk (isSentinel_of_outlines hout hn hk ▸ hsent) hm)
  | collapsed hn' _ _ hlinks hk hs =>
    rw [hn] at hn'
    cases hn'
    rw [node?_update_self hk] at hm
    cases hm
    obtain ⟨t, ht, hp⟩ := hp
    rw [List.mem_singleton] at ht
    subst ht
    exact hlinks.fedBy hg hn hinstr hk ⟨_, List.mem_of_getElem? hs, hp⟩

/-- A jump destination is entered from one node only. -/
theorem predsAt_runEdgeSearch (hg : g.Coherent) (hn : g.node? uid = some n) (hfresh : n.Fresh)
    (hdest : n.is .jumpdest = true) (hm : (g.runEdgeSearch host uid).value.node? uid = some m)
    (hp : m.FedBy p) : m.predsAt 0 = [p] := by
  rcases search_destination hg hn hfresh hdest hm with ⟨k, rfl⟩ | ⟨q, -, rfl⟩
  · exact absurd hp (k.not_fedBy_bury p)
  · have hsingle := hfresh.single _ (hfresh.controlFlow_of_destination hdest)
    obtain ⟨s, hslots, hs⟩ := Node.slots_addPred_zero hsingle hfresh.unlinked q
    have hpq : p = q := by simpa [Node.FedBy, hslots, hs] using hp
    simp [Node.predsAt, hslots, hs, hpq]

end Search

/-- How an instruction was reached: a jump destination leads its own block and is entered from one
node, and what supplies any other instruction lies on the way to it. -/
structure Routes (g : Graph) (n : Node) : Prop where
  leader : n.leader? = some n.uid ↔ n.is .jumpdest = true
  entered : n.is .jumpdest = true → ∀ p, n.FedBy p → n.predsAt 0 = [p]
  supplied : n.is .jumpdest = false → ∀ p, n.FedBy p → g.OnWay n p

def Routed (g : Graph) (i : NodeId) : Prop :=
  ∀ n, g.node? i = some n → n.instruction ≠ none → g.Routes n

section Routed

variable {host : Host} {g g' : Graph} {uid i p : NodeId} {n n' : Node}

theorem routes_of_fresh (h : n.Fresh) (g : Graph) : g.Routes n :=
  ⟨h.leader, fun _ p hp => absurd hp (Node.not_fedBy_of_unlinked h.unlinked p),
    fun _ p hp => absurd hp (Node.not_fedBy_of_unlinked h.unlinked p)⟩

/-- A node on the way stays there. -/
theorem OnWay.touches (hway : g.OnWay n p) (h : g.Touches uid g') (hg : g.Coherent)
    (hg' : Formed g'.outlines) (hn : g.node? i = some n) (hn' : g'.node? i = some n')
    (hinstr : n.instruction ≠ none) (hlead : n.leader? ≠ some i)
    (hprec : Precedes g.outlines p i) : g'.OnWay n' p := by
  have hout := h.outline_eq hn hn'
  have hleader : n'.leader? = n.leader? := congrArg (fun o => o.instruction.map (·.leader)) hout
  rcases hway with hway | ⟨m, hm, hway⟩
  · exact Or.inl (hleader.trans hway)
  · obtain ⟨_, hm'⟩ := h.node?_of_precedes hg hprec hm
    have hleaders : g'.leadersTo n'.uid = g.leadersTo n.uid := by
      rw [hg'.uid_node hn', hg.causal.formed.uid_node hn]
      exact h.leadersTo hg hg' hn hn' hinstr fun hself => absurd hself hlead
    refine Or.inr ⟨_, hm', ?_⟩
    rw [hleaders]
    exact hway

theorem Routed.touches (hold : g.Routed i) (h : g.Touches uid g') (hg : g.Coherent)
    (hg' : Formed g'.outlines) (hi : i ≠ uid) : g'.Routed i := by
  intro m hm hinstr
  obtain ⟨n, successors, hn, hexit, rfl⟩ := h.exists_node? hg' hi hm hinstr
  obtain ⟨hleader, hentered, hsupplied⟩ := hold n hn hinstr
  refine ⟨hleader, hentered, ?_⟩
  intro hdest p hp
  have hlead : n.leader? ≠ some i := by
    intro hself
    have htrue := hleader.mp (hg.causal.formed.uid_node hn ▸ hself)
    exact absurd (hdest.symm.trans htrue) Bool.false_ne_true
  exact (hsupplied hdest p hp).touches h hg hg' hn hm hinstr hlead
    (hg.causal.precedes_of_feeds hn hexit ⟨n, hn, hp⟩)

theorem routed_search (hg : g.Coherent) (hlink : g.Linkable uid)
    (hlast : ∀ b, ¬ Precedes g.outlines uid b) (hn : g.node? uid = some n) (hfresh : n.Fresh) :
    (g.runEdgeSearch host uid).value.Routed uid := by
  have hformed := hg.causal.formed
  have hsearched := searched_runEdgeSearch host hformed uid
  have htouch := Touches.search hg hlink hlast host
  have hg' := hg.searched hlink hsearched
  intro m hm hinstr
  have hout := htouch.outline_eq hn hm
  have hinstr' : m.instruction = n.instruction := congrArg Outline.instruction hout
  have huid : n.uid = uid := hformed.uid_node hn
  have his : m.is .jumpdest = n.is .jumpdest := by
    unfold Node.is Node.opcode?
    rw [hinstr']
  constructor
  · rw [Node.leader?, hinstr', his, hg'.causal.formed.uid_node hm, ← huid]
    exact hfresh.leader
  · intro hdest p hp
    exact predsAt_runEdgeSearch hg hn hfresh (his ▸ hdest) hm hp
  · intro hdest p hp
    have hlead : n.leader? ≠ some uid := by
      intro hself
      rw [his, hfresh.leader.mp (huid ▸ hself)] at hdest
      cases hdest
    rcases hsearched.fedBy hformed hn (hinstr' ▸ hinstr) hm hp with hfed | ⟨hprec, -, hway⟩
    · exact absurd hfed (Node.not_fedBy_of_unlinked hfresh.unlinked p)
    · rcases hway with hdest' | hway
      · rw [his, hdest'] at hdest
        cases hdest
      · exact hway.touches htouch hg hg'.causal.formed hn hm (hinstr' ▸ hinstr) hlead (huid ▸ hprec)

/-- Waiting nodes are fresh, and all are reached as they should. -/
theorem upheld_routed (host : Host) :
    Upheld host fun g i => g.Accounts host (fun _ => True) i ∧ g.Routed i := by
  refine upheld_beside_accounts ?_ (fun htouch hg hg' hi h => h.touches htouch hg hg' hi)
    routed_search
  exact fun h n hn hinstr => absurd (h n hn) hinstr

end Routed

section Trail

variable {g : Graph}

/-- The last leader of a chain stays. -/
theorem trail?_append_singleton {xs leaders : List NodeId} {y : NodeId}
    (h : g.trail? (xs ++ [y]) = some leaders) : ∃ front, leaders = front ++ [y] := by
  induction xs generalizing leaders with
  | nil =>
    cases h
    exact ⟨[], rfl⟩
  | cons x xs ih =>
    obtain ⟨z, zs, hz⟩ : ∃ z zs, xs ++ [y] = z :: zs := List.exists_cons_of_ne_nil (by simp)
    simp only [List.cons_append, hz, trail?, Option.bind_eq_bind, Option.bind_eq_some_iff,
      Option.pure_def, Option.some.injEq] at h
    obtain ⟨taken, -, later, hlater, rfl⟩ := h
    obtain ⟨front, rfl⟩ := ih (hz ▸ hlater)
    split_ifs
    · exact ⟨front, rfl⟩
    · exact ⟨x :: front, rfl⟩

/-- Two chains that share a leader are joined at it. -/
theorem trail?_append {xs zs front back : List NodeId} {y : NodeId}
    (hfront : g.trail? (xs ++ [y]) = some (front ++ [y])) (hback : g.trail? (y :: zs) = some back) :
    g.trail? (xs ++ y :: zs) = some (front ++ back) := by
  induction xs generalizing front with
  | nil =>
    have hnil : [y] = front ++ [y] := Option.some.inj hfront
    have hfront : front = [] := by
      simpa using congrArg List.length hnil
    rw [hfront]
    exact hback
  | cons x xs ih =>
    obtain ⟨z, ws, hz⟩ : ∃ z ws, xs ++ [y] = z :: ws := List.exists_cons_of_ne_nil (by simp)
    have hz' : xs ++ y :: zs = z :: (ws ++ zs) := by
      rw [← List.cons_append, ← hz, List.append_assoc]
      rfl
    simp only [List.cons_append, hz, hz', trail?, Option.bind_eq_bind, Option.bind_eq_some_iff,
      Option.pure_def, Option.some.injEq] at hfront ⊢
    obtain ⟨taken, htaken, later, hlater, heq⟩ := hfront
    obtain ⟨rest, rfl⟩ := trail?_append_singleton (hz ▸ hlater)
    refine ⟨taken, htaken, rest ++ back, hz' ▸ ih (hz ▸ hlater), ?_⟩
    split_ifs at heq ⊢
    · rw [List.append_cancel_right heq]
    · have hfront : x :: rest = front := List.append_cancel_right heq
      rw [← hfront]
      rfl

theorem isTaken?_eq_false {a b : NodeId} {m n : Node} (hm : g.node? a = some m)
    (hn : g.node? b = some n)
    (h : m.is .jumpi = true → n.is .jumpdest = true → a ∉ n.predsAt 0) :
    g.isTaken? a b = some false := by
  unfold isTaken?
  simp only [hm, hn, Option.bind_eq_bind, Option.bind_some]
  split_ifs with hjumpi
  · simpa using h hjumpi
  · rfl

theorem isTaken?_eq_true {a b : NodeId} {m n : Node} (hm : g.node? a = some m)
    (hn : g.node? b = some n) (hjumpi : m.is .jumpi = true) (hdest : n.is .jumpdest = true)
    (h : a ∈ n.predsAt 0) : g.isTaken? a b = some true := by
  simp [isTaken?, hm, hn, hjumpi, hdest, h]

end Trail

/-- Blocks are led by entries and by instructions. -/
def IsLeader (g : Graph) (l : NodeId) : Prop :=
  ∃ n, g.node? l = some n ∧ (n.isEntry = true ∨ n.instruction ≠ none)

/-- One step back from the leader `n` of a block, with the leader of the block before and the
conditional jump that was taken in between. -/
inductive Backs (g : Graph) (entry : Option NodeId) (n : Node) :
    Option NodeId × List NodeId → Prop where
  | start : n.isEntry = true → g.Backs entry n (none, [])
  | unentered : n.is .jumpdest = true → n.predsAt 0 = [] → g.Backs entry n (entry, [])
  | entered {p : NodeId} {m : Node} : n.is .jumpdest = true → n.predsAt 0 = [p] →
    g.node? p = some m → m.isEntry = true → p < n.uid → g.Backs entry n (some p, [])
  | jumped {p l : NodeId} {m : Node} : n.is .jumpdest = true → n.predsAt 0 = [p] →
    g.node? p = some m → m.leader? = some l → l < n.uid → g.IsLeader l →
    g.Backs entry n (some l, if m.is .jumpi then [p] else [])
  | continued {l : NodeId} : n.is .jumpdest = false → n.leader? = some l → l < n.uid →
    g.IsLeader l → g.Backs entry n (some l, [])

/-- The leaders of the blocks executed up to the block of `l`. -/
def leadersFrom (g : Graph) (entry : Option NodeId) (l : NodeId) : List NodeId :=
  (g.trail? (g.chainTo entry l)).getD []

theorem chainTo_eq_append (g : Graph) (entry : Option NodeId) (l : NodeId) :
    ∃ earlier, g.chainTo entry l = earlier ++ [l] := by
  rw [chainTo]
  exact ⟨_, rfl⟩

theorem leadersTo_eq {g : Graph} {i l : NodeId} {n : Node} (hn : g.node? i = some n)
    (hl : n.leader? = some l) :
    g.leadersTo i = g.leadersFrom ((g.boundaries? i).map (·.entry)) l := by
  rw [leadersTo, leaderChain_of_leader hn hl]
  rfl

section Chain

variable {g : Graph} (hg : g.Coherent) (hr : ∀ i, g.Routed i) {entry : Option NodeId}
  {i l : NodeId} {n : Node}

theorem isLeader_of_precedes (hg : Formed g.outlines) {a b : NodeId}
    (h : Precedes g.outlines a b) : g.IsLeader a := by
  obtain ⟨-, o, -, ho, -, -, hexit, -⟩ := h
  obtain ⟨n, hn, rfl⟩ := node?_of_outlines ho
  refine ⟨n, hn, ?_⟩
  have hbare := hg.bare_iff ho
  by_cases hinstr : n.instruction = none
  · left
    rcases hbare.mp hinstr with hentry | hexit'
    · exact hentry
    · rw [hexit] at hexit'
      cases hexit'
  · exact Or.inr hinstr

/-- A step back leads to an earlier leader, or to the entry of the function if nothing is known. -/
theorem Backs.earlier {next : NodeId} {taken : List NodeId}
    (h : g.Backs entry n (some next, taken)) :
    next < n.uid ∧ g.IsLeader next ∨ entry = some next ∧ taken = [] := by
  cases h with
  | unentered => exact Or.inr ⟨rfl, rfl⟩
  | entered _ _ hm hmentry hlt => exact Or.inl ⟨hlt, _, hm, Or.inl hmentry⟩
  | jumped _ _ _ _ hlt hl => exact Or.inl ⟨hlt, hl⟩
  | continued _ _ hlt hl => exact Or.inl ⟨hlt, hl⟩

theorem isLeader_entry (hg : Formed g.outlines) {function : String} {s : Sentinels}
    (hs : g.sentinels? function = some s) : ∀ e, some s.entry = some e → g.IsLeader e := by
  rintro e ⟨rfl⟩
  obtain ⟨-, he, -⟩ := hg.of_sentinels? hs
  obtain ⟨n, hn, ho⟩ := node?_of_outlines he
  exact ⟨n, hn, Or.inl (congrArg Outline.isEntry ho)⟩

include hg hr

/-- The leader of an instruction's block: itself for a jump destination, an earlier one else. -/
theorem leader_cases (hn : g.node? i = some n) (hinstr : n.instruction ≠ none) :
    ∃ l, n.leader? = some l ∧ g.IsLeader l ∧
      (n.is .jumpdest = true ∧ l = i ∨ n.is .jumpdest = false ∧ l < i) := by
  obtain ⟨x, hx⟩ := Option.ne_none_iff_exists'.mp hinstr
  have hl : n.leader? = some x.leader := by rw [Node.leader?, hx, Option.map_some]
  have huid : n.uid = i := hg.causal.formed.uid_node hn
  have hleader := (hr i n hn hinstr).leader
  refine ⟨x.leader, hl, ?_⟩
  rcases hg.causal.formed.leader (outlines_of_node? hn) hx with hself | hprec
  · rw [hself]
    refine ⟨⟨n, hn, Or.inr hinstr⟩, Or.inl ⟨?_, rfl⟩⟩
    rw [← hleader, hl, hself, huid]
  · refine ⟨isLeader_of_precedes hg.causal.formed hprec, Or.inr ⟨?_, hprec.1⟩⟩
    rw [← Bool.not_eq_true, ← hleader, hl, huid]
    intro hself
    exact absurd (Option.some.inj hself) (Nat.ne_of_lt hprec.1)

/-- What precedes a node stands in a block that was begun before. -/
theorem leader_lt_of_precedes {p : NodeId} {m : Node} (hm : g.node? p = some m)
    (hinstr : m.instruction ≠ none) (hprec : Precedes g.outlines p i) :
    ∃ l, m.leader? = some l ∧ g.IsLeader l ∧ l < i := by
  obtain ⟨l, hl, hlead, hcases⟩ := leader_cases hg hr hm hinstr
  refine ⟨l, hl, hlead, ?_⟩
  rcases hcases with ⟨-, rfl⟩ | ⟨-, hlt⟩
  · exact hprec.1
  · exact Nat.lt_trans hlt hprec.1

theorem backs_stepBack (hn : g.node? l = some n) (hl : n.isEntry = true ∨ n.instruction ≠ none) :
    g.Backs entry n (g.stepBack entry l) := by
  have huid : n.uid = l := hg.causal.formed.uid_node hn
  unfold stepBack
  simp only [hn]
  split_ifs with hentry hdest
  · exact .start hentry
  · have hinstr : n.instruction ≠ none := hl.resolve_left hentry
    cases hpreds : n.predsAt 0 with
    | nil => exact .unentered hdest hpreds
    | cons p rest =>
      have hfed : n.FedBy p := Node.fedBy_of_mem_predsAt (by rw [hpreds]; exact List.mem_cons_self)
      have hsingle := (hr l n hn hinstr).entered hdest p hfed
      have hprec := hg.causal.precedes_of_fedBy hn hinstr hfed
      obtain ⟨m, hm, hlead⟩ := isLeader_of_precedes hg.causal.formed hprec
      simp only [hm]
      split_ifs with hpentry hjumpi
      · exact .entered hdest hsingle hm hpentry (huid ▸ hprec.1)
      all_goals
        obtain ⟨k, hk, hkl, hlt⟩ :=
          leader_lt_of_precedes hg hr hm (hlead.resolve_left hpentry) hprec
        have hjumped : g.Backs entry n (some k, if m.is .jumpi then [p] else []) :=
          .jumped hdest hsingle hm hk (huid ▸ hlt) hkl
        rw [hk]
        simpa [hjumpi] using hjumped
  · obtain ⟨k, hk, hkl, hcases⟩ := leader_cases hg hr hn (hl.resolve_left hentry)
    rw [hk]
    rcases hcases with ⟨hdest', -⟩ | ⟨hdest', hlt⟩
    · exact absurd hdest' hdest
    · exact .continued hdest' hk (huid ▸ hlt) hkl

omit hr in
/-- A leader stays in the trail, and a conditional jump that was taken does not. -/
theorem trail?_of_backs {next : NodeId} {taken : List NodeId} (hn : g.node? l = some n)
    (hnext : g.IsLeader next) (h : g.Backs entry n (some next, taken)) :
    g.trail? (next :: taken ++ [l]) = some [next, l] := by
  obtain ⟨k, hk, -⟩ := hnext
  have hdirect : (k.is .jumpi = true → n.is .jumpdest = true → next ∉ n.predsAt 0) →
      g.trail? [next, l] = some [next, l] := by
    intro hkeep
    simp [trail?, isTaken?_eq_false hk hn hkeep]
  cases h with
  | unentered _ hpreds =>
    apply hdirect
    simp [hpreds]
  | entered _ _ hp hpentry =>
    apply hdirect
    intro hjumpi
    rw [hk] at hp
    cases hp
    rw [hg.causal.formed.isEntry_eq_false hk (Node.instruction_ne_none_of_is hjumpi)] at hpentry
    cases hpentry
  | @jumped p _ m hdest hpreds hp _ _ _ =>
    split_ifs with hjumpi
    · have hpdest : m.is .jumpdest = false := by
        simp_all [Node.is]
      have hstay : g.isTaken? next p = some false :=
        isTaken?_eq_false hk hp (by simp [hpdest])
      have htaken : g.isTaken? p l = some true :=
        isTaken?_eq_true hp hn hjumpi hdest (by simp [hpreds])
      simp [trail?, hstay, htaken]
    · apply hdirect
      intro hkjumpi _ hmem
      rw [hpreds, List.mem_singleton] at hmem
      subst hmem
      rw [hk] at hp
      cases hp
      exact hjumpi hkjumpi
  | continued hdest =>
    apply hdirect
    simp [hdest]

theorem isLeader_of_stepBack (hentry : ∀ e, entry = some e → g.IsLeader e) (hl : g.IsLeader l)
    {next : NodeId} (h : (g.stepBack entry l).1 = some next) : g.IsLeader next := by
  obtain ⟨n, hn, hlead⟩ := hl
  have hback : g.Backs entry n (some next, (g.stepBack entry l).2) :=
    h ▸ backs_stepBack hg hr hn hlead
  rcases hback.earlier with ⟨-, hnext⟩ | ⟨hnext, -⟩
  · exact hnext
  · exact hentry next hnext

/-- The trail of a leader is that of the leader before it and the leader itself. -/
theorem leadersFrom_eq (hentry : ∀ e, entry = some e → g.IsLeader e) (hl : g.IsLeader l) :
    g.trail? (g.chainTo entry l) = some (g.leadersFrom entry l) ∧
      g.leadersFrom entry l =
        ((g.stepBack entry l).1.filter (· < l)).elim [] (g.leadersFrom entry) ++ [l] := by
  -- by induction on the leader, as its chain is built from that of an earlier one
  induction l using Nat.strongRecOn with
  | ind l ih =>
    have hstep : ∀ next, (g.stepBack entry l).1 = some next → g.IsLeader next :=
      fun _ => isLeader_of_stepBack hg hr hentry hl
    obtain ⟨n, hn, hlead⟩ := hl
    have huid : n.uid = l := hg.causal.formed.uid_node hn
    have hback : g.Backs entry n (g.stepBack entry l) := backs_stepBack hg hr hn hlead
    unfold leadersFrom
    rw [chainTo]
    generalize g.stepBack entry l = back at hback hstep
    obtain ⟨_ | next, taken⟩ := back
    · obtain rfl : taken = [] := by
        cases hback <;> rfl
      exact ⟨rfl, rfl⟩
    · by_cases hlt : next < l
      · have hnext : g.IsLeader next := hstep next rfl
        obtain ⟨htrail, -⟩ := ih next hlt hnext
        obtain ⟨earlier, hearlier⟩ := g.chainTo_eq_append entry next
        obtain ⟨front, hfront⟩ := trail?_append_singleton (hearlier ▸ htrail)
        have hjoin := trail?_append (hfront ▸ hearlier ▸ htrail) (trail?_of_backs hg hn hnext hback)
        have hwhole : g.trail? (g.chainTo entry next ++ taken ++ [l]) =
            some (g.leadersFrom entry next ++ [l]) := by
          rw [hfront, hearlier]
          simpa using hjoin
        simp only [hwhole, Option.filter_some, hlt, decide_true, if_true, Option.getD_some,
          Option.elim_some, true_and]
        rfl
      · obtain rfl : taken = [] := by
          rcases hback.earlier with ⟨hlt', -⟩ | ⟨-, htaken⟩
          · exact absurd (huid ▸ hlt') hlt
          · exact htaken
        simp [hlt, trail?, Option.filter_some]

variable (hentry : ∀ e, entry = some e → g.IsLeader e)
include hentry

theorem mem_leadersFrom_iff (hl : g.IsLeader l) {k : NodeId} :
    k ∈ g.leadersFrom entry l ↔
      k = l ∨ ∃ next < l, (g.stepBack entry l).1 = some next ∧ k ∈ g.leadersFrom entry next := by
  obtain ⟨-, heq⟩ := leadersFrom_eq hg hr hentry hl
  rw [heq, List.mem_append, List.mem_singleton, or_comm]
  apply or_congr_right
  cases (g.stepBack entry l).1 with
  | none => simp
  | some next => by_cases hlt : next < l <;> simp [Option.filter_some, hlt]

/-- The blocks before a block on the way are on the way, too. -/
theorem leadersFrom_subset (hl : g.IsLeader l) {k : NodeId} (hk : k ∈ g.leadersFrom entry l) :
    g.leadersFrom entry k ⊆ g.leadersFrom entry l := by
  induction l using Nat.strongRecOn with
  | ind l ih =>
    rcases (mem_leadersFrom_iff hg hr hentry hl).mp hk with rfl | ⟨next, hlt, hstep, hk⟩
    · exact List.Subset.refl _
    · intro j hj
      have hnext := isLeader_of_stepBack hg hr hentry hl hstep
      exact (mem_leadersFrom_iff hg hr hentry hl).mpr
        (Or.inr ⟨next, hlt, hstep, ih next hlt hnext hk hj⟩)

theorem mem_leadersFrom_self (hl : g.IsLeader l) : l ∈ g.leadersFrom entry l :=
  (mem_leadersFrom_iff hg hr hentry hl).mpr (Or.inl rfl)

theorem mem_leadersFrom_of_stepBack (hl : g.IsLeader l) {next : NodeId}
    (hstep : (g.stepBack entry l).1 = some next) (hlt : next < l) :
    next ∈ g.leadersFrom entry l := by
  have hnext := isLeader_of_stepBack hg hr hentry hl hstep
  exact (mem_leadersFrom_iff hg hr hentry hl).mpr
    (Or.inr ⟨next, hlt, hstep, mem_leadersFrom_self hg hr hentry hnext⟩)

/-- The block of an instruction is on the way to it. -/
theorem leader_mem_leadersFrom (hn : g.node? i = some n) (hinstr : n.instruction ≠ none)
    (hl : n.leader? = some l) : l ∈ g.leadersFrom entry i := by
  have hi : g.IsLeader i := ⟨n, hn, Or.inr hinstr⟩
  obtain ⟨k, hk, -, hcases⟩ := leader_cases hg hr hn hinstr
  obtain rfl : k = l := Option.some.inj (hk.symm.trans hl)
  rcases hcases with ⟨-, rfl⟩ | ⟨hdest, hlt⟩
  · exact mem_leadersFrom_self hg hr hentry hi
  · refine mem_leadersFrom_of_stepBack hg hr hentry hi ?_ hlt
    simp [stepBack, hn, hg.causal.formed.isEntry_eq_false hn hinstr, hdest, hl]

/-- The block of the jump that enters a destination is on the way to the destination. -/
theorem leader_mem_of_entered (hn : g.node? i = some n) (hdest : n.is .jumpdest = true)
    {p : NodeId} {m : Node} (hp : n.FedBy p) (hm : g.node? p = some m)
    (hinstr' : m.instruction ≠ none) (hl : m.leader? = some l) : l ∈ g.leadersFrom entry i := by
  have hformed := hg.causal.formed
  have hinstr := Node.instruction_ne_none_of_is hdest
  have hpreds : n.predsAt 0 = [p] := (hr i n hn hinstr).entered hdest p hp
  have hprec := hg.causal.precedes_of_fedBy hn hinstr hp
  obtain ⟨k, hk, -, hlt⟩ := leader_lt_of_precedes hg hr hm hinstr' hprec
  obtain rfl : k = l := Option.some.inj (hk.symm.trans hl)
  refine mem_leadersFrom_of_stepBack hg hr hentry ⟨n, hn, Or.inr hinstr⟩ ?_ hlt
  simp [stepBack, hn, hformed.isEntry_eq_false hn hinstr, hdest, hpreds, hm,
    hformed.isEntry_eq_false hm hinstr', hl]

/-- What supplies an instruction in a block on the way is the entry, leads a block on the way or
stands in one. -/
theorem onWay_of_fedBy (hn : g.node? i = some n) (hinstr : n.instruction ≠ none)
    (hbounds : (g.boundaries? i).map (·.entry) = entry) (hl : g.IsLeader l) {k p : NodeId}
    (hk : n.leader? = some k) (hkl : k ∈ g.leadersFrom entry l) (hp : n.FedBy p) :
    ∃ m, g.node? p = some m ∧ (m.isEntry = true ∨ p ∈ g.leadersFrom entry l ∨
      ∃ j ∈ g.leadersFrom entry l, m.leader? = some j) := by
  have hformed := hg.causal.formed
  have hsub := leadersFrom_subset hg hr hentry hl hkl
  have hprec := hg.causal.precedes_of_fedBy hn hinstr hp
  obtain ⟨hleader, -, hsupplied⟩ := hr i n hn hinstr
  cases hdest : n.is .jumpdest with
  | true =>
    have hself : n.leader? = some i := hformed.uid_node hn ▸ hleader.mpr hdest
    obtain rfl : k = i := Option.some.inj (hk.symm.trans hself)
    obtain ⟨m, hm, hmentry | hminstr⟩ := isLeader_of_precedes hformed hprec
    · exact ⟨m, hm, Or.inl hmentry⟩
    · obtain ⟨j, hj, -⟩ := leader_cases hg hr hm hminstr
      have hmem := leader_mem_of_entered hg hr hentry hn hdest hp hm hminstr hj
      exact ⟨m, hm, Or.inr (Or.inr ⟨j, hsub hmem, hj⟩)⟩
  | false =>
    rcases hsupplied hdest p hp with hpk | ⟨m, hm, hmentry | ⟨j, hj, hmj⟩⟩
    · obtain rfl : k = p := Option.some.inj (hk.symm.trans hpk)
      obtain ⟨m, hm, -⟩ := isLeader_of_precedes hformed hprec
      exact ⟨m, hm, Or.inr (Or.inl hkl)⟩
    · exact ⟨m, hm, Or.inl hmentry⟩
    · rw [hformed.uid_node hn, leadersTo_eq hn hk, hbounds] at hj
      exact ⟨m, hm, Or.inr (Or.inr ⟨j, hsub hj, hmj⟩)⟩

end Chain

end Graph
end OperandFlow
