import OperandFlow.Proofs.Graph.Lookup

/-! Block leaders in two graphs that have the same nodes under different ids. -/
namespace OperandFlow

/-- In its block `m` stands as `n` does, under the ids that `ρ` gives. -/
structure Node.StandsFor (ρ : NodeId → NodeId) (m n : Node) : Prop where
  isEntry : m.isEntry = n.isEntry
  opcode? : m.opcode? = n.opcode?
  leader? : m.leader? = n.leader?.map ρ
  predsAt : m.predsAt 0 = (n.predsAt 0).map ρ

theorem Node.StandsFor.is {ρ : NodeId → NodeId} {m n : Node} (h : m.StandsFor ρ n)
    (opcode : Opcode) : m.is opcode = n.is opcode := by
  unfold Node.is
  rw [h.opcode?]

namespace Graph

/-- The nodes `K` of `g` are in `g'` as well, in the same order, under the ids that `ρ` gives. What
their blocks hang on is among them. -/
structure Mirrors (ρ : NodeId → NodeId) (K : NodeId → Prop) (g g' : Graph) : Prop where
  increasing : ∀ {i j : NodeId}, K i → K j → i < j → ρ i < ρ j
  node : ∀ {i : NodeId}, K i →
    ∃ n m, g.node? i = some n ∧ g'.node? (ρ i) = some m ∧ m.StandsFor ρ n
  leader : ∀ {i l : NodeId} {n : Node}, K i → g.node? i = some n → n.leader? = some l → K l
  pred : ∀ {i p : NodeId} {n : Node}, K i → g.node? i = some n → p ∈ n.predsAt 0 → K p

namespace Mirrors

variable {ρ : NodeId → NodeId} {K : NodeId → Prop} {g g' : Graph} (h : Mirrors ρ K g g')
include h

theorem lt_iff {i j : NodeId} (hi : K i) (hj : K j) : ρ i < ρ j ↔ i < j := by
  refine ⟨?_, h.increasing hi hj⟩
  intro hlt
  rcases Nat.lt_trichotomy i j with hij | rfl | hji
  · exact hij
  · exact absurd hlt (Nat.lt_irrefl _)
  · exact absurd hlt (Nat.lt_asymm (h.increasing hj hi hji))

theorem eq_iff {i j : NodeId} (hi : K i) (hj : K j) : ρ i = ρ j ↔ i = j := by
  refine ⟨?_, congrArg ρ⟩
  intro heq
  rcases Nat.lt_trichotomy i j with hij | hij | hji
  · exact absurd heq (Nat.ne_of_lt (h.increasing hi hj hij))
  · exact hij
  · exact absurd heq (Nat.ne_of_gt (h.increasing hj hi hji))

theorem contains_map {i : NodeId} {ids : List NodeId} (hi : K i) (hids : ∀ j ∈ ids, K j) :
    (ids.map ρ).contains (ρ i) = ids.contains i := by
  rw [Bool.eq_iff_iff, List.contains_iff_mem, List.contains_iff_mem, List.mem_map]
  constructor
  · rintro ⟨j, hj, heq⟩
    exact (h.eq_iff (hids j hj) hi).mp heq ▸ hj
  · intro hmem
    exact ⟨i, hmem, rfl⟩

/-- One step back leads to nodes of `K`. -/
theorem of_stepBack {entry leader : NodeId} (hentry : K entry) (hleader : K leader) :
    (∀ l, (g.stepBack (some entry) leader).1 = some l → K l) ∧
      ∀ i ∈ (g.stepBack (some entry) leader).2, K i := by
  obtain ⟨n, -, hn, -, -⟩ := h.node hleader
  unfold stepBack
  simp only [hn]
  split_ifs with hisEntry hdest
  · simp
  · cases hpreds : n.predsAt 0 with
    | nil => simpa using hentry
    | cons p rest =>
      have hp : K p := h.pred hleader hn (by simp [hpreds])
      obtain ⟨m, -, hm, -, -⟩ := h.node hp
      simp only [hm]
      split_ifs with hpentry hjumpi
      · simpa using hp
      · exact ⟨fun l hl => h.leader hp hm hl, by simpa using hp⟩
      · exact ⟨fun l hl => h.leader hp hm hl, by simp⟩
  · exact ⟨fun l hl => h.leader hleader hn hl, by simp⟩

theorem stepBack {entry leader : NodeId} (hleader : K leader) :
    g'.stepBack (some (ρ entry)) (ρ leader) =
      ((g.stepBack (some entry) leader).1.map ρ, (g.stepBack (some entry) leader).2.map ρ) := by
  obtain ⟨n, n', hn, hn', hsame⟩ := h.node hleader
  unfold Graph.stepBack
  simp only [hn, hn', hsame.isEntry, hsame.is, hsame.predsAt, hsame.leader?]
  split_ifs with hisEntry hdest
  · rfl
  · cases hpreds : n.predsAt 0 with
    | nil => rfl
    | cons p rest =>
      have hp : K p := h.pred hleader hn (by simp [hpreds])
      obtain ⟨m, m', hm, hm', hsame'⟩ := h.node hp
      simp only [List.map_cons, hm, hm', hsame'.isEntry, hsame'.is, hsame'.leader?]
      split_ifs <;> rfl
  · rfl

/-- The chain of leaders has the same nodes. The induction is on the leader, which goes down with
every step. -/
theorem chainTo {entry leader : NodeId} (hentry : K entry) (hleader : K leader) :
    g'.chainTo (some (ρ entry)) (ρ leader) = (g.chainTo (some entry) leader).map ρ ∧
      ∀ i ∈ g.chainTo (some entry) leader, K i := by
  induction leader using Nat.strongRecOn with
  | ind leader ih =>
    obtain ⟨hnext, htaken⟩ := h.of_stepBack hentry hleader
    rw [Graph.chainTo, Graph.chainTo.eq_def g, h.stepBack hleader]
    generalize g.stepBack (some entry) leader = back at hnext htaken
    obtain ⟨next, taken⟩ := back
    dsimp only at hnext htaken ⊢
    cases next with
    | none =>
      refine ⟨by simp, ?_⟩
      intro i hi
      simp only [List.nil_append, List.mem_append, List.mem_singleton] at hi
      rcases hi with hi | rfl
      · exact htaken i hi
      · exact hleader
    | some l =>
      have hl := hnext l rfl
      simp only [Option.map_some, h.lt_iff hl hleader]
      by_cases hlt : l < leader
      · obtain ⟨hchain, hearlier⟩ := ih l hlt hl
        simp only [hlt, if_true, hchain, List.map_append, List.map_cons, List.map_nil]
        refine ⟨trivial, ?_⟩
        intro i hi
        simp only [List.mem_append, List.mem_singleton] at hi
        rcases hi with (hi | hi) | rfl
        · exact hearlier i hi
        · exact htaken i hi
        · exact hleader
      · simp only [hlt, if_false, List.nil_append, List.map_append, List.map_cons, List.map_nil]
        refine ⟨trivial, ?_⟩
        intro i hi
        simp only [List.mem_append, List.mem_singleton] at hi
        rcases hi with hi | rfl
        · exact htaken i hi
        · exact hleader

theorem isTaken? {jump next : NodeId} (hjump : K jump) (hnext : K next) :
    g'.isTaken? (ρ jump) (ρ next) = g.isTaken? jump next := by
  obtain ⟨n, n', hn, hn', hsame⟩ := h.node hjump
  obtain ⟨m, m', hm, hm', hsame'⟩ := h.node hnext
  unfold Graph.isTaken?
  simp only [hn, hn', hm, hm', hsame.is, hsame'.is, hsame'.predsAt, Option.bind_eq_bind,
    Option.bind_some]
  rw [h.contains_map hjump fun p hp => h.pred hnext hm hp]

theorem trail? {chain : List NodeId} (hchain : ∀ i ∈ chain, K i) :
    g'.trail? (chain.map ρ) = (g.trail? chain).map (List.map ρ) := by
  induction chain with
  | nil => rfl
  | cons uid rest ih =>
    cases rest with
    | nil => rfl
    | cons next rest =>
      have hrest : ∀ i ∈ next :: rest, K i := fun i hi => hchain i (List.mem_cons_of_mem uid hi)
      simp only [List.map_cons] at ih ⊢
      rw [Graph.trail?, Graph.trail?,
        h.isTaken? (hchain uid (by simp)) (hchain next (by simp)), ih hrest]
      cases g.isTaken? uid next with
      | none => rfl
      | some taken =>
        cases g.trail? (next :: rest) with
        | none => rfl
        | some leaders => cases taken <;> rfl

end Mirrors

/-- The leaders whose blocks were executed are among the chain. -/
theorem mem_chain_of_trail? {g : Graph} {chain leaders : List NodeId}
    (h : g.trail? chain = some leaders) {i : NodeId} (hi : i ∈ leaders) : i ∈ chain := by
  induction chain generalizing leaders with
  | nil =>
    cases h
    exact hi
  | cons uid rest ih =>
    cases rest with
    | nil =>
      cases h
      exact hi
    | cons next rest =>
      simp only [trail?, Option.bind_eq_bind, Option.bind_eq_some_iff, Option.pure_def,
        Option.some.injEq] at h
      obtain ⟨taken, -, later, hlater, rfl⟩ := h
      split_ifs at hi
      · exact List.mem_cons_of_mem uid (ih hlater hi)
      · rcases List.mem_cons.mp hi with rfl | hi
        · exact List.mem_cons_self
        · exact List.mem_cons_of_mem uid (ih hlater hi)

theorem leaderChain_of_leader {g : Graph} {uid leader : NodeId} {n : Node}
    (hn : g.node? uid = some n) (hleader : n.leader? = some leader) :
    g.leaderChain uid = .ok (g.chainTo ((g.boundaries? uid).map (·.entry)) leader) := by
  have hok : g.node uid = .ok n := by
    unfold node
    rw [hn]
  simp only [leaderChain, hok, bind, Except.bind, hleader]
  rfl

theorem leaderChain_of_leader_eq_none {g : Graph} {uid : NodeId} {n : Node}
    (hn : g.node? uid = some n) (hleader : n.leader? = none) : g.leaderChain uid = .ok [uid] := by
  have hok : g.node uid = .ok n := by
    unfold node
    rw [hn]
  simp only [leaderChain, hok, bind, Except.bind, hleader]
  rfl

/-- An instruction was reached through the same blocks in both graphs. -/
theorem Mirrors.leadersTo {ρ : NodeId → NodeId} {K : NodeId → Prop} {g g' : Graph}
    (h : Mirrors ρ K g g') {uid uid' entry leader : NodeId} {n n' : Node}
    (hn : g.node? uid = some n) (hn' : g'.node? uid' = some n') (hleader : n.leader? = some leader)
    (hleader' : n'.leader? = some (ρ leader)) (hK : K leader) (hKentry : K entry)
    (hentry : (g.boundaries? uid).map (·.entry) = some entry)
    (hentry' : (g'.boundaries? uid').map (·.entry) = some (ρ entry)) :
    g'.leadersTo uid' = (g.leadersTo uid).map ρ ∧ ∀ l ∈ g.leadersTo uid, K l := by
  obtain ⟨hchain, hmem⟩ := h.chainTo hKentry hK
  unfold Graph.leadersTo
  rw [leaderChain_of_leader hn hleader, leaderChain_of_leader hn' hleader', hentry, hentry', hchain]
  dsimp only
  rw [h.trail? hmem]
  cases htrail : g.trail? (g.chainTo (some entry) leader) with
  | none => simp
  | some leaders =>
    refine ⟨rfl, ?_⟩
    intro l hl
    exact hmem l (mem_chain_of_trail? htrail hl)

end Graph
end OperandFlow
