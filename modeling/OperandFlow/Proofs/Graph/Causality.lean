import OperandFlow.Proofs.Graph.Growth

/-! Whatever is done to a graph, an edge comes from the entry of the function or from an earlier
instruction of the same call, or it goes to the exit of the function. -/
namespace OperandFlow.Graph

structure Causal (g : Graph) : Prop where
  formed : Formed g.outlines
  sourced : ∀ {a b : NodeId}, g.Feeds a b → Precedes g.outlines a b ∨ Leaves g.outlines a b

theorem causal_empty : empty.Causal where
  formed := outlines_empty ▸ formed_empty
  sourced := by
    rintro a b ⟨n, hn, -⟩
    cases hn

namespace Causal

variable {g : Graph}

/-- What supplies a node precedes it, unless the node is an exit. -/
theorem precedes_of_feeds {a b : NodeId} {n : Node} (hg : g.Causal) (hn : g.node? b = some n)
    (hkind : n.kind ≠ .exit) (h : g.Feeds a b) : Precedes g.outlines a b := by
  rcases hg.sourced h with hprec | ⟨-, q, -, hq, -, -, hexit⟩
  · exact hprec
  · rw [outlines_of_node? hn] at hq
    cases hq
    exact absurd (by simpa using hexit) hkind

theorem precedes_of_fedBy {i p : NodeId} {n : Node} (hg : g.Causal) (hn : g.node? i = some n)
    (hinstr : n.instruction ≠ none) (hp : n.FedBy p) : Precedes g.outlines p i :=
  hg.precedes_of_feeds hn (hg.formed.kind_ne_exit hn hinstr) ⟨n, hn, hp⟩

theorem update {uid : NodeId} {f : Node → Node} (hg : g.Causal)
    (hf : ∀ n, g.node? uid = some n → (f n).outline = n.outline ∧
      ∀ a, (f n).FedBy a → n.FedBy a ∨ Precedes g.outlines a uid ∨ Leaves g.outlines a uid) :
    (g.update uid f).Causal := by
  have hout : (g.update uid f).outlines = g.outlines := outlines_update fun n hn => (hf n hn).1
  refine ⟨hout ▸ hg.formed, ?_⟩
  intro a b hab
  rw [hout]
  rcases feeds_update.mp hab with ⟨-, hab⟩ | ⟨rfl, n, hn, ha⟩
  · exact hg.sourced hab
  · rcases (hf n hn).2 a ha with ha | ha
    · exact hg.sourced ⟨n, hn, ha⟩
    · exact ha

/-- An update that adds no predecessor. -/
theorem update_quiet {uid : NodeId} {f : Node → Node} (hg : g.Causal)
    (hf : ∀ n, g.node? uid = some n → (f n).outline = n.outline ∧
      ∀ a, (f n).FedBy a → n.FedBy a) : (g.update uid f).Causal :=
  hg.update fun n hn => ⟨(hf n hn).1, fun a ha => Or.inl ((hf n hn).2 a ha)⟩

theorem connect {pred uid : NodeId} {slot : Nat} (hg : g.Causal)
    (hp : Precedes g.outlines pred uid) : (g.connect pred uid slot).Causal := by
  have hadd : (g.update uid (·.addPred slot pred)).Causal := by
    apply hg.update
    intro n _
    refine ⟨rfl, ?_⟩
    intro a ha
    rcases (n.fedBy_addPred slot pred a).mp ha with ha | ⟨rfl, -⟩
    · exact Or.inl ha
    · exact Or.inr (Or.inl hp)
  unfold Graph.connect
  dsimp only
  split
  · apply hadd.update_quiet
    intro n _
    exact ⟨n.outline_addSuccessor uid, fun a ha => by rwa [Node.addSuccessor_eq] at ha⟩
  · refine update_quiet (hadd.update_quiet ?_) ?_
    · intro n _
      exact ⟨(n.eraseSuccessor _).outline_addSuccessor uid,
        fun a ha => by rwa [Node.addSuccessor_eq] at ha⟩
    · intro n _
      exact ⟨rfl, fun a ha => ((n.fedBy_erasePred pred a).mp ha).1⟩

theorem links {n : Node} {g₁ : Graph} (hg : g.Causal) (h : g.Links n g₁) : g₁.Causal := by
  obtain ⟨links, hlinks, rfl⟩ := h
  have key : (g.linkAll n.uid links).outlines = g.outlines ∧ (g.linkAll n.uid links).Causal := by
    apply linkAll_induction (P := fun g' => g'.outlines = g.outlines ∧ g'.Causal) ⟨rfl, hg⟩
    intro g' pred slot _ _ ⟨hout, hg'⟩ hl _ _ _ _
    refine ⟨by rw [outlines_connect, hout], hg'.connect ?_⟩
    rw [hout]
    exact (hlinks _ hl).1
  exact key.2

theorem release {uid pred exit : NodeId} (hg : g.Causal) (hp : Precedes g.outlines pred uid)
    (hx : ∃ n : Node, g.node? uid = some n ∧
      g.outlines[exit]? = some (.exit exit n.function)) :
    (release (some exit) uid g pred).Causal := by
  by_cases h : g.Stranded uid pred
  · rw [release_of_stranded h]
    refine update (hg.update_quiet fun m _ => ⟨rfl, fun a ha => ha⟩) ?_
    intro x _
    refine ⟨rfl, ?_⟩
    intro a ha
    rcases (x.fedBy_addPred 0 pred a).mp ha with ha | ⟨rfl, -⟩
    · exact Or.inl ha
    · right; right
      rw [outlines_update (by intro m _; rfl)]
      obtain ⟨n, hn, hexit⟩ := hx
      obtain ⟨m, hm, hsent, -⟩ := h
      obtain ⟨-, p, q, hp, hq, hfun, -⟩ := hp
      rw [outlines_of_node? hn] at hq
      cases hq
      rw [outlines_of_node? hm] at hp
      cases hp
      exact ⟨_, _, outlines_of_node? hm, hexit, hfun, hg.formed.instruction_ne_none hm hsent, rfl⟩
  · rw [release_of_not_stranded h]
    exact hg.update_quiet fun m _ => ⟨rfl, fun a ha => ha⟩

theorem withdraw {uid : NodeId} {successors : List NodeId} (hg : g.Causal) :
    (g.withdraw uid successors).Causal := by
  unfold Graph.withdraw
  apply List.foldlRecOn successors _ hg
  intro g' hg' succ _
  exact hg'.update_quiet fun n _ => ⟨rfl, fun a ha => ((n.fedBy_erasePred uid a).mp ha).1⟩

theorem detach {uid : NodeId} {n : Node} (hg : g.Causal) (hn : g.node? uid = some n)
    (hsent : n.isSentinel = false) : (g.detach uid).Causal := by
  have hinstr := hg.formed.instruction_ne_none hn hsent
  obtain ⟨s, hs, -, hexit⟩ := boundaries?_of_instruction hg.formed hn hinstr
  have hreleased : (n.predecessors.foldl (Graph.release (some s.exit) uid) g).Causal := by
    have key : ∀ preds : List NodeId, (∀ p ∈ preds, Precedes g.outlines p uid) →
        ∀ g' : Graph, g'.outlines = g.outlines → g'.Causal →
          (preds.foldl (Graph.release (some s.exit) uid) g').Causal := by
      intro preds
      induction preds with
      | nil => intro _ g' _ hg'; exact hg'
      | cons p preds ih =>
        intro hpreds g' hout hg'
        rw [List.foldl_cons]
        apply ih (fun q hq => hpreds q (List.mem_cons_of_mem p hq))
        · rw [outlines_release, hout]
        · obtain ⟨m, hm, ho⟩ := node?_of_outlines (hout ▸ outlines_of_node? hn)
          refine hg'.release (hout ▸ hpreds p List.mem_cons_self) ⟨m, hm, ?_⟩
          rw [hout, hexit, ← m.function_outline, ho]
          rfl
    refine key _ ?_ g rfl hg
    intro p hp
    exact hg.precedes_of_fedBy hn hinstr ((n.mem_predecessors p).mp hp)
  rw [detach_eq hn hs]
  have hburied : (((n.predecessors.foldl (Graph.release (some s.exit) uid) g).withdraw uid
      n.successors).update uid Node.bury).Causal := by
    apply hreleased.withdraw.update_quiet
    intro m hm
    have hout : ((n.predecessors.foldl (Graph.release (some s.exit) uid) g).withdraw uid
        n.successors).outlines = g.outlines :=
      outlines_of_cores (cores_withdraw_releaseAll _ _ _ _ g)
    exact ⟨Node.outline_bury (isSentinel_of_outlines hout hn hm ▸ hsent),
      fun a ha => absurd ha (m.not_fedBy_bury a)⟩
  exact ⟨hburied.formed, hburied.sourced⟩

theorem searched {uid : NodeId} {g' : Graph} (hg : g.Causal) (h : g.Searched uid g') :
    g'.Causal := by
  cases h with
  | unchanged => exact hg
  | linked hn hlive hsent hlinks => exact hg.links hlinks
  | removed hn hlive hsent hlinks =>
    have hout := hlinks.outlines
    obtain ⟨m, hm, -⟩ := node?_of_outlines (hout ▸ outlines_of_node? hn)
    exact (hg.links hlinks).detach hm (isSentinel_of_outlines hout hn hm ▸ hsent)
  | collapsed hn hlive hsent hlinks hm hs hrest =>
    apply (hg.links hlinks).update_quiet
    intro m' hm'
    rw [hm] at hm'
    cases hm'
    refine ⟨rfl, ?_⟩
    rintro a ⟨s', hs', ha⟩
    rw [List.mem_singleton] at hs'
    subst hs'
    exact ⟨_, List.mem_of_getElem? hs, ha⟩

theorem runEdgeSearch (hg : g.Causal) (host : Host) (uid : NodeId) :
    (g.runEdgeSearch host uid).value.Causal :=
  hg.searched (searched_runEdgeSearch host hg.formed uid)

theorem unpend (hg : g.Causal) (uid : NodeId) : (g.unpend uid).Causal := by
  have hquiet : (g.update uid fun n => { n with awaiting := false }).Causal :=
    hg.update_quiet fun n _ => ⟨rfl, fun a ha => ha⟩
  exact ⟨hquiet.formed, hquiet.sourced⟩

theorem flushWhere (hg : g.Causal) (host : Host) (p : Node → Bool) :
    (g.flushWhere host p).value.Causal := by
  rw [flushWhere_value]
  apply List.foldlRecOn _ _ hg
  intro g' hg' uid _
  rw [finish_value]
  exact (hg'.unpend uid).runEdgeSearch host uid

theorem withFunction (hg : g.Causal) (o : Options) (function : String) :
    (g.withFunction o function).value.1.Causal := by
  refine ⟨(formed_withFunction hg.formed function).1, ?_⟩
  rintro a b ⟨n, hn, ha⟩
  rcases node?_withFunction hn with hn | ⟨-, kind, -, rfl⟩
  · have hsub : ∀ {i : NodeId} {o' : Outline}, g.outlines[i]? = some o' →
        (g.withFunction o function).value.1.outlines[i]? = some o' := by
      intro i o' ho
      obtain ⟨m, hm, rfl⟩ := node?_of_outlines ho
      exact outlines_of_node? (node?_withFunction_of_some hm o function)
    rcases hg.sourced ⟨n, hn, ha⟩ with ⟨hlt, p, q, hp, hq, rest⟩ | ⟨p, q, hp, hq, rest⟩
    · exact Or.inl ⟨hlt, p, q, hsub hp, hsub hq, rest⟩
    · exact Or.inr ⟨p, q, hsub hp, hsub hq, rest⟩
  · exact absurd ha (not_fedBy_fresh rfl a)

theorem arrive {o : Options} {s : Sentinels} {a : Arrival} (hg : g.Causal)
    (hs : g.sentinels? a.function = some s) (category : Category) :
    (g.arrive (g.nodeOf o s a category) s.exit).Causal := by
  have hformed := formed_arrive (o := o) hg.formed hs category
  obtain ⟨-, -, hexit⟩ := hg.formed.of_sentinels? hs
  have hlt : s.exit < g.size := by
    rw [← size_outlines]
    exact (Array.getElem?_eq_some_iff.mp hexit).1
  refine ⟨hformed, ?_⟩
  rintro p b ⟨n, hn, hp⟩
  rw [outlines_arrive]
  rw [node?_arrive hlt] at hn
  have hold : ∀ {m : Node}, g.node? b = some m → m.FedBy p →
      Precedes (g.outlines.push (g.nodeOf o s a category).outline) p b ∨
        Leaves (g.outlines.push (g.nodeOf o s a category).outline) p b := by
    intro m hm hp
    exact (hg.sourced ⟨m, hm, hp⟩).imp (fun h => h.push _) fun h => h.push _
  split_ifs at hn with hnew hx
  · cases hn
    exact absurd hp (not_fedBy_fresh rfl p)
  · obtain ⟨m, hm, rfl⟩ := Option.map_eq_some_iff.mp hn
    rcases (m.fedBy_addPred 0 _ p).mp hp with hp | ⟨rfl, -⟩
    · exact hold hm hp
    · right
      refine ⟨(g.nodeOf o s a category).outline, .exit s.exit a.function, ?_, ?_, rfl,
        by simp [nodeOf], rfl⟩
      · rw [show (g.nodeOf o s a category).uid = g.outlines.size from (size_outlines g).symm]
        exact Array.getElem?_push_size
      · rw [hx, Array.getElem?_push, if_neg (by simpa using Nat.ne_of_lt hlt), hexit]
  · exact hold hn hp

theorem readyFor (hg : g.Causal) (host : Host) (a : Arrival) : (g.readyFor host a).1.Causal :=
  (hg.flushWhere host _).withFunction host.options a.function

theorem sentinels?_readyFor (hg : g.Causal) (host : Host) (a : Arrival) :
    (g.readyFor host a).1.sentinels? a.function = some (g.readyFor host a).2 := by
  unfold Graph.readyFor
  exact (formed_withFunction (hg.flushWhere host _).formed a.function).2

end Causal
end OperandFlow.Graph
