import OperandFlow.Proofs.Arena.Edges
import OperandFlow.Proofs.Graph.Scope

/-! Blocks and candidates in an arena. Every leader and every node that a table lists is there, and
what the tables give is what a search through all nodes would find. -/
namespace OperandFlow

namespace Graph

variable {g : Graph} {n : Node}

/-- Nodes stand in the order of their numbers. -/
theorem take_nodes_eq_filter (hg : Formed g.outlines) (k : Nat) :
    g.nodes.toList.take k = g.nodes.toList.filter (·.uid < k) := by
  have huid : ∀ (i : Nat) (m : Node), g.nodes.toList[i]? = some m → m.uid = i := by
    intro i m hm
    rw [Array.getElem?_toList] at hm
    exact hg.uid_node hm
  have hbelow : (g.nodes.toList.take k).filter (·.uid < k) = g.nodes.toList.take k := by
    rw [List.filter_eq_self]
    intro m hm
    obtain ⟨i, hi⟩ := List.mem_iff_getElem?.mp hm
    rw [List.getElem?_take] at hi
    split_ifs at hi with hlt
    exact decide_eq_true (huid i m hi ▸ hlt)
  have habove : (g.nodes.toList.drop k).filter (·.uid < k) = [] := by
    rw [List.filter_eq_nil_iff]
    intro m hm
    obtain ⟨i, hi⟩ := List.mem_iff_getElem?.mp hm
    rw [List.getElem?_drop] at hi
    simp [huid _ m hi]
  calc g.nodes.toList.take k
      = (g.nodes.toList.take k ++ g.nodes.toList.drop k).filter (·.uid < k) := by
        rw [List.filter_append, hbelow, habove, List.append_nil]
    _ = g.nodes.toList.filter (·.uid < k) := by rw [List.take_append_drop]

/-- The list of a call holds the earlier nodes that are looked through for producers. -/
theorem traceBefore_members (hg : Formed g.outlines) {x : Instruction}
    (hx : n.instruction = some x) (limit : Nat) :
    (g.traceBefore limit n).map (·.uid) =
      ((g.members (n.function, x.tx)).reverse.filter (· < n.uid)).take limit := by
  have htrace : ∀ m : Node, (decide (m.function = n.function) && decide (m.tx? = some x.tx)) =
      n.sameTrace m := by
    intro m
    simp only [Node.sameTrace, show n.tx? = some x.tx by rw [Node.tx?, hx]; rfl, eq_comm]
  unfold traceBefore members
  rw [if_neg (by simp [hx]), take_nodes_eq_filter hg, List.map_take, ← List.map_reverse,
    List.filter_map, ← List.filter_reverse, ← List.filter_reverse]
  simp only [htrace, List.filter_filter, Function.comp_def, Bool.and_comm]

end Graph

namespace Arena

variable {host : Host} {g : Graph} {st : Arena} {uid : NodeId} {n : Node}

/-! ### Chains -/

theorem Holds.isTaken (h : st.Holds host g) (hg : g.Sound) (jump next : NodeId) :
    isTaken jump next st = (g.isTaken? jump next).map (·, st) := by
  unfold Arena.isTaken Graph.isTaken?
  rw [item_bind_apply, h.node? jump]
  cases st.items[jump]? with
  | none => rfl
  | some x =>
    simp only [Option.bind_some, Option.map_some, Option.bind_eq_bind]
    rw [Item.is_node]
    cases x.is .jumpi with
    | false => rfl
    | true =>
      have hnode := h.node? next
      simp only [if_true, item_bind_apply, hnode]
      cases hy : st.items[next]? with
      | none => rfl
      | some y =>
        rw [hy] at hnode
        obtain ⟨slot, rest, hslots⟩ := hg.exists_slot hnode
        obtain ⟨f, hf, rfl⟩ : ∃ f, y.fields[0]? = some f ∧ f.slot host.options = slot := by
          rw [← Option.map_eq_some_iff, ← Item.getElem?_slots_node, hslots]
          rfl
        simp only [Option.bind_some, Option.map_some, Node.predsAt_zero hslots]
        rw [Item.is_node]
        cases y.is .jumpdest with
        | false => rfl
        | true =>
          simp only [if_true, field_bind_apply, hy, Option.bind_some, hf]
          rfl

theorem Holds.trail (h : st.Holds host g) (hg : g.Sound) (chain : List NodeId) :
    trail chain st = (g.trail? chain).map (·, st) := by
  induction chain using Graph.trail?.induct with
  | case1 => rfl
  | case2 uid => rfl
  | case3 uid next rest ih =>
    rw [Arena.trail, Graph.trail?]
    change ((Arena.isTaken uid next st).bind fun p => _) = _
    rw [h.isTaken hg]
    cases g.isTaken? uid next with
    | none => rfl
    | some taken =>
      change ((Arena.trail (next :: rest) st).bind fun p => _) = _
      rw [ih]
      cases g.trail? (next :: rest) <;> rfl

namespace Meets

theorem trail (hg : g.Sound) {chain leaders : List NodeId} (h : g.trail? chain = some leaders) :
    Meets host g (trail chain) leaders g [] :=
  fun st hst => ⟨st, by rw [hst.trail hg, h, Option.map_some], hst, rfl⟩

theorem stepBack (hg : g.Sound) {leader : NodeId} (hleader : leader < g.size)
    (entry : Option NodeId) :
    Meets host g (stepBack entry leader) (g.stepBack entry leader) g [] := by
  obtain ⟨n, hn⟩ := Graph.exists_node?_of_lt hleader
  obtain ⟨slot, rest, hslots⟩ := hg.exists_slot hn
  unfold Arena.stepBack Graph.stepBack
  simp only [hn, Node.predsAt_zero hslots]
  refine item_bind hn fun x hx _ => ?_
  have hentry : x.isEntry = n.isEntry := hx ▸ rfl
  have hdest : x.is .jumpdest = n.is .jumpdest := hx ▸ rfl
  have hlead : x.leader? = n.leader? := hx ▸ rfl
  rw [hentry, hdest, hlead]
  split_ifs
  · exact pure _
  · refine field_bind hn (by rw [hslots]; rfl) fun y hy => ?_
    have hpreds : y.preds = slot.preds := hy ▸ rfl
    rw [hpreds]
    cases hp : slot.preds with
    | nil => exact pure _
    | cons p preds =>
      have hmem : p ∈ n.predsAt 0 := by rw [Node.predsAt_zero hslots, hp]; exact List.mem_cons_self
      obtain ⟨m, hm⟩ := Graph.exists_node?_of_lt
        (hg.lt_size_of_fedBy hn (Node.fedBy_of_mem_predsAt hmem))
      simp only [hm]
      refine item_bind hm fun z hz _ => ?_
      have hentry : z.isEntry = m.isEntry := hz ▸ rfl
      have hjump : z.is .jumpi = m.is .jumpi := hz ▸ rfl
      have hlead : z.leader? = m.leader? := hz ▸ rfl
      rw [hentry, hjump, hlead]
      split_ifs <;> exact pure _
  · exact pure _

theorem chainTo (hg : g.Sound) (entry : Option NodeId) {leader : NodeId}
    (hleader : leader < g.size) :
    Meets host g (chainTo entry leader) (g.chainTo entry leader) g [] := by
  induction leader using Nat.strongRecOn with
  | ind leader ih =>
    rw [Arena.chainTo, Graph.chainTo]
    refine quiet_bind (stepBack hg hleader entry) ?_
    obtain ⟨next, taken⟩ := g.stepBack entry leader
    dsimp only
    cases next with
    | none => exact pure _
    | some l =>
      dsimp only
      split_ifs with hl
      · exact (ih l hl (Nat.lt_trans hl hleader)).map fun earlier => earlier ++ taken ++ [leader]
      · exact pure _

theorem leaderChain (hg : g.Sound) (uid : NodeId) :
    Meets host g (leaderChain uid) (g.leaderChain uid) g [] := by
  refine item?_bind fun x hx => ?_
  cases x with
  | none =>
    rw [Option.map_none] at hx
    simp only [Graph.leaderChain, Graph.node, ← hx]
    exact pure _
  | some x =>
    rw [Option.map_some] at hx
    refine quiet_bind (sentinelsOf hx.symm) ?_
    cases hlead : x.leader? with
    | none =>
      rw [Graph.leaderChain_of_leader_eq_none hx.symm hlead]
      exact pure _
    | some leader =>
      rw [Graph.leaderChain_of_leader hx.symm hlead, Graph.boundaries?_of_node? hx.symm]
      exact (chainTo hg _ (hg.lt_size_of_leader hx.symm hlead)).map Except.ok

/-! ### Candidates -/

theorem keep {p : Item → Bool} {q : Node → Bool} (hp : ∀ x : Item, p x = q (x.node host.options))
    {ids : List NodeId} (hids : ∀ i ∈ ids, i < g.size) :
    Meets host g (keep p ids) (ids.filter fun i => (g.node? i).any q) g [] := by
  induction ids with
  | nil => exact pure _
  | cons i ids ih =>
    obtain ⟨n, hn⟩ := Graph.exists_node?_of_lt (hids i List.mem_cons_self)
    have hrest := ih fun j hj => hids j (List.mem_cons_of_mem i hj)
    refine item_bind hn fun x hx _ => ?_
    rw [hp, hx, List.filter_cons, hn, Option.any_some]
    exact hrest.map fun kept => if q n then i :: kept else kept

/-- The nodes with `q` among some that are there. -/
theorem keep_nodes {p : Item → Bool} {q : Node → Bool}
    (hp : ∀ x : Item, p x = q (x.node host.options)) {ns : List Node}
    (hns : ∀ n ∈ ns, g.node? n.uid = some n) :
    Meets host g (Arena.keep p (ns.map (·.uid))) ((ns.filter q).map (·.uid)) g [] := by
  have hids : ∀ i ∈ ns.map (·.uid), i < g.size := by
    intro i hi
    obtain ⟨n, hn, rfl⟩ := List.mem_map.mp hi
    exact Graph.lt_size_of_node? (hns n hn)
  have hfilter : (ns.map (·.uid)).filter (fun i => (g.node? i).any q) =
      (ns.filter q).map (·.uid) := by
    rw [List.filter_map]
    congr 1
    exact List.filter_congr fun n hn => by rw [Function.comp_apply, hns n hn, Option.any_some]
  exact hfilter ▸ keep hp hids

theorem membersBefore (hg : g.Sound) (hn : g.node? uid = some n) :
    Meets host g (membersBefore uid) ((g.traceBefore host.options.reach n).map (·.uid)) g [] := by
  have hformed := hg.consistent.causal.formed
  refine item_bind hn fun x hx _ => get_bind fun st h => ?_
  obtain rfl := hg.uid_eq hn
  have htx : x.tx? = n.instruction.map (·.tx) := hx ▸ rfl
  have hfunction : x.function = n.function := hx ▸ rfl
  rw [htx, hfunction, h.host_eq]
  cases hinstr : n.instruction with
  | none =>
    rw [Graph.traceBefore, hinstr]
    exact pure _
  | some y =>
    have hmembers : (Graph.entered (g.members (n.function, y.tx))).getD [] =
        g.members (n.function, y.tx) := by
      unfold Graph.entered
      cases g.members (n.function, y.tx) <;> rfl
    simp only [Option.map_some, h.members, hmembers,
      Graph.traceBefore_members hformed hinstr]
    exact pure _

/-- The nodes with `q` among the earlier nodes of the same call. -/
theorem keep_members {p : Item → Bool} {q : Node → Bool} (hg : g.Sound)
    (hn : g.node? uid = some n) (hp : ∀ x : Item, p x = q (x.node host.options)) :
    Meets host g (do Arena.keep p (← Arena.membersBefore uid))
      (((g.traceBefore host.options.reach n).filter q).map (·.uid)) g [] :=
  bind (membersBefore hg hn)
    (keep_nodes hp fun _ hm => (Graph.mem_traceBefore hg.consistent.causal.formed hm).1)

theorem liveBefore (hg : g.Sound) (hn : g.node? uid = some n) :
    Meets host g (liveBefore uid) ((g.liveBefore host.options.reach n).map (·.uid)) g [] :=
  keep_members (q := fun m => !m.isDeleted) hg hn fun _ => rfl

theorem candidates (hg : g.Sound) (hn : g.node? uid = some n) :
    Meets host g (candidates uid) ((g.candidates host.options.reach n).map (·.uid)) g [] := by
  obtain rfl := hg.uid_eq hn
  obtain ⟨chain, hchain⟩ := Graph.exists_leaderChain hn
  obtain ⟨leaders, hleaders⟩ := Graph.exists_trail (Graph.lt_size_of_mem_leaderChain hg hchain)
  have hcandidates : g.candidates host.options.reach n =
      (g.traceBefore host.options.reach n).filter fun m =>
        !m.isDeleted && m.leader?.any leaders.contains := by
    simp only [Graph.candidates, Graph.liveBefore, Graph.leadersTo, hchain, hleaders,
      Option.getD_some, List.filter_filter, Bool.and_comm]
  rw [hcandidates]
  refine quiet_bind (leaderChain hg n.uid) ?_
  rw [hchain]
  exact quiet_bind (trail hg hleaders) (keep_members
    (q := fun m => !m.isDeleted && m.leader?.any leaders.contains) hg hn fun _ => rfl)

end Meets
end Arena
end OperandFlow
