import OperandFlow.Proofs.Arena.Growth
import OperandFlow.Proofs.Graph.Census

/-! Questions to an arena have the answers that the graph gives. -/
namespace OperandFlow

variable {α β ε : Type} {host : Host} {g : Graph} {st : Arena} {uid : NodeId} {n : Node}

theorem Logged.mapOk_pure (q : α → Except ε β) (l : List α) :
    mapOk (fun a => pure (q a)) l = pure (l.mapM q) := by
  induction l with
  | nil => rfl
  | cons a l ih =>
    rw [mapOk, List.mapM_cons, ih]
    cases q a with
    | error e => rfl
    | ok b => cases l.mapM q <;> rfl

namespace Arena

/-- The names in the table of sentinels are the functions, in their order. -/
theorem Holds.functions (h : st.Holds host g) (hg : Formed g.outlines) :
    st.sentinels.map (·.1) = g.functions := by
  have hordered : (st.sentinels.map (·.1)).Pairwise (· < ·) :=
    List.pairwise_map.mpr (h.ordered.imp of_decide_eq_true)
  have hmem : ∀ function, function ∈ st.sentinels.map (·.1) ↔ function ∈ g.functions := by
    intro function
    have hlisted : function ∈ st.sentinels.map (·.1) ↔ (g.sentinels? function).isSome := by
      rw [← h.sentinels, List.lookup_isSome_iff, List.mem_map]
      simp only [beq_iff_eq, eq_comm (a := function)]
    rw [hlisted, Graph.sentinels?, Graph.functions, List.mem_mergeSort]
    rw [Option.isSome_map, Array.find?_isSome, List.mem_map]
    simp only [List.mem_filter, Array.mem_toList_iff, Bool.and_eq_true, decide_eq_true_eq,
      and_assoc]
  have hperm : (st.sentinels.map (·.1)).Perm g.functions :=
    (List.perm_ext_iff_of_nodup (hordered.imp String.ne_of_lt) (Graph.nodup_functions hg)).mpr hmem
  have hle : (st.sentinels.map (·.1)).Pairwise (· ≤ ·) := hordered.imp fun hlt =>
    String.not_lt.mp fun hge => String.lt_irrefl _ (String.lt_trans hlt hge)
  refine hperm.eq_of_pairwise (fun a b _ _ => String.le_antisymm) hle ?_
  refine (List.pairwise_mergeSort ?_ ?_ _).imp of_decide_eq_true
  · intro a b c hab hbc
    exact decide_eq_true (String.le_trans (of_decide_eq_true hab) (of_decide_eq_true hbc))
  · intro a b
    rw [Bool.or_eq_true, decide_eq_true_eq, decide_eq_true_eq]
    exact String.le_total a b

theorem attempt_apply {x : InPlace α} {y : Option α} (h : x st = y.map (·, st)) :
    attempt x st = some (y, st) := by
  unfold attempt
  rw [h]
  cases y <;> rfl

theorem Holds.entrances (h : st.Holds host g) (chain : List NodeId) :
    entrances chain st = (g.entrances? chain).map (·, st) := by
  induction chain using Graph.entrances?.induct with
  | case1 a b rest ih =>
    rw [Arena.entrances, Graph.entrances?, item_bind_apply, h.node? a, h.node? b]
    cases st.items[a]? with
    | none => rfl
    | some x =>
      rw [Option.bind_some, item_bind_apply]
      cases st.items[b]? with
      | none => rfl
      | some y =>
        rw [Option.bind_some, bind_apply, ih]
        cases g.entrances? (b :: rest) <;> rfl
  | case2 chain hchain =>
    rcases chain with _ | ⟨a, _ | ⟨b, rest⟩⟩
    · rfl
    · rfl
    · exact absurd rfl (hchain a b rest)

theorem Holds.loopBounds (h : st.Holds host g) (chain : List NodeId) :
    loopBounds chain st =
      (g.loopBounds? host.options.loopThreshold chain).map (·, st) := by
  unfold Arena.loopBounds Graph.loopBounds?
  rw [get_bind_apply, bind_apply, h.entrances, h.host_eq]
  cases g.entrances? chain <;> rfl

namespace Meets

theorem mapOk {f : α → InPlace (Except ε β)} {q : α → Logged (Except ε β)} {l : List α}
    (h : ∀ a ∈ l, Answers host g (f a) (q a)) :
    Answers host g (mapOk f l) (Logged.mapOk q l) := by
  induction l with
  | nil => exact pure _
  | cons a l ih =>
    have hrest := ih fun b hb => h b (List.mem_cons_of_mem a hb)
    unfold Answers Arena.mapOk Logged.mapOk
    simp only [Logged.value_bind, Logged.events_bind]
    refine bind (h a List.mem_cons_self) ?_
    cases (q a).value with
    | error e => exact pure _
    | ok b => exact bind hrest (pure _)

theorem mapOk_quiet {f : α → InPlace (Except ε β)} {q : α → Except ε β} {l : List α}
    (h : ∀ a ∈ l, Meets host g (f a) (q a) g []) :
    Meets host g (Arena.mapOk f l) (l.mapM q) g [] := by
  have hlogged := mapOk (q := fun a => Pure.pure (q a)) h
  rwa [Logged.mapOk_pure] at hlogged

theorem mapM_quiet {f : α → InPlace β} {q : α → β} {l : List α}
    (h : ∀ a ∈ l, Meets host g (f a) (q a) g []) : Meets host g (l.mapM f) (l.map q) g [] := by
  induction l with
  | nil => exact pure _
  | cons a l ih =>
    rw [List.mapM_cons]
    exact quiet_bind (h a List.mem_cons_self)
      (quiet_bind (ih fun b hb => h b (List.mem_cons_of_mem a hb)) (pure _))

/-! ### Nodes -/

theorem node (uid : NodeId) : Meets host g (node uid) (g.node uid) g [] := by
  refine item?_bind fun x hx => ?_
  rw [Graph.node, ← hx]
  cases x with
  | none => exact pure _
  | some x =>
    refine get_bind fun st h => ?_
    rw [h.host_eq]
    exact pure _

theorem report (hg : g.Sound) (uid : NodeId) : Answers host g (report uid) (g.report uid) := by
  unfold Answers Graph.report
  refine item?_bind fun x hx => ?_
  cases x with
  | none =>
    rw [← hx]
    exact pure _
  | some x =>
    rw [Option.map_some] at hx
    rw [← hx]
    have hoperands : Answers host g
        (x.fields.zipIdx.mapM fun f => do
          return (← Arena.look uid (.operand f.2)).canonical)
        (Logged.map (fun s : Slot => Graph.consult s.datum) (x.node host.options).slots) := by
      unfold Answers
      rw [← x.slots_zipIdx, ← List.map_id (Logged.value _)]
      refine mapM _ id fun f hf => (look hx.symm ?_).map Operand.canonical
      exact Item.datumAt_operand (List.mem_zipIdx_iff_getElem?.mp hf)
    have huid : x.uid = uid := hg.uid_eq hx.symm
    have hpreds : (x.node host.options).slots.map (·.preds) = x.fields.map (·.preds) := by
      rw [Item.slots_node, List.map_map]
      rfl
    simp only [Graph.reportOf, Logged.value_bind, Logged.events_bind, Logged.value_pure,
      Logged.events_pure, List.append_nil, hpreds]
    refine bind hoperands ?_
    rw [show (x.node host.options).output = x.output.map (·.datum host.options) from rfl]
    cases houtput : x.output with
    | none => exact huid ▸ pure _
    | some c =>
      refine bind (look hx.symm ?_) (huid ▸ pure _)
      rw [Item.datumAt_node, Item.cell?, houtput]
      rfl

theorem hasOpcode (uid : NodeId) (opcode : Opcode) :
    Meets host g (do return (← item? uid).any (·.is opcode)) ((g.node? uid).any (·.is opcode)) g
      [] := by
  refine item?_bind fun x hx => ?_
  rw [← hx]
  cases x <;> exact pure _

/-! ### Paths and loops -/

theorem terminals (function : String) :
    Meets host g (terminals function) (g.terminals function) g [] := by
  refine get_bind fun st h => ?_
  rw [Graph.terminals, h.sentinels, h.nodes]
  cases g.sentinels? function with
  | none => exact pure _
  | some s =>
    simp only [List.filter_map, List.map_map]
    exact pure _

theorem loopBounds {chain : List NodeId} {span : Option (NodeId × NodeId)}
    (h : g.loopBounds? host.options.loopThreshold chain = some span) :
    Meets host g (loopBounds chain) span g [] :=
  fun st hst => ⟨st, by rw [hst.loopBounds, h, Option.map_some], hst, rfl⟩

theorem pathTo (hg : g.Sound) {function : String} {terminal : NodeId} (entry : NodeId)
    (ht : terminal ∈ g.terminals function) :
    Answers host g (pathTo function entry terminal) (g.pathTo function entry terminal) := by
  obtain ⟨n, hn, hfunction⟩ := Graph.exists_terminal hg.consistent.causal.formed ht
  unfold Answers Graph.pathTo
  refine quiet_bind (leaderChain hg terminal) ?_
  cases hchain : g.leaderChain terminal with
  | error e => exact pure _
  | ok chain =>
    obtain ⟨leaders, hleaders⟩ := Graph.exists_trail (Graph.lt_size_of_mem_leaderChain hg hchain)
    refine quiet_bind (trail hg hleaders) (item_bind hn fun x hx _ => get_bind fun st h => ?_)
    have hnodes : (st.items.toList.filter fun y =>
        y.function = function && y.tx? = x.tx? && y.uid ≤ terminal && !y.isDeleted &&
          (y.leader?.any leaders.contains || leaders.contains y.uid)).map (·.uid) =
        g.executed n leaders := by
      have huid := hg.uid_eq hn
      have htx : x.tx? = n.tx? := hx ▸ rfl
      rw [Graph.executed, h.nodes, List.filter_map, List.map_map, htx, ← hfunction, ← huid]
      refine congrArg (List.map _) (List.filter_congr fun y _ => ?_)
      have hsame : n.sameTrace (y.node host.options) =
          (decide (y.function = n.function) && decide (y.tx? = n.tx?)) := by
        rw [Node.sameTrace, Bool.eq_iff_iff]
        simp only [Bool.and_eq_true, decide_eq_true_eq, eq_comm (a := n.function),
          eq_comm (a := n.tx?)]
        rfl
      rw [Function.comp_apply, hsame]
      rfl
    simp only [hnodes, hleaders, hn, Option.map_some, Option.getD_some]
    exact (note _).map fun _ => _

theorem paths (hg : g.Sound) (function : String) :
    Answers host g (paths function) (g.paths function) := by
  unfold Answers Graph.paths
  refine get_bind fun st h => ?_
  rw [h.sentinels]
  cases g.sentinels? function with
  | none => exact pure _
  | some s => exact quiet_bind (terminals function) (mapOk fun t ht => pathTo hg s.entry ht)

theorem repetition (hg : g.Sound) (function : String) (terminal : NodeId) :
    Meets host g (repetition function terminal)
      (g.repetition host.options.loopThreshold function terminal) g [] := by
  refine quiet_bind (leaderChain hg terminal) ?_
  cases hchain : g.leaderChain terminal with
  | error e =>
    rw [Graph.repetition, hchain]
    exact pure _
  | ok chain =>
    obtain ⟨span, hspan⟩ := Graph.exists_loopBounds (Graph.lt_size_of_mem_leaderChain hg hchain)
      host.options.loopThreshold
    have hvalue : g.repetition host.options.loopThreshold function terminal =
        .ok ⟨function, terminal, chain, span⟩ := by
      rw [Graph.repetition, hchain, ← Option.getD_some (a := span), ← hspan]
      rfl
    rw [hvalue]
    exact quiet_bind (loopBounds hspan) (pure _)

theorem repetitions (hg : g.Sound) :
    Meets host g repetitions (g.repetitions host.options.loopThreshold) g [] := by
  unfold Graph.repetitions
  refine get_bind fun st h => ?_
  rw [h.functions hg.consistent.causal.formed]
  refine (mapOk_quiet fun function _ => quiet_bind (terminals function)
    (mapOk_quiet fun terminal _ => repetition hg function terminal)).map _

/-! ### Origins and ancestors -/

theorem isOrigin (hg : g.Sound) (uid : NodeId) :
    Meets host g (isOrigin uid) (g.isOrigin uid) g [] := by
  refine item?_bind fun x hx => ?_
  rw [Graph.isOrigin, ← hx]
  cases x with
  | none => exact pure _
  | some x =>
    rw [Option.map_some, Option.map_some, Option.map_some, Item.predecessors_node]
    rcases hpreds : x.predecessors with _ | ⟨only, _ | ⟨_, _⟩⟩
    · exact pure _
    · have hfed : (x.node host.options).FedBy only := by
        rw [← Node.mem_predecessors, Item.predecessors_node, hpreds]
        exact List.mem_singleton_self only
      obtain ⟨m, hm⟩ := Graph.exists_node?_of_lt (hg.lt_size_of_fedBy hx.symm hfed)
      refine item_bind hm fun y hy _ => ?_
      simp only [hm, ← hy, Option.any_some]
      exact pure _
    · exact pure _

theorem writesOf (hg : g.Sound) {x : Item} (hx : g.node? uid = some (x.node host.options)) :
    Meets host g (writesOf x) ((Graph.writesOf (x.node host.options)).map fun write =>
      (write, g.writtenFrom write)) g [] := by
  have hwrites : Graph.writesOf (x.node host.options) =
      if x.is .sload then (x.fields[1]?.map (·.preds)).getD [] else [] := by
    rw [Graph.writesOf, Item.is_node, Node.predsAt, Item.getElem?_slots_node, Option.map_map]
    rfl
  have hthere : ∀ write ∈ Graph.writesOf (x.node host.options), write < g.size := by
    intro write hwrite
    unfold Graph.writesOf at hwrite
    split_ifs at hwrite
    · exact hg.lt_size_of_fedBy hx (Node.fedBy_of_mem_predsAt hwrite)
    · cases hwrite
  unfold Arena.writesOf
  rw [← hwrites]
  refine mapM_quiet fun write hwrite => ?_
  obtain ⟨m, hm⟩ := Graph.exists_node?_of_lt (hthere write hwrite)
  refine item_bind hm fun y hy _ => ?_
  rw [Graph.writtenFrom, hm, ← hy, Option.map_some, Node.predsAt, Item.getElem?_slots_node,
    Option.map_map]
  exact pure _

theorem visitOrigin (hg : g.Sound) (found : Origins) (uid : NodeId) :
    Meets host g (visitOrigin found uid) (g.visitOrigin found uid) g [] := by
  refine item?_bind fun x hx => ?_
  cases x with
  | none =>
    rw [Graph.visitOrigin, ← hx]
    exact pure _
  | some x =>
    rw [Graph.visitOrigin, ← hx]
    refine get_bind fun st h => ?_
    rw [h.host_eq, Option.map_some]
    dsimp only
    by_cases hends : Graph.endsSearch (x.node host.options) = true
    · rw [if_pos hends, if_pos hends]
      exact pure _
    rw [if_neg hends, if_neg hends]
    refine quiet_bind (isOrigin hg uid) ?_
    cases g.isOrigin uid with
    | true => exact pure _
    | false =>
      refine quiet_bind (writesOf hg hx.symm) ?_
      have hconstants : (((Graph.writesOf (x.node host.options)).map fun write =>
          (write, g.writtenFrom write)).filter (·.2.isEmpty)).map (·.1) =
          g.constantWritesOf (x.node host.options) := by
        rw [List.filter_map, List.map_map]
        exact List.map_id _
      have hslots : (x.node host.options).slots.flatMap (·.preds) = x.fields.flatMap (·.preds) := by
        rw [Item.slots_node, List.flatMap_map]
        rfl
      have hfirst : (x.node host.options).predsAt 0 = (x.fields[0]?.map (·.preds)).getD [] := by
        rw [Node.predsAt, Item.getElem?_slots_node, Option.map_map]
        rfl
      simp only [Graph.behind, hconstants, hslots, hfirst, List.isEmpty_map, List.flatMap_map]
      rw [Item.is_node]
      exact pure _

theorem searchOrigins (hg : g.Sound) (left : Nat) (s : Graph.OriginSearch)
    (queue : List (NodeId × Nat)) :
    Meets host g (searchOrigins left s queue) (g.searchOrigins left s queue) g [] := by
  induction left generalizing s queue with
  | zero => 
    cases queue with
    | nil => exact pure _
    | cons p queue => exact pure _
  | succ left ih =>
    cases queue with
    | nil => exact pure _
    | cons p queue =>
      rw [Arena.searchOrigins, Graph.searchOrigins]
      dsimp only
      split_ifs
      · exact ih _ _
      · exact quiet_bind (visitOrigin hg s.found p.1) (ih _ _)

theorem origins (hg : g.Sound) (seeds : List NodeId) (limit : Nat) :
    Answers host g (origins seeds limit) (g.origins host seeds limit) := by
  unfold Answers Graph.origins
  refine quiet_bind (searchOrigins hg limit _ _) ?_
  generalize g.searchOrigins limit ⟨.none, [], none, 0⟩ (seeds.map (·, 0)) = s
  dsimp only
  cases s.stopped with
  | none => 
    refine bind (note _) (get_bind fun st h => ?_)
    rw [h.host_eq]
    exact bind (note _) (pure _)
  | some depth =>
    refine bind (note _) (bind (note _) (get_bind fun st h => ?_))
    rw [h.host_eq]
    exact bind (note _) (pure _)

theorem originsOfSlot (hg : g.Sound) (uid : NodeId) (slot : Nat) :
    Answers host g (originsOfSlot uid slot) (g.originsOfSlot host uid slot) := by
  unfold Answers Graph.originsOfSlot
  refine item?_bind fun x hx => ?_
  cases x with
  | none =>
    rw [← hx]
    exact pure _
  | some x =>
    refine item_bind hx.symm fun y hy _ => ?_
    have hopcode : y.opcode? = x.opcode? := congrArg Node.opcode? hy
    rw [← hx, hopcode, Option.map_some]
    dsimp only
    rw [Item.getElem?_slots_node]
    cases x.fields[slot]? with
    | none => exact pure _
    | some f =>
      refine get_bind fun st h => ?_
      rw [h.host_eq]
      exact bind (origins hg f.preds host.options.originLimit) (pure _)

theorem searchAncestor (hg : g.Sound) (opcode : Opcode) (left : Nat) (visited : List NodeId)
    {queue : List NodeId} (hqueue : ∀ i ∈ queue, i < g.size) :
    Meets host g (searchAncestor opcode left visited queue)
      (g.searchAncestor opcode left visited queue) g [] := by
  induction left generalizing visited queue with
  | zero => cases queue <;> exact pure _
  | succ left ih =>
    cases queue with
    | nil => exact pure _
    | cons uid queue =>
      obtain ⟨huid, hrest⟩ := List.forall_mem_cons.mp hqueue
      obtain ⟨n, hn⟩ := Graph.exists_node?_of_lt huid
      rw [Arena.searchAncestor, Graph.searchAncestor, hn]
      by_cases hseen : uid ∈ visited
      · rw [if_pos hseen, if_pos hseen]
        exact ih visited hrest
      rw [if_neg hseen, if_neg hseen]
      refine item_bind hn fun x hx _ => ?_
      have his : x.is opcode = n.is opcode := hx ▸ rfl
      have hpreds : x.predecessors = n.predecessors := hx ▸ x.predecessors_node.symm
      rw [his, hpreds]
      dsimp only
      split_ifs
      · exact pure _
      · refine ih _ fun i hi => ?_
        rcases List.mem_append.mp hi with hi | hi
        · exact hrest i hi
        · exact hg.lt_size_of_fedBy hn ((n.mem_predecessors i).mp hi)

theorem ancestor (hg : g.Sound) (uid : NodeId) (opcode : Opcode) :
    Answers host g (ancestor uid opcode) (g.ancestor? host uid opcode) := by
  unfold Answers Graph.ancestor?
  refine item?_bind fun x hx => ?_
  cases x with
  | none =>
    rw [← hx]
    exact pure _
  | some x =>
    refine get_bind fun st h => ?_
    rw [h.host_eq, ← hx, Option.map_some]
    dsimp only
    rw [Item.predecessors_node]
    refine quiet_bind (searchAncestor hg opcode _ [] fun i hi =>
      hg.lt_size_of_fedBy hx.symm ((Node.mem_predecessors _ i).mp (x.predecessors_node ▸ hi))) ?_
    cases g.searchAncestor opcode host.options.reach [] x.predecessors with
    | found ancestor => exact pure _
    | absent => exact pure _
    | exhausted => exact bind (note _) (pure _)

theorem unsupplied (uid : NodeId) : Meets host g (unsupplied uid) (g.unsupplied uid) g [] := by
  refine item?_bind fun x hx => ?_
  rw [Graph.unsupplied, Graph.node, ← hx]
  cases x with
  | none => exact pure _
  | some x =>
    have hslots : ((x.node host.options).slots.zipIdx.filter fun s =>
        s.1.preds.isEmpty && !s.1.value.isEmpty).map (·.2) =
        (x.fields.zipIdx.filter fun f => f.1.preds.isEmpty && !f.1.value.isEmpty).map (·.2) := by
      rw [Item.slots_node, List.zipIdx_map, List.filter_map, List.map_map]
      rfl
    change Meets host g (if x.isSentinel || x.isDeleted then _ else _)
      (if x.isSentinel || x.isDeleted then _ else Except.ok (List.map _ (List.filter _ _))) g []
    split_ifs
    · exact pure _
    · exact hslots ▸ pure _

/-! ### Shapes -/

/-- Several nodes that are there. -/
theorem items_bind {f : List Item → InPlace α} {a : α} {g' : Graph} {es : List Event}
    {ns : List Node} (hns : ∀ n ∈ ns, g.node? n.uid = some n)
    (hf : ∀ xs : List Item, xs.map (·.node host.options) = ns → Meets host g (f xs) a g' es) :
    Meets host g ((ns.map (·.uid)).mapM item >>= f) a g' es := by
  induction ns generalizing f with
  | nil => exact hf [] rfl
  | cons n ns ih =>
    obtain ⟨hn, hrest⟩ := List.forall_mem_cons.mp hns
    rw [List.map_cons, List.mapM_cons, bind_assoc]
    refine item_bind hn fun x hx _ => ?_
    rw [bind_assoc]
    refine ih hrest fun xs hxs => ?_
    rw [pure_bind]
    exact hf (x :: xs) (by rw [List.map_cons, hx, hxs])

theorem shape (hg : g.Sound) (function : String) :
    Meets host g (shape function) (g.shape function) g [] := by
  refine get_bind fun st h => get_bind fun st' h' => ?_
  have hids : (st'.items.toList.filter fun x =>
      x.function = function && !x.isSentinel && !x.isDeleted).map (·.uid) =
      (g.shapeNodes function).map (·.uid) := by
    rw [Graph.shapeNodes, h'.nodes, List.filter_map, List.map_map]
    rfl
  rw [hids, h.host_eq]
  refine items_bind (fun n hn => ?_) fun xs hxs => ?_
  · obtain ⟨i, hi⟩ := Graph.mem_nodes_iff.mp (List.mem_of_mem_filter hn)
    exact hg.uid_eq hi ▸ hi
  · have hshape : g.shape function =
        .ofLists (xs.zipIdx.map fun p => (p.2, Graph.labelOf (p.1.node host.options)))
          (xs.zipIdx.flatMap fun p => (p.1.predecessors.filterMap fun q =>
            ((g.shapeNodes function).map (·.uid)).idxOf? q).map (·, p.2)) := by
      unfold Graph.shape
      simp only [← hxs, List.zipIdx_map, List.map_map, List.flatMap_map, Prod.map_fst, Prod.map_snd,
        id_eq, Item.predecessors_node]
      rfl
    rw [hshape]
    exact pure _

theorem fingerprint (hg : g.Sound) (function : String) :
    Meets host g (fingerprint function) (g.fingerprint function) g [] :=
  (shape hg function).map _

end Meets
end Arena
end OperandFlow
