import OperandFlow.Proofs.Arena.Representation

/-! Values and edges in an arena. A look at a value fills its cell and changes nothing that a client
finds; links are made and nodes removed as in the graph, with the one slot of the exit standing for
all of its slots. -/
namespace OperandFlow

theorem Graph.update_id (g : Graph) (uid : NodeId) : g.update uid id = g := by
  refine Graph.ext_node? (fun i => ?_) rfl
  rw [node?_update, Option.map_id, id, ite_self]

/-! ### Values -/

/-- The value that is meant by a spot. -/
def Node.datumAt (n : Node) : Spot → Option Datum
  | .operand i => n.slots[i]?.map (·.datum)
  | .output => n.output

theorem Node.datumAt_operand {n : Node} {i : Nat} {s : Slot} (hs : n.slots[i]? = some s) :
    n.datumAt (.operand i) = some s.datum := by
  rw [datumAt, hs, Option.map_some]

namespace Item

variable {o : Options} {x : Item}

theorem datumAt_node (x : Item) (spot : Spot) :
    (x.node o).datumAt spot = (x.cell? spot).map (·.datum o) := by
  cases spot with
  | operand i =>
    rw [Node.datumAt, getElem?_slots_node, Option.map_map, cell?, Option.map_map]
    rfl
  | output => rfl

theorem datumAt_operand {i : Nat} {f : Field} (hf : x.fields[i]? = some f) :
    (x.node o).datumAt (.operand i) = some (f.cell.datum o) := by
  rw [datumAt_node, cell?, hf, Option.map_some, Option.map_some]

theorem node_onCell_fill (x : Item) (spot : Spot) :
    (x.onCell (Cell.fill o) spot).node o = x.node o := by
  cases spot with
  | operand i =>
    have hslot : ∀ s : Field, Field.slot o { s with cell := s.cell.fill o } = id (s.slot o) :=
      fun s => rfl
    rw [onCell, x.node_onField hslot, List.modify_id]
  | output =>
    unfold onCell node
    dsimp only
    rw [Option.map_map]
    rfl

theorem Consistent.onCell_fill (h : x.Consistent o) (spot : Spot) :
    (x.onCell (Cell.fill o) spot).Consistent o := by
  cases spot with
  | operand i => exact h.onField fun s _ hs => hs.fill
  | output =>
    refine ⟨h.fields, ?_⟩
    intro c hc
    obtain ⟨c', hc', rfl⟩ := Option.map_eq_some_iff.mp hc
    exact (h.output c' hc').fill

theorem Consistent.map_fields {f : Field → Field} (h : x.Consistent o)
    (hf : ∀ s, (f s).cell = s.cell) :
    ({ x with fields := x.fields.map f } : Item).Consistent o := by
  refine ⟨?_, h.output⟩
  intro s hs
  obtain ⟨s', hs', rfl⟩ := List.mem_map.mp hs
  rw [hf]
  exact h.fields s' hs'

/-! ### Edges of a node -/

theorem node_addSuccessor (x : Item) (succ : NodeId) :
    (x.addSuccessor succ).node o = (x.node o).addSuccessor succ := by
  unfold addSuccessor Node.addSuccessor
  rw [show (x.node o).successors = x.successors from rfl]
  split_ifs <;> rfl

theorem Consistent.addSuccessor (h : x.Consistent o) (succ : NodeId) :
    (x.addSuccessor succ).Consistent o := by
  unfold Item.addSuccessor
  split_ifs
  · exact h
  · exact ⟨h.fields, h.output⟩

theorem node_erasePred (x : Item) (pred : NodeId) :
    (x.erasePred pred).node o = (x.node o).erasePred pred := by
  unfold erasePred Node.erasePred node
  simp only [List.map_map]
  rfl

theorem Consistent.bury (h : x.Consistent o) : x.bury.Consistent o := by
  have hfields := h.map_fields (f := fun f => { f with preds := [] }) fun _ => rfl
  exact ⟨hfields.fields, h.output⟩

theorem node_bury (x : Item) :
    x.bury.node o = { (x.node o).bury with successors := x.successors } := by
  unfold bury Node.bury node
  simp only [List.map_map]
  rfl

end Item

namespace Arena.Meets

variable {α : Type} {host : Host} {g : Graph} {uid pred exit : NodeId} {n : Node} {slot : Nat}

theorem look {spot : Spot} {d : Datum} (hn : g.node? uid = some n) (hd : n.datumAt spot = some d) :
    Meets host g (look uid spot) ⟨d.value, d.rendering.text⟩ g [.consulted d] := by
  have hfill : Meets host g (Arena.write uid (·.onCell (Cell.fill host.options) spot)) () g [] := by
    have hwrite : Meets host g _ () (g.update uid id) [] := write hn
      (fun x hx => (x.node_onCell_fill spot).trans hx) (fun x hx => hx.onCell_fill spot) rfl
    rwa [g.update_id] at hwrite
  refine get_bind fun st h => item_bind hn fun x hx _ => ?_
  subst hx
  rw [Item.datumAt_node] at hd
  obtain ⟨c, hc, rfl⟩ := Option.map_eq_some_iff.mp hd
  rw [h.host_eq]
  exact of_ledger (some_bind hc (hfill.map fun _ => _)) fun _ => rfl

theorem noteAll (es : List Event) : Meets host g (es.forM Arena.note) () g es := by
  induction es with
  | nil => exact pure ()
  | cons e es ih => exact bind (note e) ih

theorem logged (y : Logged α) : Answers host g (logged y) y :=
  (noteAll y.events).map fun _ => y.value

theorem sameValue {l r : NodeId × Spot} {m : Node} {d e : Datum} (hn : g.node? l.1 = some n)
    (hd : n.datumAt l.2 = some d) (hm : g.node? r.1 = some m) (he : m.datumAt r.2 = some e) :
    Answers host g (sameValue l r) (Graph.sameValue host d e) := by
  unfold Graph.sameValue
  refine bind (look hn hd) (bind (look hm he) ?_)
  simp only [Graph.consult, Logged.value_bind]
  cases Operand.textEqual? ⟨d.value, d.rendering.text⟩ ⟨e.value, e.rendering.text⟩ with
  | some decided => exact pure _
  | none =>
    refine get_bind fun st h => ?_
    rw [h.host_eq]
    exact logged _

/-! ### Links -/

theorem addField (hn : g.node? uid = some n) (hslot : slot < n.slots.length) :
    Meets host g (Arena.writeField uid slot (·.add pred)) () (g.update uid (·.addPred slot pred))
      [] :=
  writeField hn (List.getElem?_eq_getElem hslot)
    (k := fun s => { s with preds := s.preds ++ [pred] }) (fun _ => rfl) fun _ => rfl

/-- A node with a single slot loses a predecessor if the slot does. -/
theorem eraseField (hone : g.OneSlot exit) :
    Meets host g (Arena.writeField exit 0 (·.erase pred)) () (g.update exit (·.erasePred pred))
      [] := by
  obtain ⟨x, hx, hlength⟩ := hone
  obtain ⟨s, hs⟩ := List.length_eq_one_iff.mp hlength
  have hsame : (g.update exit fun n => { n with slots := n.slots.modify 0 (·.erase pred) }) =
      g.update exit (·.erasePred pred) := by
    refine Graph.update_congr fun m hm => ?_
    cases hx.symm.trans hm
    rw [Node.erasePred, hs]
    rfl
  rw [← hsame]
  exact writeField hx (by rw [hs]; rfl) (fun _ => rfl) fun _ => rfl

theorem addSuccessor (hn : g.node? uid = some n) (succ : NodeId) :
    Meets host g (Arena.write uid (·.addSuccessor succ)) () (g.update uid (·.addSuccessor succ))
      [] :=
  write hn (fun x hx => hx ▸ x.node_addSuccessor succ) (fun _ hx => hx.addSuccessor succ)
    (n.outline_addSuccessor succ)

theorem connect (hn : g.node? uid = some n) (hslot : slot < n.slots.length) (hpred : pred < g.size)
    (hexit : ∀ s, g.sentinels? n.function = some s → g.OneSlot s.exit) :
    Meets host g (connect pred uid slot) () (g.connect pred uid slot) [] := by
  have hsame : (g.update uid (·.addPred slot pred)).outlines = g.outlines :=
    Graph.outlines_update fun _ _ => rfl
  have hpred' : pred < (g.update uid (·.addPred slot pred)).size := by rwa [Graph.size_update]
  obtain ⟨m, hm⟩ := Graph.exists_node?_of_lt hpred'
  unfold Graph.connect
  rw [Graph.boundaries?_of_node? hn]
  refine bind (addField hn hslot) (quiet_bind
    (sentinelsOf (Graph.node?_update_self hn _)) ?_)
  have hfunction : (n.addPred slot pred).function = n.function := rfl
  rw [Graph.sentinels?_congr hsame, hfunction]
  cases hs : g.sentinels? n.function with
  | none => exact addSuccessor hm uid
  | some s =>
    refine quiet_bind (write hm (k := fun n =>
      (n.eraseSuccessor s.exit).addSuccessor uid) ?_ ?_ (Node.outline_addSuccessor ..)) ?_
    · rintro x rfl
      exact (x.eraseSuccessor s.exit).node_addSuccessor uid
    · intro x hx
      exact Item.Consistent.addSuccessor (x := x.eraseSuccessor s.exit) ⟨hx.fields, hx.output⟩ uid
    · refine eraseField (((hexit s hs).update ?_).update ?_)
      · exact fun _ => List.length_modify ..
      · intro m
        rw [Node.addSuccessor_eq]
        rfl

theorem link (hn : g.node? uid = some n) (hpred : pred < g.size)
    (hexit : ∀ s, g.sentinels? n.function = some s → g.OneSlot s.exit) (slot : Nat) :
    Makes host g (link pred uid slot) (g.link pred uid slot) := by
  unfold Arena.link Graph.link
  rw [hn, Option.bind_some]
  by_cases hself : pred = uid
  · rw [if_pos hself]
    cases n.slots[slot]? with
    | none => exact pure ()
    | some s =>
      simp only [hself, true_or, if_true]
      exact pure ()
  rw [if_neg hself]
  refine item_bind hn fun x hx _ => ?_
  have hlength : x.fields.length = n.slots.length := by rw [← hx, Item.slots_node, List.length_map]
  cases hs : n.slots[slot]? with
  | none =>
    rw [if_pos (hlength ▸ List.getElem?_eq_none_iff.mp hs)]
    exact pure ()
  | some s =>
    have hslot := (List.getElem?_eq_some_iff.mp hs).1
    rw [if_neg (hlength ▸ Nat.not_le.mpr hslot)]
    refine field_bind hn hs fun y hy => ?_
    subst hy
    by_cases hin : pred ∈ y.preds
    · have hlinked : pred = uid ∨ pred ∈ (y.slot host.options).preds := Or.inr hin
      rw [if_pos hin]
      simp only [hlinked, if_true]
      exact pure ()
    · have hfree : ¬(pred = uid ∨ pred ∈ (y.slot host.options).preds) := not_or.mpr ⟨hself, hin⟩
      rw [if_neg hin]
      simp only [hfree, if_false]
      exact quiet_bind (connect hn hslot hpred hexit) (note _)

/-! ### Removal -/

theorem release (hpred : pred < g.size) (hexit : g.OneSlot exit) :
    Meets host g (release (some exit) uid pred) () (Graph.release (some exit) uid g pred) [] := by
  obtain ⟨m, hm⟩ := Graph.exists_node?_of_lt hpred
  have hm' := Graph.node?_update_self hm (·.eraseSuccessor uid)
  have hexit' : (g.update pred (·.eraseSuccessor uid)).OneSlot exit := hexit.update fun _ => rfl
  unfold Graph.release
  refine quiet_bind (write hm (k := (·.eraseSuccessor uid))
    (fun x hx => hx ▸ rfl) (fun x hx => ⟨hx.fields, hx.output⟩) rfl) ?_
  generalize m.eraseSuccessor uid = n at hm'
  generalize g.update pred (·.eraseSuccessor uid) = g at hm' hexit'
  refine item_bind hm' fun x hx _ => ?_
  have hstays : (x.successors.isEmpty && !x.isSentinel) =
      (n.successors.isEmpty && !n.isSentinel) := hx ▸ rfl
  simp only [hm', hstays]
  cases hfree : n.successors.isEmpty && !n.isSentinel with
  | false => exact pure ()
  | true =>
    have hnil : n.successors = [] := List.isEmpty_iff.mp (Bool.and_eq_true_iff.mp hfree).1
    refine quiet_bind (write hm' (k := (·.addSuccessor exit)) ?_
      (fun y hy => ⟨hy.fields, hy.output⟩) (n.outline_addSuccessor exit)) ?_
    · intro y hy
      have hy' : y.successors = [] := hnil ▸ hy ▸ rfl
      rw [← hy, ← y.node_addSuccessor, Item.addSuccessor, if_neg (hy' ▸ List.not_mem_nil)]
    · have hone : (g.update pred (·.addSuccessor exit)).OneSlot exit :=
        hexit'.update fun n => by rw [Node.addSuccessor_eq]
      obtain ⟨y, hy, hlength⟩ := hone
      exact addField hy (Nat.lt_of_lt_of_eq Nat.zero_lt_one hlength.symm)

/-- The predecessors of a node let go of it, which does not touch the node itself. -/
theorem releaseAll (host : Host) {s : Sentinels} (hg : g.Sound) (hn : g.node? uid = some n)
    (hinstr : n.instruction ≠ none) (hs : g.boundaries? uid = some s) (hne : uid ≠ s.exit) :
    let released := n.predecessors.foldl (Graph.release (some s.exit) uid) g
    Meets host g (n.predecessors.forM (Arena.release (some s.exit) uid)) () released [] ∧
      released.node? uid = some n := by
  have hexit : g.OneSlot s.exit := by
    rw [Graph.boundaries?_of_node? hn] at hs
    exact hg.oneSlot_exit hs
  intro released
  have hkept : Meets host g (n.predecessors.forM (Arena.release (some s.exit) uid)) () released [] ∧
      released.OneSlot s.exit ∧ released.node? uid = some n ∧ released.size = g.size := by
    refine forM_quiet (P := fun g' => g'.OneSlot s.exit ∧ g'.node? uid = some n ∧ g'.size = g.size)
      ?_ ⟨hexit, hn, rfl⟩
    rintro g' p hp ⟨hone, hn', hsize⟩
    have hfed := (n.mem_predecessors p).mp hp
    have hlt : p < g'.size := hsize ▸ hg.lt_size_of_fedBy hn hfed
    have hother : uid ≠ p :=
      Nat.ne_of_gt (hg.consistent.causal.precedes_of_fedBy hn hinstr hfed).1
    refine ⟨release hlt hone, hone.extend (Graph.Extends.release g' uid p s.exit), ?_, ?_⟩
    · rwa [Graph.node?_release_of_ne hother hne]
    · rwa [Graph.size_of_outlines (Graph.outlines_release g' uid p s.exit)]
  exact ⟨hkept.1, hkept.2.2.1⟩

theorem withdraw {successors : List NodeId} (h : ∀ succ ∈ successors, succ < g.size) :
    Meets host g (successors.forM fun succ => Arena.write succ (·.erasePred uid)) ()
      (g.withdraw uid successors) [] := by
  refine (forM_quiet (P := fun g' => g'.size = g.size) (fun g' succ hsucc hsize => ?_) rfl).1
  obtain ⟨m, hm⟩ := Graph.exists_node?_of_lt (hsize ▸ h succ hsucc)
  exact ⟨write hm (fun x hx => hx ▸ x.node_erasePred uid) (fun x hx => hx.map_fields fun _ => rfl)
    rfl, (Graph.size_update ..).trans hsize⟩

/-- It makes no difference that the successors of a node are forgotten before they let go of it. -/
theorem bury_withdraw (g : Graph) (uid : NodeId) (successors : List NodeId) :
    (((g.update uid fun n => { n with successors := [] }).withdraw uid successors).update uid
      fun n => { n.bury with successors := n.successors }) =
      (g.withdraw uid successors).update uid Node.bury := by
  refine Graph.ext_node? (fun i => ?_) ?_
  · simp only [Graph.node?_update, Graph.node?_withdraw]
    cases g.node? i with
    | none => split_ifs <;> rfl
    | some n => split_ifs <;> rfl
  · simp only [Graph.pending_update, Graph.pending_withdraw]

theorem tombstone (hg : g.Sound) (hn : g.node? uid = some n) (hsent : n.isSentinel = false) :
    Makes host g (tombstone uid) (g.remove uid) := by
  have hformed := hg.consistent.causal.formed
  have hinstr := hformed.instruction_ne_none hn hsent
  obtain ⟨s, hs, hne, -⟩ := Graph.boundaries?_of_instruction hformed hn hinstr
  have hsentinels : g.sentinels? n.function = some s := by
    rw [← hs, Graph.boundaries?_of_node? hn]
  obtain ⟨hrelease, hn₁⟩ := releaseAll host hg hn hinstr hs hne
  have hout₁ : (n.predecessors.foldl (Graph.release (some s.exit) uid) g).outlines = g.outlines :=
    Graph.outlines_of_cores (Graph.cores_releaseAll ..)
  have hdetach : g.detach uid = let buried := (((n.predecessors.foldl
      (Graph.release (some s.exit) uid) g).update uid fun n => { n with successors := [] }).withdraw
        uid n.successors).update uid fun n => { n.bury with successors := n.successors }
      { buried with pending := buried.pending.filter (· ≠ uid) } := by
    unfold Graph.detach
    simp only [hn, hs, Option.map_some, bury_withdraw]
    rfl
  change Meets host g _ () (g.detach uid) [.nodeRemoved uid]
  rw [hdetach]
  generalize n.predecessors.foldl (Graph.release (some s.exit) uid) g = g₁ at *
  have hout₂ : (g₁.update uid fun n => { n with successors := [] }).outlines = g.outlines := by
    rw [Graph.outlines_update (by intro m _; rfl), hout₁]
  refine quiet_bind (sentinelsOf hn) ?_
  rw [hsentinels]
  refine item_bind hn fun x hx _ => ?_
  rw [← x.predecessors_node (o := host.options), hx]
  refine quiet_bind hrelease ?_
  refine item_bind hn₁ fun x hx _ => ?_
  rw [← x.successors_node (o := host.options), hx]
  refine quiet_bind (write hn₁ (k := fun n => { n with successors := [] })
    (fun x hx => hx ▸ rfl) (fun x hx => ⟨hx.fields, hx.output⟩) rfl) ?_
  refine quiet_bind (withdraw fun succ hsucc => ?_) ?_
  · exact Graph.size_of_outlines hout₂ ▸ hg.lt_size_of_successor hn hsucc
  have hout₃ := (Graph.outlines_of_cores (Graph.cores_withdraw uid n.successors _)).trans hout₂
  obtain ⟨m, hm, hsame⟩ := Graph.node?_of_outlines (hout₃ ▸ Graph.outlines_of_node? hn)
  refine quiet_bind (write hm (fun x hx => hx ▸ x.node_bury) (fun _ hx => hx.bury)
    ?_) (quiet_bind (setPending _) (note _))
  exact Node.outline_bury (Node.isSentinel_congr hsame ▸ hsent)

theorem collapse (hn : g.node? uid = some n) (keep : Nat) :
    Makes host g (collapse uid keep) (g.collapse uid keep) := by
  unfold Graph.collapse
  rw [hn, Option.bind_some]
  refine item_bind hn fun x hx hconsistent => ?_
  subst hx
  rw [Item.getElem?_slots_node]
  cases hkept : x.fields[keep]? with
  | none => exact pure ()
  | some kept =>
    refine quiet_bind (write hn (fun y hy => ?_) (fun y hy => ?_) rfl) (note _)
    · rw [← hy]
      rfl
    · refine ⟨fun s hs => ?_, hy.output⟩
      rw [List.mem_singleton.mp hs]
      exact hconsistent.fields kept (List.mem_of_getElem? hkept)

end Arena.Meets
end OperandFlow
