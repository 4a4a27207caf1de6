import OperandFlow.Proofs.Arena.Producers

/-! The search for the edges of a node in an arena comes upon nothing that is not there, and links
what a search in the graph links. -/
namespace OperandFlow

theorem Graph.any_uid {g : Graph} {ns : List Node} (hns : ∀ n ∈ ns, g.node? n.uid = some n)
    (q : Node → Bool) : ((ns.map (·.uid)).any fun i => (g.node? i).any q) = ns.any q := by
  have hnodes : (ns.map (·.uid)).map g.node? = ns.map some := by
    rw [List.map_map]
    exact List.map_congr_left hns
  calc ((ns.map (·.uid)).any fun i => (g.node? i).any q)
      = ((ns.map (·.uid)).map g.node?).any (Option.any q) := by
        simp only [List.any_map]
        rfl
    _ = ns.any q := by rw [hnodes, List.any_map]; rfl

namespace Arena.Meets

open OperandFlow.Graph (Sought Links Stands)

variable {host : Host} {g g₁ : Graph} {uid : NodeId} {n n₁ : Node} {slot : Nat}

/-! ### Links -/

theorem linkFound (h : g.Sought n) (hlinks : g.Links n g₁) {found : Option NodeId}
    (hfound : ∀ pred, found = some pred → pred < g.size) (slot : Nat) :
    Makes host g₁ (linkFound n.uid found slot) (g₁.linkFound n.uid found slot) := by
  have hext := Graph.Extends.links hlinks
  cases found with
  | none => exact pure ()
  | some pred =>
    obtain ⟨m, hm, hevolves⟩ := hext h.here
    refine link hm (Nat.lt_of_lt_of_le (hfound pred rfl) hext.size_le) ?_ slot
    intro s hs
    exact (h.links hlinks).oneSlot_exit hs

/-- The nearest of the candidates with `q`. -/
theorem linkNearest (h : g.Sought n) (hlinks : g.Links n g₁) {candidates : List Node}
    (hc : ∀ m ∈ candidates, g.MayLink n m.uid) (q : Node → Bool) (slot : Nat) :
    Makes host g₁ (Arena.linkFound n.uid ((candidates.find? q).map (·.uid)) slot)
      (g₁.linkFound n.uid ((candidates.find? q).map (·.uid)) slot) := by
  refine linkFound h hlinks ?_ slot
  intro pred hpred
  obtain ⟨m, hm, rfl⟩ := Option.map_eq_some_iff.mp hpred
  exact Graph.lt_size_of_mayLink (hc m (List.mem_of_find?_eq_some hm))

/-- One slot among all candidates. -/
theorem resolveAny {ns : List Node} (hns : ∀ m ∈ ns, g.Stands m) {f : Field} {i : Nat}
    (hn : g.node? uid = some n)
    (hf : n.datumAt (.operand i) = some (f.cell.datum host.options)) :
    Answers host g (Arena.resolve (fun _ => true) (ns.map (·.uid)) uid f i)
      (Graph.resolve host ns (f.slot host.options)) := by
  have hresolve : Answers host g _ (Graph.resolve host (ns.filter fun _ => true) _) :=
    resolve (fun _ => rfl) (fun _ => rfl) hns hn hf
  rwa [List.filter_true] at hresolve

theorem linkSlots (h : g.Sought n) :
    Meets host g (linkSlots n.uid) (g.linkSlots host n).value.2 (g.linkSlots host n).value.1
      (g.linkSlots host n).events := by
  have hstands : ∀ m ∈ g.candidates host.options.reach n, g.Stands m := fun m hm =>
    h.stands (Links.refl g n) (List.mem_of_mem_filter hm)
  have hresolve : ∀ x : Item, x.node host.options = n → Answers host g
      (x.fields.zipIdx.mapM fun f => Arena.resolve (fun _ => true)
        ((g.candidates host.options.reach n).map (·.uid)) n.uid f.1 f.2)
      (Logged.map (Graph.resolve host (g.candidates host.options.reach n)) n.slots) := by
    rintro x hx
    have hmap := mapM (q := Graph.resolve host (g.candidates host.options.reach n))
      (fun f : Field × Nat => f.1.slot host.options) id fun f hf =>
        resolveAny hstands h.here (hx ▸ Item.datumAt_operand (List.mem_zipIdx_iff_getElem?.mp hf))
    rwa [List.map_id, x.slots_zipIdx, hx] at hmap
  unfold Graph.linkSlots
  refine quiet_bind (candidates h.sound h.here) (item_bind h.here fun x hx _ =>
    bind (hresolve x hx) ?_)
  -- A link in the middle of the row is made in a graph that the links before it led to.
  refine bind (forM (P := g.Links n) (q := fun g (f : Option NodeId × Nat) =>
    g.linkFound n.uid f.1 f.2) ?_ (Links.refl g n)) (pure _)
  intro g₁ f hf hlinks
  have hmay : ∀ pred, f.1 = some pred → g.MayLink n pred := by
    intro pred hpred
    obtain ⟨r, hr, hfirst⟩ := List.mem_map.mp (List.fst_mem_of_mem_zipIdx hf)
    rw [Logged.value_map] at hr
    obtain ⟨s, -, rfl⟩ := List.mem_map.mp hr
    obtain ⟨m, hm, rfl⟩ := Graph.resolve_value (hfirst.trans hpred)
    exact h.mayLink _ m hm
  exact ⟨linkFound h hlinks (fun pred hpred => Graph.lt_size_of_mayLink (hmay pred hpred)) f.2,
    hlinks.linkFound hmay f.2⟩

/-! ### Storage -/

/-- A slot that earlier links left alone. -/
theorem linkSlot {p : Item → Bool} {q : Node → Bool} {ns : List Node} {s : Slot}
    (h : g.Sought n) (hlinks : g.Links n g₁) (hp : ∀ x : Item, p x = q (x.node host.options))
    (hq : ∀ m : Node, q m.upstream = q m) (hns : ∀ m ∈ ns, g₁.Stands m)
    (hmay : ∀ m ∈ ns, g.MayLink n m.uid) (hs : n.slots[slot]? = some s)
    (hn₁ : g₁.node? n.uid = some n₁) (hs₁ : n₁.slots[slot]? = some s) :
    Makes host g₁ (linkSlot p (ns.map (·.uid)) n.uid slot)
      (g₁.linkSlot host n slot (ns.filter q)) := by
  unfold Graph.linkSlot
  rw [hs]
  refine field_bind hn₁ hs₁ fun y hy => ?_
  subst hy
  refine bind (resolve hp hq hns hn₁ (Node.datumAt_operand hs₁)) (linkFound h hlinks ?_ slot)
  intro pred hpred
  obtain ⟨m, hm, rfl⟩ := Graph.resolve_value hpred
  exact Graph.lt_size_of_mayLink (hmay m (List.mem_of_mem_filter hm))

section Storage

variable (h : g.Sought n) (hstorage : n.opcode?.any Opcode.isStorage = true)
include h hstorage

theorem exists_storage_slots : ∃ key value, n.slots = [key, value] :=
  List.length_eq_two.mp (h.sound.length_slots_storage h.here hstorage)

theorem linkKey :
    Makes host g (linkKey ((g.candidates host.options.reach n).map (·.uid)) n.uid)
      (g.linkKey host n (g.candidates host.options.reach n)) := by
  obtain ⟨key, value, hslots⟩ := exists_storage_slots h hstorage
  exact linkSlot (q := (·.isOneOf Graph.storageKeyProducers)) h (Links.refl g n) (fun _ => rfl)
    (fun _ => rfl) (fun m hm => h.stands (Links.refl g n) (List.mem_of_mem_filter hm))
    (h.mayLink _) (by rw [hslots]; rfl) h.here (by rw [hslots]; rfl)

omit hstorage in
/-- The key is linked, and the value is left alone. -/
theorem node?_linkKey (host : Host) {key value : Slot} (hslots : n.slots = [key, value])
    (candidates : List Node) :
    ∃ n₁ preds, (g.linkKey host n candidates).value.node? n.uid = some n₁ ∧
      n₁.slots = [{ key with preds }, value] := by
  have hgain : ∃ links, (g.linkKey host n candidates).value.node? n.uid = some (n.gain links) ∧
      ∀ l ∈ links, l.2 ≠ 1 := by
    unfold Graph.linkKey Graph.linkSlot
    rw [hslots]
    dsimp only [List.getElem?_cons_zero]
    rw [Logged.value_bind, Graph.linkFound_value]
    refine ⟨_, Graph.node?_linkAll h.formed h.here h.instruction _, ?_⟩
    intro l hl
    obtain ⟨pred, -, rfl⟩ := List.mem_map.mp hl
    exact Nat.zero_ne_one
  obtain ⟨links, hn₁, hfirst⟩ := hgain
  refine ⟨_, gains n.uid links 0 key.preds, hn₁, ?_⟩
  simp only [Node.gain, hslots, List.mapIdx_cons, List.mapIdx_nil, Nat.zero_add,
    gains_of_ne hfirst]

theorem linkStore : Makes host g (linkStore n.uid) (g.linkStore host n) := by
  obtain ⟨key, value, hslots⟩ := exists_storage_slots h hstorage
  have hmay := h.mayLink host.options.reach
  have hlinks := (Links.refl g n).linkKey host hmay
  obtain ⟨n₁, preds, hn₁, hslots₁⟩ :=
    node?_linkKey h host hslots (g.candidates host.options.reach n)
  refine quiet_bind (candidates h.sound h.here) (bind (linkKey h hstorage) ?_)
  have hvalue : n.slots[1]? = some value ∧ n₁.slots[1]? = some value := by
    rw [hslots, hslots₁]
    exact ⟨rfl, rfl⟩
  have hlink : Makes host _ _ _ := linkSlot (q := fun _ => true) h hlinks (fun _ => rfl)
    (fun _ => rfl) (fun m hm => h.stands hlinks (List.mem_of_mem_filter hm)) hmay hvalue.1 hn₁
    hvalue.2
  rwa [List.filter_true] at hlink

omit h hstorage in
theorem writesTo {m : Node} {d : Datum} (hg : g.Sound) (hn : g.node? uid = some n)
    (hd : n.datumAt (.operand 0) = some d) (hm : g.Stands m) :
    Answers host g (do
        if (← item m.uid).is .sstore then Arena.sameValue (m.uid, .operand 0) (uid, .operand 0)
        else return false)
      (Graph.writesTo host d m) := by
  obtain ⟨m', hm', hsame⟩ := hm
  obtain ⟨key, rest, hslots⟩ := hg.exists_slot hm'
  have hwrites : Graph.writesTo host d m = Graph.writesTo host d m' :=
    (congrArg (Graph.writesTo host d) hsame.symm :)
  rw [hwrites]
  unfold Graph.writesTo
  refine item_bind hm' fun x hx _ => ?_
  have his : x.is .sstore = m'.is .sstore := hx ▸ rfl
  rw [his, hslots]
  cases m'.is .sstore with
  | false => exact pure _
  | true =>
    refine sameValue (l := (m.uid, .operand 0)) hm' (Node.datumAt_operand ?_) hn hd
    rw [hslots]
    rfl

theorem linkLoad : Makes host g (linkLoad n.uid) (g.linkLoad host n) := by
  obtain ⟨key, value, hslots⟩ := exists_storage_slots h hstorage
  have hmay := h.mayLink host.options.reach
  have hlinks := (Links.refl g n).linkKey host hmay
  obtain ⟨n₁, preds, hn₁, hslots₁⟩ :=
    node?_linkKey h host hslots (g.candidates host.options.reach n)
  unfold Graph.linkLoad
  rw [hslots]
  refine quiet_bind (candidates h.sound h.here) (bind (linkKey h hstorage) ?_)
  refine field_bind hn₁ (by rw [hslots₁]; rfl) fun v hv => ?_
  refine field_bind hn₁ (by rw [hslots₁]; rfl) fun k hk => ?_
  have hsettled : (!v.preds.isEmpty || k.value.isEmpty) =
      (!value.preds.isEmpty || key.value.isEmpty) := by
    have hkey : k.value = key.value := congrArg (·.datum.value) hk
    rw [← hv, hkey]
    rfl
  simp only [hsettled, Logged.value_bind]
  cases !value.preds.isEmpty || key.value.isEmpty with
  | true => exact pure ()
  | false =>
    simp only [Bool.false_eq_true, if_false, Logged.value_bind, Logged.events_bind]
    refine bind (findM? (q := Graph.writesTo host key.datum) (·.uid) fun m hm => ?_) ?_
    · refine writesTo (h.links hlinks) hn₁ (Node.datumAt_operand (s := { key with preds }) ?_)
        (h.stands hlinks (List.mem_of_mem_filter hm))
      rw [hslots₁]
      rfl
    · rw [Logged.value_find?]
      exact linkNearest h hlinks hmay _ 1

end Storage

/-! ### Hashes -/

theorem yieldsKey {m : Node} (hm : g.node? uid = some m) (key : List Char) :
    Answers host g (yieldsKey key uid) (Graph.yieldsKey key m) := by
  unfold Graph.yieldsKey
  refine item_bind hm fun x hx _ => ?_
  have hone : x.isOneOf Graph.preimageProducers = m.isOneOf Graph.preimageProducers := hx ▸ rfl
  have hout : m.output = x.output.map (·.datum host.options) := hx ▸ rfl
  rw [hone, hout]
  cases m.isOneOf Graph.preimageProducers with
  | false => exact pure _
  | true =>
    cases hc : x.output with
    | none => exact pure _
    | some c =>
      rw [hc, Option.map_some] at hout
      have hdatum : m.datumAt .output = some (c.datum host.options) := hout
      exact bind (look hm hdatum) (pure _)

/-- The first of some nodes with `q`. -/
theorem findNode {p : Item → Bool} {q : Node → Bool}
    (hp : ∀ x : Item, p x = q (x.node host.options)) {ns : List Node}
    (hns : ∀ m ∈ ns, g.node? m.uid = some m) :
    Meets host g ((ns.map (·.uid)).findM? fun c => do return p (← item c))
      ((ns.find? q).map (·.uid)) g [] := by
  refine findM?_quiet Node.uid fun m hm => item_bind (hns m hm) fun x hx _ => ?_
  rw [hp, hx]
  exact pure _

/-- For each of the keys the first of some nodes with that result. -/
theorem findKeys {ns : List Node} (hns : ∀ m ∈ ns, g.node? m.uid = some m)
    (keys : List (List Char)) :
    let found := Logged.map (fun key => Logged.find? (Graph.yieldsKey key) ns) keys
    Meets host g (keys.mapM fun key => (ns.map (·.uid)).findM? (Arena.yieldsKey key))
      (found.value.map (·.map (·.uid))) g found.events := by
  intro found
  have hmap : Meets host g _ _ g _ := mapM (q := fun key => Logged.find? (Graph.yieldsKey key) ns)
    id (·.map (·.uid)) (l := keys) fun key _ => findM? Node.uid fun m hm => yieldsKey (hns m hm) key
  rwa [List.map_id] at hmap

theorem linkPreimage (h : g.Sought n) :
    Performs host g (linkPreimage n.uid) (g.linkPreimage host n) := by
  obtain ⟨slot, rest, hslots⟩ := h.sound.exists_slot h.here
  have hmay := h.mayLink host.options.reach
  have hrefl := Links.refl g n
  have hhere : ∀ m ∈ g.candidates host.options.reach n, g.node? m.uid = some m := fun m hm =>
    h.node?_of_mem (List.mem_of_mem_filter hm)
  have hslot : n.slots[0]? = some slot := by
    rw [hslots]
    rfl
  unfold Arena.linkPreimage Graph.linkPreimage
  rw [hslots]
  refine field_bind h.here hslot fun y hy => ?_
  have hpreds : y.preds = slot.preds := hy ▸ rfl
  simp only [hpreds]
  cases !slot.preds.isEmpty with
  | true => exact pure _
  | false =>
    simp only [Bool.false_eq_true, if_false, Logged.value_bind, Logged.events_bind]
    refine bind (look h.here (Node.datumAt_operand hslot)) ?_
    simp only [Graph.consult]
    by_cases hempty : slot.datum.rendering.text = ""
    · simp only [hempty, if_true]
      exact pure _
    simp only [hempty, if_false]
    refine quiet_bind (candidates h.sound h.here) (get_bind fun st hst => ?_)
    rw [hst.host_eq]
    by_cases hown : (Term.splitArgs slot.datum.rendering.text.toList).head? =
        some host.options.ownAddress.toList
    · simp only [hown, if_true]
      exact quiet_bind (findNode (q := (·.is .and)) (fun _ => rfl) hhere)
        (bind (linkNearest h hrefl hmay _ 0) (pure _))
    simp only [hown, if_false]
    by_cases htwo : (Term.splitArgs slot.datum.rendering.text.toList).length = 2
    swap
    · simp only [htwo, ne_eq, not_false_eq_true, if_true]
      exact pure _
    simp only [htwo, ne_eq, not_true, if_false, Logged.value_bind, Logged.events_bind]
    refine bind (findKeys hhere _) (bind (a := ()) ?_ (pure _))
    rw [Logged.value_map]
    refine forM_map (P := g.Links n) (Option.map Node.uid) ?_ hrefl
    intro g₁ f hf hlinks
    obtain ⟨key, -, rfl⟩ := List.mem_map.mp hf
    rw [Logged.value_find?]
    exact ⟨linkNearest h hlinks hmay _ 0, hlinks.linkNearest hmay _ 0⟩

/-! ### Masks, parameters and jumps -/

theorem settleMask (h : g.Sought n) : Makes host g (settleMask n.uid) (g.settleMask host n) := by
  have hlinks := Graph.links_linkSlots host h.formed h.here
  obtain ⟨m, hm, hevolves⟩ := Graph.Extends.links hlinks h.here
  unfold Makes Graph.settleMask
  simp only [Logged.value_bind, Logged.events_bind]
  refine bind (linkSlots h) ?_
  by_cases hshort : (g.linkSlots host n).value.2.length < 2
  · simp only [hshort, if_true]
    exact pure ()
  simp only [hshort, if_false]
  generalize ((g.linkSlots host n).value.2.zipIdx.filter (·.1)).map (·.2) = kept
  rcases kept with _ | ⟨only, _ | _⟩
  · exact tombstone (h.links hlinks) hm (hevolves.isSentinel_eq ▸ h.bare)
  · exact collapse hm only
  · exact pure ()

theorem linkFromEntry (h : g.Sought n) (hlinks : g.Links n g₁) :
    Makes host g₁ (linkFromEntry n.uid) (g₁.linkFromEntry n.uid) := by
  obtain ⟨m, hm, hevolves⟩ := Graph.Extends.links hlinks h.here
  have hboundaries := Graph.boundaries?_of_node? hm
  unfold Graph.linkFromEntry
  rw [hboundaries]
  refine quiet_bind (sentinelsOf hm) (linkFound h hlinks ?_ 0)
  intro pred hpred
  obtain ⟨s, hs, rfl⟩ := Option.map_eq_some_iff.mp hpred
  rw [← hboundaries, Graph.boundaries?_congr hlinks.outlines] at hs
  exact Graph.lt_size_of_mayLink (Graph.mayLink_entry h.formed h.here h.instruction hs)

theorem linkFromLeader (h : g.Sought n) :
    Makes host g (linkFromLeader n.uid) (g.linkFromLeader n) := by
  refine item_bind h.here fun x hx _ => ?_
  have hlead : x.leader? = n.leader? := hx ▸ rfl
  rw [hlead]
  exact linkFound h (Links.refl g n) (fun _ => h.sound.lt_size_of_leader h.here) 0

theorem linkParameter (h : g.Sought n) :
    Makes host g (linkParameter n.uid) (g.linkParameter host n) := by
  obtain ⟨offset, rest, hslots⟩ := h.sound.exists_slot h.here
  unfold Arena.linkParameter Graph.linkParameter
  rw [hslots]
  refine field_bind h.here (by rw [hslots]; rfl) fun y hy => ?_
  have hpreds : y.preds = offset.preds := hy ▸ rfl
  have hseeks : y.seeksProducer = offset.seeksProducer := hy ▸ rfl
  simp only [hpreds, hseeks]
  cases !offset.preds.isEmpty with
  | true => exact pure ()
  | false =>
    cases offset.seeksProducer with
    | false => exact linkFromEntry h (Links.refl g n)
    | true =>
      simp only [Bool.false_eq_true, if_false, if_true, Logged.value_bind, Logged.events_bind]
      refine bind (linkSlots h) ?_
      by_cases hhead : (g.linkSlots host n).value.2.head? = some true
      · simp only [hhead, if_true]
        exact pure ()
      · simp only [hhead, if_false]
        exact linkFromEntry h (Graph.links_linkSlots host h.formed h.here)

/-- Whether one of some nodes that are there has `q`. -/
theorem anyNode {p : Item → Bool} {q : Node → Bool}
    (hp : ∀ x : Item, p x = q (x.node host.options)) {ids : List NodeId}
    (hids : ∀ i ∈ ids, i < g.size) :
    Meets host g (ids.anyM fun c => do return p (← item c))
      (ids.any fun i => (g.node? i).any q) g [] := by
  induction ids with
  | nil => exact pure _
  | cons i ids ih =>
    obtain ⟨n, hn⟩ := Graph.exists_node?_of_lt (hids i List.mem_cons_self)
    have hfirst : Meets host g (do return p (← item i)) (q n) g [] :=
      item_bind hn fun x hx _ => hx ▸ hp x ▸ pure (p x)
    rw [List.anyM, List.any_cons, hn, Option.any_some]
    refine quiet_bind hfirst ?_
    cases q n with
    | true => exact pure _
    | false => exact ih fun j hj => hids j (List.mem_cons_of_mem i hj)

theorem isOpenJump (hg : g.Sound) {m : Node} (hm : g.node? uid = some m) (exit : Option NodeId)
    (target : Nat) :
    Meets host g (isOpenJump exit target uid) (g.isOpenJump exit target m) g [] := by
  unfold Arena.isOpenJump Graph.isOpenJump
  refine item_bind hm fun x hx _ => ?_
  have hdest : x.destination? = m.destination? := hx ▸ rfl
  have hjumpi : x.is .jumpi = m.is .jumpi := hx ▸ rfl
  have hjump : x.is .jump = m.is .jump := hx ▸ rfl
  have hsucc : x.successors = m.successors := hx ▸ rfl
  rw [hdest, hjumpi, hjump, hsucc]
  by_cases htarget : m.destination? = some target
  · simp only [htarget, if_true, decide_true, Bool.true_and]
    cases m.is .jumpi with
    | true => exact (anyNode (q := (·.is .jumpdest)) (fun _ => rfl)
        fun _ => hg.lt_size_of_successor hm).map (!·)
    | false => cases m.is .jump <;> exact pure _
  · simp only [htarget, if_false, decide_false, Bool.false_and]
    exact pure _

theorem linkDestination (h : g.Sought n) :
    Makes host g (linkDestination n.uid) (g.linkDestination host n) := by
  obtain ⟨slot, rest, hslots⟩ := h.sound.exists_slot h.here
  have hhere : ∀ m ∈ g.liveBefore host.options.reach n, g.node? m.uid = some m := fun m hm =>
    h.node?_of_mem hm
  unfold Makes Arena.linkDestination Graph.linkDestination
  rw [Node.predsAt_zero hslots, Graph.boundaries?_of_node? h.here]
  refine item_bind h.here fun x hx _ => ?_
  have haddress : x.address = n.address := hx ▸ rfl
  rw [haddress]
  refine field_bind h.here (by rw [hslots]; rfl) fun y hy => ?_
  have hpreds : y.preds = slot.preds := hy ▸ rfl
  rw [hpreds]
  cases !slot.preds.isEmpty with
  | true => exact pure ()
  | false =>
    simp only [Bool.false_eq_true, if_false]
    refine quiet_bind (sentinelsOf h.here) (quiet_bind (liveBefore h.sound h.here) ?_)
    refine quiet_bind (findM?_quiet Node.uid fun m hm => isOpenJump h.sound (hhere m hm) _ _) ?_
    cases hfind : (g.liveBefore host.options.reach n).find?
        (g.isOpenJump ((g.sentinels? n.function).map (·.exit)) n.address.toNat) with
    | some source =>
      have hmem := List.mem_of_find?_eq_some hfind
      have hsource : ∀ pred, some source.uid = some pred → pred < g.size := fun pred hpred =>
        Option.some.inj hpred ▸ Graph.lt_size_of_node? (hhere source hmem)
      exact linkFound h (Links.refl g n) hsource 0
    | none =>
      have hids : ∀ i ∈ (g.liveBefore host.options.reach n).map (·.uid), i < g.size := by
        intro i hi
        obtain ⟨m, hm, rfl⟩ := List.mem_map.mp hi
        exact Graph.lt_size_of_node? (hhere m hm)
      refine quiet_bind (anyNode (q := fun m => m.is .jumpdest || m.is .jumpi)
        (fun _ => rfl) hids) ?_
      rw [Graph.any_uid hhere]
      cases (g.liveBefore host.options.reach n).any fun m => m.is .jumpdest || m.is .jumpi with
      | true => exact bind (note _) (tombstone h.sound h.here h.bare)
      | false => exact linkFromEntry h (Links.refl g n)

/-- A change that never fails. -/
theorem succeed {x : InPlace Unit} {y : Logged Graph} (h : Makes host g x y) :
    Performs host g (do x; return (Except.ok () : Except GraphError Unit))
      (do return (Except.ok (), ← y)) :=
  bind h (pure _)

theorem linkAny (h : g.Sought n) :
    Performs host g
      (do let _ ← Arena.linkSlots n.uid; return (Except.ok () : Except GraphError Unit))
      (do return (Except.ok (), (← g.linkSlots host n).1)) :=
  bind (linkSlots h) (pure _)

theorem linkNode (h : g.Sought n) {x : Item} (hx : x.node host.options = n) {opcode : Opcode}
    (ho : n.opcode? = some opcode) :
    Performs host g (linkNode n.uid x opcode) (g.linkNode host n opcode) := by
  have hstorage (hopcode : opcode.isStorage = true) : n.opcode?.any Opcode.isStorage = true := by
    rw [ho]
    exact hopcode
  have hkind : x.kind = n.kind := hx ▸ rfl
  have hempty : (x.fields.all (·.value.isEmpty)) = n.slots.all (·.value.isEmpty) := by
    rw [← hx, Item.slots_node, List.all_map]
    rfl
  unfold Arena.linkNode Graph.linkNode
  rw [hkind, hempty]
  generalize n.kind = kind
  -- Where one side falls through to a case for any opcode, so does the other.
  split
  · exact (linkStore h (hstorage rfl)).succeed
  · exact (linkLoad h (hstorage rfl)).succeed
  · exact linkPreimage h
  · exact (settleMask h).succeed
  · exact (settleMask h).succeed
  · exact (linkParameter h).succeed
  · cases n.slots.all (·.value.isEmpty) with
    | true =>
      simp only [if_true]
      exact (linkFromEntry h (Links.refl g n)).succeed
    | false =>
      simp only [Bool.false_eq_true, if_false]
      exact linkAny h
  · exact (linkDestination h).succeed
  · simpa only using (linkFromLeader h).succeed
  · exact linkAny h
  · simpa only using linkAny h
  · simpa only using linkAny h
  · exact linkAny h
  · exact pure _
  · exact pure _
  · exact pure _
  · exact pure _

theorem findEdges (hg : g.Sound) (uid : NodeId) :
    Performs host g (findEdges uid) (g.findEdges host uid) := by
  unfold Graph.findEdges
  refine item?_bind fun x hx => ?_
  cases x with
  | none =>
    rw [← hx]
    exact pure _
  | some x =>
    rw [Option.map_some] at hx
    obtain rfl := hg.uid_eq hx.symm
    rw [← hx]
    dsimp only [Item.isDeleted_node, Item.isSentinel_node, Item.opcode?_node]
    cases hidle : x.isDeleted || x.isSentinel with
    | true => exact pure _
    | false =>
      obtain ⟨hlive, hbare⟩ := Bool.or_eq_false_iff.mp hidle
      cases ho : x.opcode? with
      | none => exact pure _
      | some opcode => exact bind (note _) (linkNode ⟨hg, hx.symm, hlive, hbare⟩ rfl ho)

end Arena.Meets
end OperandFlow
