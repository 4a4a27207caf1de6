import OperandFlow.Proofs.Graph.Lifetime

/-! What is left of the edges of removed nodes, whatever is done to a graph and in whatever order.
Nothing supplies a removed node. But the leader of a block can be linked after its removal, and a
storage read that is linked while it waits is linked anew with its result. -/
namespace OperandFlow

/-- Others can join a block that the node leads. -/
def Outline.StartsBlock (o : Outline) : Prop :=
  o.opcode? = some .jumpdest ∨ o.opcode? = some .jumpi

/-- A node that leads the block of another one is an entry, a jump destination or a conditional
jump. -/
def Led (os : Outlines) : Prop :=
  ∀ ⦃i l : NodeId⦄ ⦃o : Outline⦄, os[i]? = some o → o.leader? = some l → l ≠ i →
    ∃ p, os[l]? = some p ∧ (p.isEntry = true ∨ p.StartsBlock)

namespace Graph

def Gone (g : Graph) (i : NodeId) : Prop :=
  ∃ n, g.node? i = some n ∧ n.isDeleted = true

theorem gone_congr {g g' : Graph} (h : g'.cores = g.cores) {i : NodeId} :
    g'.Gone i ↔ g.Gone i := by
  have key : ∀ {g g' : Graph}, g'.cores = g.cores → g.Gone i → g'.Gone i := by
    rintro g g' h ⟨n, hn, hdel⟩
    obtain ⟨m, hm, hcore⟩ := node?_of_cores h hn
    refine ⟨m, hm, ?_⟩
    rw [Node.isDeleted, (Node.of_core hcore).2.1]
    exact hdel
  exact ⟨key h.symm, key h⟩

/-- An edge that a slot has is listed at its other end. The converse may fail for storage reads.
A removed node is supplied by nothing, and goes to nodes of the block that it led, or to the exit. -/
structure Wired (os : Outlines) (g : Graph) : Prop where
  listed : ∀ {a b : NodeId}, g.Feeds a b → g.Flows a b
  fed : ∀ {a b : NodeId}, g.Flows a b →
    g.Feeds a b ∨ ∃ o, os[b]? = some o ∧ o.opcode? = some .sload
  unfed : ∀ {a b : NodeId}, g.Gone b → ¬ g.Feeds a b
  starts : ∀ {a b : NodeId}, g.Gone a → g.Flows a b → ∃ o, os[a]? = some o ∧ o.StartsBlock
  leads : ∀ {a b : NodeId}, g.Gone a → g.Flows a b →
    ∃ o, os[b]? = some o ∧ (o.isExit = true ∨ o.leader? = some a)

theorem wired_empty (os : Outlines) : Wired os empty := by
  constructor
  all_goals simp [Feeds, Flows, Gone]

namespace Wired

variable {os os' : Outlines} {g g' : Graph} {uid pred : NodeId}

/-- The same edges in a graph that may have more nodes. -/
theorem extend (hg : g.Wired os) (hos : ∀ ⦃i : NodeId⦄ ⦃o : Outline⦄, os[i]? = some o →
    os'[i]? = some o) (hfeeds : ∀ {a b}, g'.Feeds a b ↔ g.Feeds a b)
    (hflows : ∀ {a b}, g'.Flows a b ↔ g.Flows a b) (hgone : ∀ {i}, g'.Gone i → g.Gone i) :
    g'.Wired os' where
  listed := fun h => hflows.mpr (hg.listed (hfeeds.mp h))
  fed := by
    intro a b h
    rcases hg.fed (hflows.mp h) with h | ⟨o, ho, hload⟩
    · exact Or.inl (hfeeds.mpr h)
    · exact Or.inr ⟨o, hos ho, hload⟩
  unfed := fun hb h => hg.unfed (hgone hb) (hfeeds.mp h)
  starts := by
    intro a b ha h
    obtain ⟨o, ho, hstarts⟩ := hg.starts (hgone ha) (hflows.mp h)
    exact ⟨o, hos ho, hstarts⟩
  leads := by
    intro a b ha h
    obtain ⟨o, ho, hleads⟩ := hg.leads (hgone ha) (hflows.mp h)
    exact ⟨o, hos ho, hleads⟩

/-- A live node is linked to a live one, or to the leader of its block. -/
theorem connect {slot : Nat} {n m : Node} {s : Sentinels} (hg : g.Wired os)
    (hn : g.node? uid = some n) (hlive : n.isDeleted = false) (hslot : slot < n.slots.length)
    (hs : g.boundaries? uid = some s) (hexit : uid ≠ s.exit) (hm : g.node? pred = some m)
    (hne : pred ≠ uid)
    (hleader : m.isDeleted = true → (∃ o, os[pred]? = some o ∧ o.StartsBlock) ∧
      ∃ o, os[uid]? = some o ∧ o.leader? = some pred) :
    (g.connect pred uid slot).Wired os := by
  have hgone : ∀ {i}, (g.connect pred uid slot).Gone i ↔ g.Gone i :=
    gone_congr (g.cores_connect pred uid slot)
  have hgone_pred : g.Gone pred → m.isDeleted = true := by
    rintro ⟨m', hm', hdel⟩
    rw [hm] at hm'
    cases hm'
    exact hdel
  constructor
  case listed =>
    intro a b
    rw [feeds_connect hn hslot hs hexit, flows_connect hm hs hne]
    exact Or.imp_left fun h => ⟨hg.listed h.1, h.2⟩
  case fed =>
    intro a b
    rw [feeds_connect hn hslot hs hexit, flows_connect hm hs hne]
    rintro (⟨h, hnot⟩ | hnew)
    · exact (hg.fed h).imp_left fun h => Or.inl ⟨h, hnot⟩
    · exact Or.inl (Or.inr hnew)
  case unfed =>
    intro a b hb
    rw [feeds_connect hn hslot hs hexit]
    rintro (⟨h, -⟩ | ⟨-, rfl⟩)
    · exact hg.unfed (hgone.mp hb) h
    · obtain ⟨n', hn', hdel⟩ := hgone.mp hb
      rw [hn] at hn'
      cases hn'
      cases hlive.symm.trans hdel
  case starts =>
    intro a b ha
    rw [flows_connect hm hs hne]
    rintro (⟨h, -⟩ | ⟨rfl, -⟩)
    · exact hg.starts (hgone.mp ha) h
    · exact (hleader (hgone_pred (hgone.mp ha))).1
  case leads =>
    intro a b ha
    rw [flows_connect hm hs hne]
    rintro (⟨h, -⟩ | ⟨rfl, rfl⟩)
    · exact hg.leads (hgone.mp ha) h
    · obtain ⟨o, ho, hl⟩ := (hleader (hgone_pred (hgone.mp ha))).2
      exact ⟨o, ho, Or.inr hl⟩

theorem links {n : Node} {g₁ : Graph} (hg : g.Wired g.outlines) (hformed : Formed g.outlines)
    (hled : Led g.outlines) (hn : g.node? uid = some n) (hlive : n.isDeleted = false)
    (hsent : n.isSentinel = false) (h : g.Links n g₁) : g₁.Wired g.outlines := by
  have huid : n.uid = uid := hformed.uid_node hn
  subst huid
  obtain ⟨links, hlinks, rfl⟩ := h
  have key : (g.linkAll n.uid links).cores = g.cores ∧
      (g.linkAll n.uid links).Wired g.outlines := by
    apply linkAll_induction (P := fun g' => g'.cores = g.cores ∧ g'.Wired g.outlines) ⟨rfl, hg⟩
    intro g' pred slot n' t ⟨hcores, hg'⟩ hl hn' ht hne _
    have hformed' : Formed g'.outlines := outlines_of_cores hcores ▸ hformed
    obtain ⟨k, hk, hcore⟩ := node?_of_cores hcores hn
    rw [hn'] at hk
    cases hk
    obtain ⟨hinstr, hkind, -⟩ := Node.of_core hcore
    obtain ⟨s, hs, hexit, -⟩ := boundaries?_of_instruction hformed' hn'
      (hinstr ▸ hformed.instruction_ne_none hn hsent)
    obtain ⟨-, ⟨m, hm, hmay⟩, -⟩ := hlinks _ hl
    obtain ⟨m', hm', hcore'⟩ := node?_of_cores hcores hm
    refine ⟨by rw [cores_connect, hcores], hg'.connect hn' ?_ (List.getElem?_eq_some_iff.mp ht).1
      hs hexit hm' hne ?_⟩
    · rw [Node.isDeleted, hkind]
      exact hlive
    · intro hdel
      rw [Node.isDeleted, (Node.of_core hcore').2.1] at hdel
      rcases hmay with hmay | ⟨hleader, -⟩
      · cases hmay.symm.trans hdel
      -- A removed leader is no entry.
      · obtain ⟨p, hp, hentry | hstarts⟩ := hled (outlines_of_node? hn) hleader hne
        · rw [outlines_of_node? hm] at hp
          cases hp
          have hkind' := m.isEntry_iff.mp hentry
          rw [hkind'] at hdel
          cases hdel
        · exact ⟨⟨p, hp, hstarts⟩, _, outlines_of_node? hn, hleader⟩
  exact key.2

/-- In the midst of a removal: `uid` is no longer a successor of the nodes `done`. -/
structure Releasing (os : Outlines) (g : Graph) (uid : NodeId) (done : List NodeId) (g' : Graph) :
    Prop where
  cores : g'.cores = g.cores
  self : g'.node? uid = g.node? uid
  ext : g.Extends g'
  listed : ∀ {a b : NodeId}, g'.Feeds a b → ¬(b = uid ∧ a ∈ done) → g'.Flows a b
  fed : ∀ {a b : NodeId}, g'.Flows a b → ¬(b = uid ∧ a ∈ done) ∧
    (g'.Feeds a b ∨ ∃ o, os[b]? = some o ∧ o.opcode? = some .sload)
  unfed : ∀ {a b : NodeId}, g.Gone b → ¬ g'.Feeds a b
  starts : ∀ {a b : NodeId}, g.Gone a → g'.Flows a b → ∃ o, os[a]? = some o ∧ o.StartsBlock
  leads : ∀ {a b : NodeId}, g.Gone a → g'.Flows a b →
    ∃ o, os[b]? = some o ∧ (o.isExit = true ∨ o.leader? = some a)

theorem Releasing.release {exit : NodeId} {x : Node} {done : List NodeId} {o : Outline}
    (hg : g.Wired os) (hevolved : g.Evolved) (hx : g.node? exit = some x) (hkind : x.kind = .exit)
    (ho : os[exit]? = some o) (hisExit : o.isExit = true) (hexit : exit ≠ uid)
    (hne : pred ≠ exit) (hpred : pred ≠ uid) (hfeeds : g.Feeds pred uid)
    (h : Releasing os g uid done g') :
    Releasing os g uid (pred :: done) (release (some exit) uid g' pred) := by
  obtain ⟨k, hbegins, hk⟩ := hevolved hx
  obtain ⟨x', hx', hx_evolves⟩ := h.ext hx
  have hslot : 0 < x'.slots.length := (hk.trans hx_evolves).slots_pos hbegins
  constructor
  case cores => rw [cores_release, h.cores]
  case self => rw [node?_release_of_ne hpred.symm hexit.symm, h.self]
  case ext => exact h.ext.trans (.release g' uid pred exit)
  case listed =>
    intro a b
    rw [feeds_release hx' hslot hne, flows_release hexit, List.mem_cons]
    rintro (hab | hnew) hnot
    · refine Or.inl ⟨h.listed hab fun hdone => hnot ⟨hdone.1, Or.inr hdone.2⟩, ?_⟩
      exact fun heq => hnot ⟨heq.2, Or.inl heq.1⟩
    · exact Or.inr hnew
  case fed =>
    intro a b
    rw [feeds_release hx' hslot hne, flows_release hexit, List.mem_cons]
    rintro (⟨hab, hnot⟩ | ⟨rfl, rfl, hstranded⟩)
    · obtain ⟨hdone, hab⟩ := h.fed hab
      exact ⟨by grind, hab.imp_left Or.inl⟩
    · exact ⟨fun heq => hexit heq.1, Or.inl (Or.inr ⟨rfl, rfl, hstranded⟩)⟩
  case unfed =>
    intro a b hb
    rw [feeds_release hx' hslot hne]
    rintro (hab | ⟨-, rfl, -⟩)
    · exact h.unfed hb hab
    · obtain ⟨x'', hx'', hdel⟩ := hb
      rw [hx] at hx''
      cases hx''
      rw [Node.isDeleted, hkind] at hdel
      cases hdel
  case starts =>
    intro a b ha
    rw [flows_release hexit]
    rintro (⟨hab, -⟩ | ⟨rfl, -⟩)
    · exact h.starts ha hab
    · exact hg.starts ha (hg.listed hfeeds)
  case leads =>
    intro a b ha
    rw [flows_release hexit]
    rintro (⟨hab, -⟩ | ⟨-, rfl, -⟩)
    · exact h.leads ha hab
    · exact ⟨o, ho, Or.inl hisExit⟩

/-- Once all that supplies a node is released, the node can be buried. -/
theorem Releasing.bury {n : Node} {done : List NodeId} (hn : g.node? uid = some n)
    (hdone : ∀ a, a ∈ done ↔ n.FedBy a) (h : Releasing os g uid done g') :
    ((g'.withdraw uid n.successors).update uid Node.bury).Wired os := by
  have hn' : g'.node? uid = some n := h.self.trans hn
  have hflows : ∀ {a b}, ((g'.withdraw uid n.successors).update uid Node.bury).Flows a b ↔
      a ≠ uid ∧ g'.Flows a b := by
    intro a b
    rw [flows_update, flows_withdraw]
    simp [Node.bury]
  have hfeeds : ∀ {a b}, ((g'.withdraw uid n.successors).update uid Node.bury).Feeds a b ↔
      b ≠ uid ∧ g'.Feeds a b ∧ ¬(a = uid ∧ b ∈ n.successors) := by
    intro a b
    rw [feeds_update, feeds_withdraw]
    simp [Node.not_fedBy_bury]
  have hgone : ∀ {i}, ((g'.withdraw uid n.successors).update uid Node.bury).Gone i → i ≠ uid →
      g.Gone i := by
    rintro i ⟨m, hm, hdel⟩ hi
    rw [node?_update_of_ne hi] at hm
    exact (gone_congr ((cores_withdraw uid n.successors g').trans h.cores)).mp ⟨m, hm, hdel⟩
  constructor
  case listed =>
    intro a b hab
    obtain ⟨hb, hab, hnot⟩ := hfeeds.mp hab
    have hab' := h.listed hab fun heq => hb heq.1
    refine hflows.mpr ⟨?_, hab'⟩
    rintro rfl
    exact hnot ⟨rfl, (flows_iff hn').mp hab'⟩
  case fed =>
    intro a b hab
    obtain ⟨ha, hab⟩ := hflows.mp hab
    obtain ⟨hreleased, hfed | hload⟩ := h.fed hab
    · refine Or.inl (hfeeds.mpr ⟨?_, hfed, fun heq => ha heq.1⟩)
      rintro rfl
      exact hreleased ⟨rfl, (hdone a).mpr ((feeds_iff hn').mp hfed)⟩
    · exact Or.inr hload
  case unfed =>
    intro a b hb hab
    obtain ⟨hne, hab, -⟩ := hfeeds.mp hab
    exact h.unfed (hgone hb hne) hab
  case starts =>
    intro a b ha hab
    obtain ⟨hne, hab⟩ := hflows.mp hab
    exact h.starts (hgone ha hne) hab
  case leads =>
    intro a b ha hab
    obtain ⟨hne, hab⟩ := hflows.mp hab
    exact h.leads (hgone ha hne) hab

theorem detach {n : Node} (hg : g.Wired g.outlines) (hcausal : g.Causal) (hevolved : g.Evolved)
    (hn : g.node? uid = some n) (hsent : n.isSentinel = false) :
    (g.detach uid).Wired g.outlines := by
  have hinstr := hcausal.formed.instruction_ne_none hn hsent
  obtain ⟨s, hs, hexit, hx⟩ := boundaries?_of_instruction hcausal.formed hn hinstr
  obtain ⟨x, hxnode, hxout⟩ := node?_of_outlines hx
  have hpreds : ∀ p ∈ n.predecessors, g.Feeds p uid ∧ p ≠ uid ∧ p ≠ s.exit := by
    intro p hp
    have hfed := (n.mem_predecessors p).mp hp
    have hprec := hcausal.precedes_of_fedBy hn hinstr hfed
    refine ⟨⟨n, hn, hfed⟩, Nat.ne_of_lt hprec.1, ?_⟩
    rintro rfl
    obtain ⟨-, q, -, hq, -, -, hqexit, -⟩ := hprec
    rw [hx] at hq
    cases hq
    cases hqexit
  have hloop : ∀ (preds done : List NodeId) (g' : Graph),
      (∀ p ∈ preds, p ∈ n.predecessors) → Releasing g.outlines g uid done g' →
      Releasing g.outlines g uid (preds.reverse ++ done)
        (preds.foldl (Graph.release (some s.exit) uid) g') := by
    intro preds
    induction preds with
    | nil => intro done g' _ h; exact h
    | cons p preds ih =>
      intro done g' hsub h
      obtain ⟨hfeeds, hne, hne'⟩ := hpreds p (hsub p List.mem_cons_self)
      rw [List.foldl_cons, List.reverse_cons, List.append_assoc]
      exact ih (p :: done) _ (fun q hq => hsub q (List.mem_cons_of_mem p hq))
        (h.release hg hevolved hxnode (Node.of_outline_exit hxout).1 hx rfl hexit.symm hne' hne
          hfeeds)
  have hreleased := hloop n.predecessors [] g (fun p hp => hp)
    { cores := rfl, self := rfl, ext := .refl g, listed := fun h _ => hg.listed h,
      fed := fun h => ⟨by simp, hg.fed h⟩, unfed := hg.unfed,
      starts := hg.starts, leads := hg.leads }
  have hburied := hreleased.bury hn fun a => by
    rw [List.append_nil, List.mem_reverse, n.mem_predecessors]
  rw [detach_eq hn hs]
  exact hburied.extend (fun _ _ ho => ho) Iff.rfl Iff.rfl id

theorem searched (hg : g.Wired g.outlines) (hc : g.Consistent) (hled : Led g.outlines)
    (h : g.Searched uid g') : g'.Wired g'.outlines := by
  have hformed := hc.causal.formed
  rw [h.outlines hformed]
  cases h with
  | unchanged => exact hg
  | linked hn hlive hsent hlinks => exact hg.links hformed hled hn hlive hsent hlinks
  | removed hn hlive hsent hlinks =>
    rename_i n g₁
    have hlinked := hg.links hformed hled hn hlive hsent hlinks
    have hout := hlinks.outlines
    obtain ⟨m, hm, hevolves⟩ := Extends.links hlinks hn
    have hevolved : g₁.Evolved := by
      apply hc.evolved.extend (.links hlinks)
      intro i k hi hk
      have hlt := lt_size_of_node? hk
      rw [← size_outlines, hout, size_outlines] at hlt
      exact absurd hlt (Nat.not_lt.mpr hi)
    have hdetach := (hout ▸ hlinked).detach (hc.causal.links hlinks) hevolved hm
      (hevolves.isSentinel_eq ▸ hsent)
    rwa [hout] at hdetach
  | collapsed hn hlive hsent hlinks hm hs hrest hmask =>
    have hlinked := hg.links hformed hled hn hlive hsent hlinks
    apply hlinked.extend (fun _ _ ho => ho)
    · apply feeds_update_congr
      intro m' hm' a
      rw [hm] at hm'
      cases hm'
      exact Node.fedBy_collapse _ hs hrest a
    · exact flows_update_congr (by intro m' _; rfl)
    · exact (gone_congr (cores_update (by intro m' _; rfl))).mp

/-- A result may take the place of what supplied a storage read. -/
theorem supply {host : Host} {n : Node} {opcode : Opcode} (hg : g.Wired g.outlines)
    (hn : g.node? uid = some n) (ho : n.is opcode = true) (result : Value)
    (state : Option String) :
    ((g.unpend uid).update uid (Graph.supply host.options opcode result state)).Wired
      g.outlines := by
  have hn' : (g.unpend uid).node? uid = some { n with awaiting := false } := by
    rw [node?_unpend, if_pos rfl, hn]
    rfl
  have hfeeds : ∀ {a b}, ((g.unpend uid).update uid
      (Graph.supply host.options opcode result state)).Feeds a b → g.Feeds a b := by
    intro a b hab
    rcases feeds_update.mp hab with ⟨hb, m, hm, hfed⟩ | ⟨rfl, m, hm, hfed⟩
    · rw [node?_unpend, if_neg hb] at hm
      exact ⟨m, hm, hfed⟩
    · rw [hn'] at hm
      cases hm
      have hfed' : ({ n with awaiting := false } : Node).FedBy a := fedBy_of_supply hfed
      exact ⟨n, hn, hfed'⟩
  have hflows : ∀ {a b}, ((g.unpend uid).update uid
      (Graph.supply host.options opcode result state)).Flows a b ↔ g.Flows a b := by
    intro a b
    rw [flows_update_congr (by intro m _; rfl)]
    exact flows_update_congr (f := fun m => { m with awaiting := false }) (by intro m _; rfl)
  have hgone : ∀ {i}, ((g.unpend uid).update uid
      (Graph.supply host.options opcode result state)).Gone i → g.Gone i := by
    rintro i ⟨m, hm, hdel⟩
    by_cases hi : i = uid
    · subst hi
      rw [node?_update_self hn'] at hm
      cases hm
      exact ⟨n, hn, hdel⟩
    · rw [node?_update_of_ne hi, node?_unpend, if_neg hi] at hm
      exact ⟨m, hm, hdel⟩
  constructor
  case listed => exact fun hab => hflows.mpr (hg.listed (hfeeds hab))
  case fed =>
    intro a b hab
    rcases hg.fed (hflows.mp hab) with ⟨m, hm, hfed⟩ | hload
    · by_cases hb : b = uid
      · subst hb
        rw [hn] at hm
        cases hm
        by_cases hload : opcode = .sload
        · subst hload
          exact Or.inr ⟨n.outline, outlines_of_node? hn, of_decide_eq_true ho⟩
        · refine Or.inl ⟨_, node?_update_self hn' _, ?_⟩
          simpa [Graph.supply, hload, Node.FedBy] using hfed
      · refine Or.inl ⟨m, ?_, hfed⟩
        rw [node?_update_of_ne hb, node?_unpend, if_neg hb, hm]
    · exact Or.inr hload
  case unfed => exact fun hb hab => hg.unfed (hgone hb) (hfeeds hab)
  case starts => exact fun ha hab => hg.starts (hgone ha) (hflows.mp hab)
  case leads => exact fun ha hab => hg.leads (hgone ha) (hflows.mp hab)

/-- A node that arrives goes to the exit alone. -/
theorem arrive {n x : Node} {exit : NodeId} (hg : g.Wired g.outlines) (huid : n.uid = g.size)
    (hunfed : ∀ a, ¬ n.FedBy a) (hsucc : n.successors = [exit]) (hlive : n.isDeleted = false)
    (hx : g.node? exit = some x) (hkind : x.kind = .exit) (hslot : 0 < x.slots.length) :
    (g.arrive n exit).Wired (g.outlines.push n.outline) := by
  have hlt := lt_size_of_node? hx
  have hold : ∀ ⦃i : NodeId⦄ ⦃o : Outline⦄, g.outlines[i]? = some o →
      (g.outlines.push n.outline)[i]? = some o := by
    intro i o ho
    rw [Array.getElem?_push, if_neg (Nat.ne_of_lt (Array.getElem?_eq_some_iff.mp ho).1), ho]
  have hgone : ∀ {i}, (g.arrive n exit).Gone i → g.Gone i ∧ i ≠ exit ∧ i ≠ g.size := by
    rintro i ⟨m, hm, hdel⟩
    rw [node?_arrive hlt] at hm
    split_ifs at hm with hi hi'
    · cases hm
      cases hlive.symm.trans hdel
    · rw [hi', hx] at hm
      cases hm
      have hdel' : x.isDeleted = true := hdel
      rw [Node.isDeleted, hkind] at hdel'
      cases hdel'
    · exact ⟨⟨m, hm, hdel⟩, hi', hi⟩
  constructor
  case listed =>
    intro a b
    rw [feeds_arrive huid hunfed hx hslot, flows_arrive hlt hsucc]
    exact Or.imp_left hg.listed
  case fed =>
    intro a b
    rw [feeds_arrive huid hunfed hx hslot, flows_arrive hlt hsucc]
    rintro (hab | hnew)
    · rcases hg.fed hab with hab | ⟨o, ho, hload⟩
      · exact Or.inl (Or.inl hab)
      · exact Or.inr ⟨o, hold ho, hload⟩
    · exact Or.inl (Or.inr hnew)
  case unfed =>
    intro a b hb
    rw [feeds_arrive huid hunfed hx hslot]
    rintro (hab | ⟨-, hexit⟩)
    · exact hg.unfed (hgone hb).1 hab
    · exact (hgone hb).2.1 hexit
  case starts =>
    intro a b ha
    rw [flows_arrive hlt hsucc]
    rintro (hab | ⟨hnew, -⟩)
    · obtain ⟨o, ho, hstarts⟩ := hg.starts (hgone ha).1 hab
      exact ⟨o, hold ho, hstarts⟩
    · exact absurd hnew (hgone ha).2.2
  case leads =>
    intro a b ha
    rw [flows_arrive hlt hsucc]
    rintro (hab | ⟨hnew, -⟩)
    · obtain ⟨o, ho, hleads⟩ := hg.leads (hgone ha).1 hab
      exact ⟨o, hold ho, hleads⟩
    · exact absurd hnew (hgone ha).2.2

theorem moves {host : Host} (hg : g.Wired g.outlines) (hc : g.Consistent) (hled : Led g.outlines)
    (h : g.Moves host g') : g'.Wired g'.outlines := by
  cases h with
  | search h => exact hg.searched hc hled h
  | unpend uid =>
    rw [outlines_unpend]
    apply hg.extend (fun _ _ ho => ho)
    · exact feeds_update_congr (f := fun m => { m with awaiting := false }) (by intro m _ a; rfl)
    · exact flows_update_congr (f := fun m => { m with awaiting := false }) (by intro m _; rfl)
    · rintro i ⟨m, hm, hdel⟩
      rw [node?_unpend] at hm
      split_ifs at hm
      · obtain ⟨k, hk, rfl⟩ := Option.map_eq_some_iff.mp hm
        exact ⟨k, hk, hdel⟩
      · exact ⟨m, hm, hdel⟩
  | supply huid hn ho result state =>
    rw [outlines_update (by intro m _; rfl), outlines_unpend]
    exact hg.supply hn ho result state
  | withFunction function =>
    refine hg.extend ?_ feeds_withFunction flows_withFunction ?_
    · intro i o ho
      obtain ⟨n, hn, rfl⟩ := node?_of_outlines ho
      exact outlines_of_node? (node?_withFunction_of_some hn host.options function)
    · rintro i ⟨m, hm, hdel⟩
      rcases node?_withFunction hm with hm | ⟨-, kind, rfl | rfl, rfl⟩
      · exact ⟨m, hm, hdel⟩
      · cases hdel
      · cases hdel
  | arrive category hs hfree =>
    rename_i a s
    obtain ⟨-, -, hexit⟩ := hc.causal.formed.of_sentinels? hs
    obtain ⟨x, hx, hxout⟩ := node?_of_outlines hexit
    obtain ⟨k, hbegins, hk⟩ := hc.evolved hx
    rw [outlines_arrive]
    exact hg.arrive rfl (not_fedBy_fresh rfl) rfl (decide_eq_false (a.kind_ne category).2.2) hx
      (Node.of_outline_exit hxout).1 (hk.slots_pos hbegins)

end Wired

theorem Consistent.led_moves {host : Host} {g g' : Graph} (hc : g.Consistent)
    (hg : Led g.outlines) (h : g.Moves host g') : Led g'.outlines := by
  cases h with
  | search h => exact h.outlines hc.causal.formed ▸ hg
  | unpend uid => exact outlines_unpend g uid ▸ hg
  | supply =>
    rw [outlines_update (by intro m _; rfl), outlines_unpend]
    exact hg
  | withFunction function =>
    intro i l o ho hl hne
    obtain ⟨n, hn, rfl⟩ := node?_of_outlines ho
    rcases node?_withFunction hn with hn | ⟨-, kind, -, rfl⟩
    · obtain ⟨p, hp, hleads⟩ := hg (outlines_of_node? hn) hl hne
      obtain ⟨m, hm, rfl⟩ := node?_of_outlines hp
      exact ⟨_, outlines_of_node? (node?_withFunction_of_some hm host.options function), hleads⟩
    · cases hl
  | arrive category hs hfree =>
    rename_i a s
    have hold : ∀ {i : NodeId} {o : Outline}, g.outlines[i]? = some o →
        (g.outlines.push (g.nodeOf host.options s a category).outline)[i]? = some o := by
      intro i o ho
      rw [Array.getElem?_push, if_neg (Nat.ne_of_lt (Array.getElem?_eq_some_iff.mp ho).1), ho]
    rw [outlines_arrive]
    intro i l o ho hl hne
    rw [Array.getElem?_push] at ho
    split_ifs at ho with hi
    · cases ho
      have hleader : l = g.leaderFor s.entry a.function a.tx a.address := by
        simp only [Outline.leader?, Node.instruction_outline, nodeOf, Option.map_some,
          Option.some.injEq] at hl
        split_ifs at hl
        · exact absurd (hl.symm.trans ((size_outlines g).symm.trans hi.symm)) hne
        · exact hl.symm
      rcases leaderFor_cases hc.causal.formed s.entry a.function a.tx a.address with
        hentry | ⟨m, hm, -, -, -, hstarts⟩
      · obtain ⟨-, he, -⟩ := hc.causal.formed.of_sentinels? hs
        exact ⟨_, hold (hleader.trans hentry ▸ he), Or.inl rfl⟩
      · exact ⟨m.outline, hold (hleader ▸ outlines_of_node? hm),
          Or.inr (hstarts.imp of_decide_eq_true of_decide_eq_true)⟩
    · obtain ⟨p, hp, hleads⟩ := hg ho hl hne
      exact ⟨p, hold hp, hleads⟩

end Graph
end OperandFlow
