import OperandFlow.Proofs.Graph.Causality
import OperandFlow.Proofs.Graph.Pacing

/-! The two ends of every edge agree, and an instruction goes to the exit of its function for as
long as nothing uses it. -/
namespace OperandFlow

/-- No edge is stored twice, what is gone goes nowhere, a live instruction goes to the exit alone
or to other instructions, and a node that waits is not linked yet. -/
structure Node.Tidy (os : Outlines) (n : Node) : Prop where
  successors_nodup : n.successors.Nodup
  preds_nodup : ∀ s ∈ n.slots, s.preds.Nodup
  buried : n.isDeleted = true → n.successors = []
  leaves : n.isDeleted = false → n.isSentinel = false → n.successors ≠ []
  leaves_alone : ∀ e ∈ n.successors, ∀ o, os[e]? = some o → o.isExit = true → n.successors = [e]
  exit_slot : n.kind = .exit → ∃ s, n.slots = [s]
  waiting : n.awaiting = true → (∀ a, ¬ n.FedBy a) ∧ ∀ target, n.kind ≠ .controlFlow target

namespace Node.Tidy

variable {os : Outlines} {n : Node}

theorem extend {os' : Outlines} (h : n.Tidy os)
    (hos : ∀ e ∈ n.successors, os'[e]? = os[e]?) : n.Tidy os' :=
  { h with leaves_alone := fun e he o ho => h.leaves_alone e he o (hos e he ▸ ho) }

theorem addPred {slot : Nat} {pred : NodeId} {s : Slot} (h : n.Tidy os)
    (hs : n.slots[slot]? = some s) (hnot : pred ∉ s.preds) (hwait : n.awaiting = false) :
    (n.addPred slot pred).Tidy os where
  successors_nodup := h.successors_nodup
  preds_nodup := by
    intro t ht
    obtain ⟨i, hi⟩ := List.mem_iff_getElem?.mp ht
    rw [slots_addPred] at hi
    split_ifs at hi with hslot
    · rw [hslot, hs] at hi
      cases hi
      have hnodup : s.preds.Nodup := h.preds_nodup s (List.mem_of_getElem? hs)
      exact hnodup.append (List.nodup_singleton pred) (List.disjoint_singleton.mpr hnot)
    · exact h.preds_nodup t (List.mem_of_getElem? hi)
  buried := h.buried
  leaves := h.leaves
  leaves_alone := h.leaves_alone
  exit_slot := by
    intro hkind
    obtain ⟨t, ht⟩ := h.exit_slot hkind
    have hlen : (n.addPred slot pred).slots.length = 1 := by
      simp [Node.addPred, List.length_modify, ht]
    exact List.length_eq_one_iff.mp hlen
  waiting := by
    intro hawait
    rw [show (n.addPred slot pred).awaiting = n.awaiting from rfl, hwait] at hawait
    cases hawait

theorem erasePred (h : n.Tidy os) (pred : NodeId) : (n.erasePred pred).Tidy os where
  successors_nodup := h.successors_nodup
  preds_nodup := by
    intro t ht
    obtain ⟨s, hs, rfl⟩ := List.mem_map.mp ht
    exact (h.preds_nodup s hs).filter _
  buried := h.buried
  leaves := h.leaves
  leaves_alone := h.leaves_alone
  exit_slot := by
    intro hkind
    obtain ⟨s, hs⟩ := h.exit_slot hkind
    exact ⟨s.erase pred, by simp [Node.erasePred, hs]⟩
  waiting := by
    intro hawait
    obtain ⟨hunfed, hkind⟩ := h.waiting hawait
    exact ⟨fun a ha => hunfed a ((n.fedBy_erasePred pred a).mp ha).1, hkind⟩

/-- A live node goes elsewhere. -/
theorem redirect {successors : List NodeId} (h : n.Tidy os) (hlive : n.isDeleted = false)
    (hnodup : successors.Nodup) (hne : n.isSentinel = false → successors ≠ [])
    (halone : ∀ e ∈ successors, ∀ o, os[e]? = some o → o.isExit = true → successors = [e]) :
    ({ n with successors } : Node).Tidy os where
  successors_nodup := hnodup
  preds_nodup := h.preds_nodup
  buried := by
    intro hdel
    cases hlive.symm.trans hdel
  leaves := fun _ hsent => hne hsent
  leaves_alone := halone
  exit_slot := h.exit_slot
  waiting := h.waiting

/-- A live node goes to `uid` in place of the exit. -/
theorem divert {exit uid : NodeId} (h : n.Tidy os) (hlive : n.isDeleted = false)
    (hsucc : ∀ e ∈ ((n.eraseSuccessor exit).addSuccessor uid).successors, ∀ o,
      os[e]? = some o → ¬ o.isExit = true) :
    ((n.eraseSuccessor exit).addSuccessor uid).Tidy os := by
  have hnodup : ((n.eraseSuccessor exit).addSuccessor uid).successors.Nodup := by
    have herase : (n.eraseSuccessor exit).successors.Nodup := h.successors_nodup.filter _
    rw [addSuccessor_eq]
    dsimp only
    split_ifs with hmem
    · exact herase
    · exact herase.append (List.nodup_singleton uid) (List.disjoint_singleton.mpr hmem)
  have hne : ((n.eraseSuccessor exit).addSuccessor uid).successors ≠ [] :=
    List.ne_nil_of_mem ((Node.mem_addSuccessor _ uid uid).mpr (Or.inr rfl))
  have heq : (n.eraseSuccessor exit).addSuccessor uid =
      { n with successors := ((n.eraseSuccessor exit).addSuccessor uid).successors } := by
    rw [addSuccessor_eq]
    rfl
  rw [heq]
  exact h.redirect hlive hnodup (fun _ => hne) fun e he o ho hexit =>
    absurd hexit (hsucc e he o ho)

/-- A live node goes to `uid` no longer, and somewhere else if it is an instruction. -/
theorem eraseSuccessor {uid : NodeId} (h : n.Tidy os) (hlive : n.isDeleted = false)
    (hrest : n.isSentinel = false → ∃ b ∈ n.successors, b ≠ uid) :
    (n.eraseSuccessor uid).Tidy os := by
  refine h.redirect hlive (h.successors_nodup.filter _) ?_ ?_
  · intro hsent
    obtain ⟨b, hb, hne⟩ := hrest hsent
    exact List.ne_nil_of_mem ((n.mem_eraseSuccessor uid b).mpr ⟨hb, hne⟩)
  · intro e he o ho hexit
    rw [List.mem_filter] at he
    rw [h.leaves_alone e he.1 o ho hexit, List.filter_cons, if_pos he.2, List.filter_nil]

/-- A node on which nothing is stored yet, but where it goes. -/
theorem fresh (hfresh : ∀ s ∈ n.slots, s.preds = []) (hlive : n.isDeleted = false)
    (hgoes : n.isSentinel = true ∧ n.successors = [] ∨ ∃ e, n.successors = [e])
    (hexit : n.kind = .exit → ∃ s, n.slots = [s])
    (hkind : n.awaiting = true → ∀ target, n.kind ≠ .controlFlow target) : n.Tidy os where
  successors_nodup := by
    rcases hgoes with ⟨-, hnil⟩ | ⟨e, he⟩
    · exact hnil ▸ List.nodup_nil
    · exact he ▸ List.nodup_singleton e
  preds_nodup := by
    intro s hs
    rw [hfresh s hs]
    exact List.nodup_nil
  buried := by
    intro hdel
    cases hlive.symm.trans hdel
  leaves := by
    intro _ hsent
    rcases hgoes with ⟨hsent', -⟩ | ⟨e, he⟩
    · cases hsent.symm.trans hsent'
    · simp [he]
  leaves_alone := by
    intro e he _ _ _
    rcases hgoes with ⟨-, hnil⟩ | ⟨e', he'⟩
    · rw [hnil] at he
      cases he
    · rw [he', List.mem_singleton] at he
      rw [he', he]
  exit_slot := hexit
  waiting := by
    intro hawait
    refine ⟨?_, hkind hawait⟩
    rintro a ⟨s, hs, ha⟩
    rw [hfresh s hs] at ha
    cases ha

theorem bury (n : Node) : n.bury.Tidy os where
  successors_nodup := List.nodup_nil
  preds_nodup := by
    intro t ht
    obtain ⟨s, -, rfl⟩ := List.mem_map.mp ht
    exact List.nodup_nil
  buried := fun _ => rfl
  leaves := by
    intro hlive
    cases hlive
  leaves_alone := by
    intro e he
    cases he
  exit_slot := by
    intro hkind
    cases hkind
  waiting := by
    intro hawait
    cases hawait

end Node.Tidy

namespace Graph


def IsTidy (g : Graph) (os : Outlines) : Prop :=
  ∀ ⦃i : NodeId⦄ ⦃n : Node⦄, g.node? i = some n → n.Tidy os

theorem IsTidy.update {g : Graph} {os : Outlines} {uid : NodeId} {f : Node → Node}
    (h : g.IsTidy os) (hf : ∀ n, g.node? uid = some n → n.Tidy os → (f n).Tidy os) :
    (g.update uid f).IsTidy os := by
  intro i n hn
  rw [node?_update] at hn
  split_ifs at hn with hi
  · subst hi
    obtain ⟨m, hm, rfl⟩ := Option.map_eq_some_iff.mp hn
    exact hf m hm (h hm)
  · exact h hn

structure Coherent (g : Graph) : Prop where
  causal : g.Causal
  paced : g.Paced
  agree : ∀ {a b : NodeId}, g.Flows a b ↔ g.Feeds a b
  tidy : g.IsTidy g.outlines

theorem coherent_empty : empty.Coherent where
  causal := causal_empty
  paced := paced_empty
  agree := by simp [Flows, Feeds]
  tidy := by
    intro i n hn
    cases hn

namespace Coherent

variable {g g' : Graph}

/-- What supplies a node is not gone. -/
theorem live_of_feeds (hg : g.Coherent) {a b : NodeId} {m : Node} (hm : g.node? a = some m)
    (h : g.Feeds a b) : m.isDeleted = false := by
  have hmem := (flows_iff hm).mp (hg.agree.mpr h)
  by_contra hdel
  rw [(hg.tidy hm).buried (by simpa using hdel)] at hmem
  cases hmem

/-- The only exit a node can go to is that of its function. -/
theorem exit_of_flows (hg : g.Coherent) {a e : NodeId} {m : Node} {s : Sentinels} {o : Outline}
    (hm : g.node? a = some m) (hs : g.sentinels? m.function = some s) (he : e ∈ m.successors)
    (ho : g.outlines[e]? = some o) (hexit : o.isExit = true) : e = s.exit := by
  rcases hg.causal.sourced (hg.agree.mp ((flows_iff hm).mpr he)) with
    ⟨-, -, q, -, hq, -, -, hinstr, -⟩ | ⟨p, q, hp, hq, hfun, -, hx⟩
  · rw [ho] at hq
    cases hq
    exact absurd ((hg.causal.formed.bare_iff ho).mpr (Or.inr hexit)) hinstr
  · rw [outlines_of_node? hm] at hp
    cases hp
    obtain ⟨-, -, hx'⟩ := hg.causal.formed.of_sentinels? hs
    exact hg.causal.formed.exit_unique hq hx' hx rfl hfun.symm

/-- Sentinels never wait. -/
theorem not_awaiting_of_bare (hg : g.Coherent) {i : NodeId} {n : Node} (hn : g.node? i = some n)
    (hbare : n.instruction = none) : n.awaiting = false := by
  by_contra hawait
  obtain ⟨m, hm, hinstr, -⟩ := hg.paced.live ((hg.paced.awaiting_iff hn).mp (by simpa using hawait))
  rw [hn] at hm
  cases hm
  exact hinstr hbare

theorem connect {pred uid : NodeId} {slot : Nat} {n m : Node} {t : Slot} (hg : g.Coherent)
    (hn : g.node? uid = some n) (ht : n.slots[slot]? = some t) (hnot : pred ∉ t.preds)
    (hwait : n.awaiting = false) (hprec : Precedes g.outlines pred uid)
    (hm : g.node? pred = some m) (hlive : m.isDeleted = false) :
    (g.connect pred uid slot).Coherent := by
  have hformed := hg.causal.formed
  obtain ⟨hlt, p, q, hp, hq, hfun, -, hinstr, -⟩ := id hprec
  rw [outlines_of_node? hn] at hq
  cases hq
  rw [outlines_of_node? hm] at hp
  cases hp
  have hne : pred ≠ uid := Nat.ne_of_lt hlt
  obtain ⟨s, hs, hexit, hx⟩ := boundaries?_of_instruction hformed hn hinstr
  have hslot : slot < n.slots.length := (List.getElem?_eq_some_iff.mp ht).1
  refine ⟨hg.causal.connect hprec, hg.paced.congr (g.cores_connect pred uid slot)
    (g.pending_connect pred uid slot), ?_, ?_⟩
  · intro a b
    rw [flows_connect hm hs hne, feeds_connect hn hslot hs hexit, hg.agree]
  · rw [outlines_connect]
    unfold Graph.connect
    simp only [hs, Option.map_some]
    refine IsTidy.update (IsTidy.update (IsTidy.update hg.tidy ?_) ?_) ?_
    · intro n' hn' htidy
      rw [hn] at hn'
      cases hn'
      exact htidy.addPred ht hnot hwait
    · intro m' hm' htidy
      rw [node?_update_of_ne hne, hm] at hm'
      cases hm'
      apply htidy.divert hlive
      intro e he o ho hisExit
      rw [Node.mem_addSuccessor, Node.mem_eraseSuccessor] at he
      rcases he with ⟨he, hne'⟩ | rfl
      · refine hne' (hg.exit_of_flows hm ?_ he ho hisExit)
        rw [show m.function = n.function from hfun]
        simpa [boundaries?, hn] using hs
      · rw [outlines_of_node? hn] at ho
        cases ho
        exact hinstr ((hformed.bare_iff (outlines_of_node? hn)).mpr (Or.inr hisExit))
    · intro x _ htidy
      exact htidy.erasePred pred

/-- Linking a node that waits no longer, to nodes that are still there. -/
theorem links {uid : NodeId} {n : Node} {g₁ : Graph} (hg : g.Coherent) (hn : g.node? uid = some n)
    (hwait : n.awaiting = false)
    (hleader : ∀ target l m, n.kind = .controlFlow target → n.leader? = some l →
      g.node? l = some m → m.isDeleted = false)
    (h : g.Links n g₁) : g₁.Coherent := by
  obtain ⟨links, hlinks, rfl⟩ := h
  have huid : n.uid = uid := hg.causal.formed.uid_node hn
  subst huid
  have key : (g.linkAll n.uid links).cores = g.cores ∧ (g.linkAll n.uid links).Coherent := by
    apply linkAll_induction (P := fun g' => g'.cores = g.cores ∧ g'.Coherent) ⟨rfl, hg⟩
    intro g' pred slot n' t ⟨hcores, hg'⟩ hl hn' ht _ hnot
    obtain ⟨hprec, ⟨m, hm, hlive⟩, -⟩ := hlinks _ hl
    obtain ⟨k, hk, hcore⟩ := node?_of_cores hcores hn
    rw [hn'] at hk
    cases hk
    obtain ⟨m', hm', hcore'⟩ := node?_of_cores hcores hm
    have hlive' : m.isDeleted = false := by
      rcases hlive with hlive | ⟨hl, target, hkind⟩
      · exact hlive
      · exact hleader target pred m hkind hl hm
    refine ⟨by rw [cores_connect, hcores], hg'.connect hn' ht hnot ?_ ?_ hm' ?_⟩
    · rw [(Node.of_core hcore).2.2, hwait]
    · rw [outlines_of_cores hcores]
      exact hprec
    · rw [Node.isDeleted, (Node.of_core hcore').2.1]
      exact hlive'
  exact key.2

/-- In the midst of a removal: `uid` is no longer a successor of the nodes `done`. -/
structure Releasing (g : Graph) (uid : NodeId) (done : List NodeId) (g' : Graph) : Prop where
  cores : g'.cores = g.cores
  self : g'.node? uid = g.node? uid
  agree : ∀ {a b : NodeId}, g'.Flows a b ↔ g'.Feeds a b ∧ ¬(b = uid ∧ a ∈ done)
  tidy : g'.IsTidy g.outlines

theorem Releasing.release {uid pred : NodeId} {s : Sentinels} {done : List NodeId} {n m : Node}
    (hg : g.Coherent) (hn : g.node? uid = some n) (hinstr : n.instruction ≠ none)
    (hs : g.boundaries? uid = some s) (hprec : Precedes g.outlines pred uid)
    (hm : g.node? pred = some m) (hlive : m.isDeleted = false) (h : Releasing g uid done g') :
    Releasing g uid (pred :: done) (release (some s.exit) uid g' pred) := by
  obtain ⟨s', hs', hexit, hx⟩ := boundaries?_of_instruction hg.causal.formed hn hinstr
  rw [hs] at hs'
  cases hs'
  obtain ⟨x, hxnode, hxout⟩ := node?_of_outlines hx
  obtain ⟨x', hx', hxcore⟩ := node?_of_cores h.cores hxnode
  obtain ⟨m', hm', hmcore⟩ := node?_of_cores h.cores hm
  have hxkind : x'.kind = .exit :=
    (Node.of_core hxcore).2.1.trans (Node.of_outline_exit hxout).1
  obtain ⟨t, ht⟩ := (h.tidy hx').exit_slot hxkind
  have hslot : 0 < x'.slots.length := by simp [ht]
  have hne : pred ≠ s.exit := by
    rintro rfl
    obtain ⟨-, p, -, hp, -, -, hpx, -⟩ := hprec
    rw [hx] at hp
    cases hp
    cases hpx
  have hlive' : m'.isDeleted = false := by
    rw [Node.isDeleted, (Node.of_core hmcore).2.1]
    exact hlive
  constructor
  case cores => rw [cores_release, h.cores]
  case self => rw [node?_release_of_ne (Nat.ne_of_gt hprec.1) hexit, h.self]
  case agree =>
    intro a b
    rw [flows_release hexit.symm, feeds_release hx' hslot hne, h.agree, List.mem_cons]
    grind
  case tidy =>
    by_cases hstr : g'.Stranded uid pred
    · obtain ⟨k, hk, -, hall⟩ := id hstr
      rw [hm'] at hk
      cases hk
      have hnot : pred ∉ t.preds := by
        intro hmem
        have hfeeds : g'.Feeds pred s.exit := ⟨x', hx', t, by simp [ht], hmem⟩
        have hflows := h.agree.mpr ⟨hfeeds, fun hb => hexit hb.1.symm⟩
        exact hexit (hall _ ((flows_iff hm').mp hflows)).symm
      rw [release_of_stranded hstr]
      refine IsTidy.update (IsTidy.update h.tidy ?_) ?_
      · intro k hk htidy
        rw [hm'] at hk
        cases hk
        refine htidy.redirect hlive' (List.nodup_singleton _) (fun _ => by simp) ?_
        intro e he o _ _
        rw [List.mem_singleton.mp he]
      · intro k hk htidy
        rw [node?_update_of_ne hne.symm, hx'] at hk
        cases hk
        refine htidy.addPred (s := t) (by simp [ht]) hnot ?_
        rw [(Node.of_core hxcore).2.2]
        exact hg.not_awaiting_of_bare hxnode (Node.of_outline_exit hxout).2
    · rw [release_of_not_stranded hstr]
      refine IsTidy.update h.tidy ?_
      intro k hk htidy
      rw [hm'] at hk
      cases hk
      apply htidy.eraseSuccessor hlive'
      intro hsent
      by_contra hnone
      push Not at hnone
      exact hstr ⟨m', hm', hsent, hnone⟩

/-- Once all its predecessors are released, a node can be buried. -/
theorem Releasing.bury {uid : NodeId} {done : List NodeId} {n : Node} (hn : g.node? uid = some n)
    (hdone : ∀ a, a ∈ done ↔ n.FedBy a) (hself : uid ∉ done) (h : Releasing g uid done g')
    {a b : NodeId} :
    ((g'.withdraw uid n.successors).update uid Node.bury).Flows a b ↔
      ((g'.withdraw uid n.successors).update uid Node.bury).Feeds a b := by
  have hn' : g'.node? uid = some n := h.self.trans hn
  have hfed : ∀ a, g'.Feeds a uid ↔ a ∈ done := fun a => by rw [feeds_iff hn', hdone]
  have hout : ∀ b, g'.Flows uid b ↔ b ∈ n.successors := fun b => flows_iff hn'
  have hflows : ((g'.withdraw uid n.successors).update uid Node.bury).Flows a b ↔
      a ≠ uid ∧ g'.Flows a b := by
    rw [flows_update, flows_withdraw]
    simp [Node.bury]
  have hfeeds : ((g'.withdraw uid n.successors).update uid Node.bury).Feeds a b ↔
      b ≠ uid ∧ g'.Feeds a b ∧ ¬(a = uid ∧ b ∈ n.successors) := by
    rw [feeds_update, feeds_withdraw]
    simp [Node.not_fedBy_bury]
  rw [hflows, hfeeds, h.agree]
  constructor
  · rintro ⟨ha, hab, hnot⟩
    refine ⟨?_, hab, fun h => ha h.1⟩
    rintro rfl
    exact hnot ⟨rfl, (hfed a).mp hab⟩
  · rintro ⟨hb, hab, hnot⟩
    refine ⟨?_, hab, fun h => hb h.1⟩
    rintro rfl
    exact hnot ⟨rfl, (hout b).mp (h.agree.mpr ⟨hab, fun h => hb h.1⟩)⟩

theorem detach {uid : NodeId} {n : Node} (hg : g.Coherent) (hn : g.node? uid = some n)
    (hlive : n.isDeleted = false) (hsent : n.isSentinel = false) : (g.detach uid).Coherent := by
  have hformed := hg.causal.formed
  have hinstr := hformed.instruction_ne_none hn hsent
  obtain ⟨s, hs, hexit, -⟩ := boundaries?_of_instruction hformed hn hinstr
  have hpreds : ∀ p ∈ n.predecessors, Precedes g.outlines p uid ∧
      ∃ m, g.node? p = some m ∧ m.isDeleted = false := by
    intro p hp
    have hfeeds : g.Feeds p uid := ⟨n, hn, (n.mem_predecessors p).mp hp⟩
    obtain ⟨m, hm, -⟩ := hg.agree.mpr hfeeds
    exact ⟨hg.causal.precedes_of_feeds hn (hformed.kind_ne_exit hn hinstr) hfeeds, m, hm,
      hg.live_of_feeds hm hfeeds⟩
  have hloop : ∀ (preds done : List NodeId) (g' : Graph),
      (∀ p ∈ preds, p ∈ n.predecessors) → Releasing g uid done g' →
      Releasing g uid (preds.reverse ++ done)
        (preds.foldl (Graph.release (some s.exit) uid) g') := by
    intro preds
    induction preds with
    | nil => intro done g' _ h; exact h
    | cons p preds ih =>
      intro done g' hsub h
      obtain ⟨hprec, m, hm, hm'⟩ := hpreds p (hsub p List.mem_cons_self)
      rw [List.foldl_cons, List.reverse_cons, List.append_assoc]
      exact ih (p :: done) _ (fun q hq => hsub q (List.mem_cons_of_mem p hq))
        (h.release hg hn hinstr hs hprec hm hm')
  have hreleased := hloop n.predecessors [] g (fun p hp => hp)
    ⟨rfl, rfl, by simp [hg.agree], hg.tidy⟩
  have hdone : ∀ a, a ∈ n.predecessors.reverse ++ [] ↔ n.FedBy a := by
    intro a
    rw [List.append_nil, List.mem_reverse, n.mem_predecessors]
  have hself : uid ∉ n.predecessors.reverse ++ [] := by
    intro hmem
    rw [List.append_nil, List.mem_reverse] at hmem
    exact Nat.lt_irrefl uid (hpreds uid hmem).1.1
  refine ⟨hg.causal.detach hn hsent, hg.paced.searched hformed (.removed hn hlive hsent
    (Links.refl g n)), ?_, ?_⟩
  · intro a b
    rw [detach_eq hn hs]
    exact hreleased.bury hn hdone hself
  · rw [outlines_detach hformed hn hsent, detach_eq hn hs]
    intro i m hm
    refine IsTidy.update (f := Node.bury) ?_ (fun m _ _ => .bury m) hm
    intro j k hk
    rw [node?_withdraw] at hk
    split_ifs at hk
    · obtain ⟨l, hl, rfl⟩ := Option.map_eq_some_iff.mp hk
      exact (hreleased.tidy hl).erasePred uid
    · exact hreleased.tidy hk

end Coherent
end Graph
end OperandFlow
