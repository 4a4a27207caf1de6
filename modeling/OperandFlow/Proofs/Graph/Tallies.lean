import OperandFlow.Proofs.Graph.Census
import OperandFlow.Proofs.Graph.Questions
import OperandFlow.Proofs.Graph.Steady
import OperandFlow.Proofs.Session

/-! Whatever happens to a graph, the events that are counted on the way say by how much its census
changes. -/
namespace OperandFlow

open Analysis

theorem Analysis.Harmless.countP {es : List Event} (h : Harmless es) (c : Counter) :
    es.countP c.counts = 0 := by
  rw [List.countP_eq_zero]
  intro e he
  have hremark := h e he
  cases e <;> cases c <;> simp_all [Counter.counts, Event.isRemark]

theorem Analysis.harmless_nil : Harmless [] := List.forall_mem_nil _

/-- A question changes nothing. -/
theorem Asking.harmless {es : List Event} (h : Asking es) : Harmless es := by
  intro e he
  have hquestion := h e he
  cases e <;> simp_all [Event.isQuestion, Event.isRemark]

namespace Graph

/-- From `g` to `g'` no node is made, and the census changes by what is counted of the events. -/
structure Tallies (c : Counter) (g g' : Graph) (es : List Event) : Prop where
  outlines : g'.outlines = g.outlines
  census : g'.census c = g.census c + es.countP c.counts

namespace Tallies

variable {c : Counter} {g g₁ g₂ : Graph} {es es' : List Event}

theorem refl (h : es.countP c.counts = 0) : Tallies c g g es := ⟨rfl, by rw [h, Nat.add_zero]⟩

theorem trans (h : Tallies c g g₁ es) (h' : Tallies c g₁ g₂ es') : Tallies c g g₂ (es ++ es') where
  outlines := h'.outlines.trans h.outlines
  census := by rw [h'.census, h.census, List.countP_append, Nat.add_assoc]

theorem harmless (h : Harmless es) : Tallies c g g es := refl (h.countP c)

/-- Nothing is done at the end. -/
theorem stop (h : Tallies c g g₁ es) : Tallies c g g₁ (es ++ []) := h.trans (refl rfl)

/-- Every step of a loop tallies, given what the steps before it leave. -/
theorem fold {α : Type} {f : Graph → α → Logged Graph} {P : Graph → List α → Prop}
    (step : ∀ g a l, P g (a :: l) →
      Tallies c g (f g a).value (f g a).events ∧ P (f g a).value l)
    {l : List α} (h : P g l) :
    Tallies c g (Logged.fold f g l).value (Logged.fold f g l).events := by
  induction l generalizing g with
  | nil => exact refl rfl
  | cons a l ih =>
    obtain ⟨hstep, hrest⟩ := step g a l h
    exact hstep.trans (ih hrest)

end Tallies

/-- The node at `uid` is an instruction. -/
def IsInstruction (os : Outlines) (uid : NodeId) : Prop :=
  ∃ o, os[uid]? = some o ∧ o.instruction ≠ none

section Links

variable {c : Counter} {host : Host} {g : Graph} {n : Node} (hg : Formed g.outlines)
  (hi : IsInstruction g.outlines n.uid)
include hg hi

theorem tallies_link (pred : NodeId) (slot : Nat) :
    Tallies c g (g.link pred n.uid slot).value (g.link pred n.uid slot).events := by
  unfold link
  split
  · exact .refl rfl
  · rename_i s hs
    obtain ⟨m, hm, hs⟩ := Option.bind_eq_some_iff.mp hs
    split_ifs with hif
    · exact .refl rfl
    · rw [not_or] at hif
      obtain ⟨o, ho, hinstr⟩ := hi
      rw [outlines_of_node? hm] at ho
      cases ho
      exact ⟨outlines_connect g pred n.uid slot, census_connect hg hm hinstr hs hif.1⟩

theorem tallies_linkFound (found : Option NodeId) (slot : Nat) :
    Tallies c g (g.linkFound n.uid found slot).value (g.linkFound n.uid found slot).events := by
  cases found with
  | none => exact .refl rfl
  | some pred => exact tallies_link hg hi pred slot

theorem tallies_linkEach {α : Type} (found : α → Option NodeId) (slot : α → Nat) (l : List α) :
    Tallies c g (Logged.fold (fun g a => g.linkFound n.uid (found a) (slot a)) g l).value
      (Logged.fold (fun g a => g.linkFound n.uid (found a) (slot a)) g l).events := by
  apply Tallies.fold (P := fun g' _ => g'.outlines = g.outlines) _ rfl
  intro g' a l hout
  have hfound := tallies_linkFound (c := c) (hout ▸ hg) (hout ▸ hi) (found a) (slot a)
  exact ⟨hfound, hfound.outlines.trans hout⟩

theorem tallies_linkSlots :
    Tallies c g (g.linkSlots host n).value.1 (g.linkSlots host n).events := by
  have hlooks := asking_map (asking_resolve host (g.candidates host.options.reach n)) n.slots
  exact (Tallies.harmless hlooks.harmless).trans (tallies_linkEach hg hi _ _ _).stop

theorem tallies_linkSlot (slot : Nat) (candidates : List Node) :
    Tallies c g (g.linkSlot host n slot candidates).value
      (g.linkSlot host n slot candidates).events := by
  unfold linkSlot
  split
  · exact .refl rfl
  · exact (Tallies.harmless (asking_resolve host candidates _).harmless).trans
      (tallies_linkFound hg hi _ slot)

theorem tallies_linkStore :
    Tallies c g (g.linkStore host n).value (g.linkStore host n).events := by
  have hkey : Tallies c g (g.linkKey host n (g.candidates host.options.reach n)).value
      (g.linkKey host n (g.candidates host.options.reach n)).events := tallies_linkSlot hg hi 0 _
  exact hkey.trans (tallies_linkSlot (hkey.outlines ▸ hg) (hkey.outlines ▸ hi) 1 _)

theorem tallies_linkLoad :
    Tallies c g (g.linkLoad host n).value (g.linkLoad host n).events := by
  have hkey : Tallies c g (g.linkKey host n (g.candidates host.options.reach n)).value
      (g.linkKey host n (g.candidates host.options.reach n)).events := tallies_linkSlot hg hi 0 _
  unfold linkLoad
  refine hkey.trans ?_
  dsimp only
  split
  · split
    · exact .refl rfl
    · exact (Tallies.harmless (asking_find? (asking_writesTo host _) _).harmless).trans
        (tallies_linkFound (hkey.outlines ▸ hg) (hkey.outlines ▸ hi) _ 1)
  · exact .refl rfl

/-- The hash of a malformed preimage is not linked at all. -/
theorem tallies_linkPreimage :
    Tallies c g (g.linkPreimage host n).value.2 (g.linkPreimage host n).events := by
  unfold linkPreimage
  split
  · exact .refl rfl
  · split
    · exact .refl rfl
    · simp only [Logged.value_bind, Logged.events_bind]
      refine (Tallies.harmless (asking_consult _).harmless).trans ?_
      split
      · exact .refl rfl
      split
      · exact (tallies_linkFound hg hi _ 0).stop
      split
      · exact .refl rfl
      · exact (Tallies.harmless (asking_map (fun key => asking_find?
          (asking_yieldsKey key) _) _).harmless).trans (tallies_linkEach hg hi _ _ _).stop

theorem tallies_linkParameter :
    Tallies c g (g.linkParameter host n).value (g.linkParameter host n).events := by
  unfold linkParameter
  split
  · exact .refl rfl
  · split
    · exact .refl rfl
    split
    · have hslots : Tallies c g (g.linkSlots host n).value.1 (g.linkSlots host n).events :=
        tallies_linkSlots hg hi
      simp only [Logged.value_bind, Logged.events_bind]
      refine hslots.trans ?_
      split
      · exact .refl rfl
      · exact tallies_linkFound (hslots.outlines ▸ hg) (hslots.outlines ▸ hi) _ 0
    · exact tallies_linkFound hg hi _ 0

/-- Of a mask, only slots without a producer are dropped, and only one without any is removed. -/
theorem tallies_settleMask (hn : g.node? n.uid = some n) (hlive : n.isDeleted = false)
    (hsent : n.isSentinel = false) (hloose : c = .linked → g.Loose n.uid) :
    Tallies c g (g.settleMask host n).value (g.settleMask host n).events := by
  have hslots : Tallies c g (g.linkSlots host n).value.1 (g.linkSlots host n).events :=
    tallies_linkSlots hg hi
  unfold settleMask
  simp only [Logged.value_bind, Logged.events_bind]
  refine hslots.trans ?_
  split
  · exact .refl rfl
  split
  · rename_i hnone
    rw [linkSlots_of_unresolved hnone]
    exact ⟨outlines_detach hg hn hsent, census_detach hg hn hlive hsent hloose⟩
  · rename_i only hkept
    unfold collapse
    split
    · exact .refl rfl
    · rename_i s hs
      obtain ⟨m, hm, hs⟩ := Option.bind_eq_some_iff.mp hs
      refine ⟨outlines_update fun _ _ => rfl, ?_⟩
      refine (census_collapse hm hs ?_).trans (by cases c <;> rfl)
      intro i t ht hne
      apply preds_linkSlots hg hn (hg.instruction_ne_none hn hsent) hm ht
      rw [Ne, ← mem_resolved, hkept, List.mem_singleton]
      exact hne
  · exact .refl rfl

theorem tallies_linkDestination (hn : g.node? n.uid = some n) (hlive : n.isDeleted = false)
    (hsent : n.isSentinel = false) (hloose : c = .linked → g.Loose n.uid) :
    Tallies c g (g.linkDestination host n).value (g.linkDestination host n).events := by
  unfold linkDestination
  split
  · exact .refl rfl
  dsimp only
  split
  · exact tallies_link hg hi _ 0
  split
  · have hmissed : Tallies c g g [.sourceMissed n.uid n.address] := .refl (by cases c <;> rfl)
    exact hmissed.trans ⟨outlines_detach hg hn hsent, census_detach hg hn hlive hsent hloose⟩
  · exact tallies_linkFound hg hi _ 0

theorem tallies_linkNode (hn : g.node? n.uid = some n) (hlive : n.isDeleted = false)
    (hsent : n.isSentinel = false) (hloose : c = .linked → g.Loose n.uid) (o : Opcode) :
    Tallies c g (g.linkNode host n o).value.2 (g.linkNode host n o).events := by
  have hslots : Tallies c g (g.linkSlots host n).value.1 (g.linkSlots host n).events :=
    tallies_linkSlots hg hi
  unfold linkNode
  split
  · exact (tallies_linkStore hg hi).stop
  · exact (tallies_linkLoad hg hi).stop
  · exact tallies_linkPreimage hg hi
  · exact (tallies_settleMask hg hi hn hlive hsent hloose).stop
  · exact (tallies_settleMask hg hi hn hlive hsent hloose).stop
  · exact (tallies_linkParameter hg hi).stop
  · split
    · exact (tallies_linkFound hg hi _ 0).stop
    · exact hslots.stop
  · exact (tallies_linkDestination hg hi hn hlive hsent hloose).stop
  · exact (tallies_linkFound hg hi _ 0).stop
  -- Four kinds of nodes link all their slots, and four are not linked.
  iterate 4 exact hslots.stop
  all_goals exact .refl rfl

end Links

section Growth

variable {c : Counter} {host : Host} {g : Graph} {uid : NodeId}

theorem tallies_findEdges (host : Host) (hg : Formed g.outlines)
    (hloose : c = .linked → g.Loose uid) :
    Tallies c g (g.findEdges host uid).value.2 (g.findEdges host uid).events := by
  unfold findEdges
  split
  · exact .refl rfl
  · rename_i n hn
    have huid : n.uid = uid := hg.uid_node hn
    subst huid
    split
    · rename_i o hflags ho
      rw [Bool.or_eq_false_iff] at hflags
      have hi : IsInstruction g.outlines n.uid :=
        ⟨n.outline, outlines_of_node? hn, hg.instruction_ne_none hn hflags.2⟩
      have hstart : Tallies c g g [.edgeSearchStarted o n.uid] := .refl (by cases c <;> rfl)
      exact hstart.trans (tallies_linkNode hg hi hn hflags.1 hflags.2 hloose o)
    · exact .refl rfl

theorem tallies_runEdgeSearch (host : Host) (hg : Formed g.outlines)
    (hloose : c = .linked → g.Loose uid) :
    Tallies c g (g.runEdgeSearch host uid).value (g.runEdgeSearch host uid).events := by
  have hfound : Tallies c g (g.findEdges host uid).value.2 (g.findEdges host uid).events :=
    tallies_findEdges host hg hloose
  unfold runEdgeSearch
  simp only [Logged.value_bind, Logged.events_bind]
  refine hfound.trans ?_
  cases (g.findEdges host uid).value.1 <;> cases (g.node? uid).bind (·.opcode?) <;>
    exact .refl (by cases c <;> rfl)

theorem tallies_finish (host : Host) (hg : Formed g.outlines)
    (hloose : c = .linked → g.Loose uid) :
    Tallies c g (finish host g uid).value (finish host g uid).events := by
  have hunpend : Tallies c g (g.unpend uid) [.resultMissed uid] :=
    ⟨outlines_unpend g uid, (census_unpend g uid).trans (by cases c <;> rfl)⟩
  exact hunpend.trans
    (tallies_runEdgeSearch host (hunpend.outlines ▸ hg) fun hc => (hloose hc).unpend)

/-- A node as it arrived is loose as long as nothing follows it. -/
theorem Coherent.loose {n : Node} (hg : g.Coherent) (hn : g.node? uid = some n) (hfresh : n.Fresh)
    (hlast : ∀ b, ¬ Precedes g.outlines uid b) : g.Loose uid := by
  intro m hm
  rw [hn] at hm
  cases hm
  refine ⟨hfresh.unlinked, ?_⟩
  intro b hb
  rcases hg.causal.sourced (hg.agree.mp ((flows_iff hn).mpr hb)) with
    hprec | ⟨-, q, -, hq, -, -, hexit⟩
  · exact absurd hprec (hlast b)
  · exact ⟨q, hq, hexit⟩

theorem Steady.loose (h : g.Steady host) (huid : uid ∈ g.pending) : g.Loose uid := by
  obtain ⟨n, hn, -, -⟩ := h.coherent.paced.live huid
  exact h.coherent.loose hn (h.accounted.fresh h.coherent huid hn)
    fun _ => h.coherent.paced.last huid

theorem tallies_flushWhere (hg : Formed g.outlines) (hsteady : c = .linked → g.Steady host)
    (p : Node → Bool) :
    Tallies c g (g.flushWhere host p).value (g.flushWhere host p).events := by
  apply Tallies.fold (P := fun g uids => Formed g.outlines ∧
    (c = .linked → g.Steady host ∧ uids.Nodup ∧ ∀ uid ∈ uids, uid ∈ g.pending))
  · intro g uid uids ⟨hg, hlinked⟩
    have hfinish : Tallies c g (finish host g uid).value (finish host g uid).events := by
      apply tallies_finish host hg
      intro hc
      obtain ⟨hsteady, -, hsub⟩ := hlinked hc
      exact hsteady.loose (hsub uid List.mem_cons_self)
    refine ⟨hfinish, hfinish.outlines ▸ hg, ?_⟩
    intro hc
    obtain ⟨hsteady, hnodup, hsub⟩ := hlinked hc
    rw [List.nodup_cons] at hnodup
    refine ⟨hsteady.finish (hsub uid List.mem_cons_self), hnodup.2, ?_⟩
    intro i hi
    rw [pending_finish host hg, List.mem_filter, decide_eq_true_eq]
    exact ⟨hsub i (List.mem_cons_of_mem uid hi), fun heq => hnodup.1 (heq ▸ hi)⟩
  · refine ⟨hg, ?_⟩
    intro hc
    exact ⟨hsteady hc, (hsteady hc).coherent.nodup_pendingWhere p,
      fun uid huid => List.mem_of_mem_filter huid⟩

theorem harmless_prepare (o : Options) (data : List Datum) : Harmless (prepare o data).events := by
  unfold prepare
  split_ifs
  · intro e he
    obtain ⟨d, -, rfl⟩ := List.mem_map.mp he
    rfl
  · exact harmless_nil

theorem harmless_withFunction (o : Options) (g : Graph) (function : String) :
    Harmless (g.withFunction o function).events := by
  unfold withFunction
  split
  · exact harmless_nil
  · simp [Logged.emit, Harmless, Event.isRemark]

/-- What happens when an instruction arrives: nodes are linked before, the instruction is noted, and
it is linked too or found to be wrong. -/
theorem events_add (host : Host) (g : Graph) {a : Arrival} {category : Category}
    (hcategory : a.category? = .ok category) :
    let ready := g.readyFor host a
    let n := ready.1.nodeOf host.options ready.2 a category
    ∃ before after wrong, Harmless before ∧ Harmless after ∧
      (wrong = [] ∨ wrong = [.anomalyFound ⟨n.uid, .unsupportedCategory a.opcode .unknown⟩] ∨
        ∃ e, a.missing? n.uid = some e ∧ wrong = [.anomalyFound ⟨n.uid, e⟩]) ∧
      (g.add host a).events =
        (g.flushWhere host fun n => n.function = a.function && n.tx? = some a.tx).events ++
          (before ++ (.nodeAdded n.uid n.category a.opcode a.address a.function a.tx :: (after ++
            if linksAtOnce a n then
              ((ready.1.arrive n ready.2.exit).runEdgeSearch host n.uid).events
            else wrong))) := by
  intro ready n
  unfold add
  rw [hcategory]
  simp only [Logged.events_bind]
  have hopening := harmless_withFunction host.options (g.flushWhere host
    fun n => n.function = a.function && n.tx? = some a.tx).value a.function
  have hprepare := harmless_prepare host.options (n.slots.map (·.datum))
  split
  · rename_i hunknown
    have hlater : linksAtOnce a n = false := by
      simp [linksAtOnce, show n.kind = .unknown from hunknown]
    exact ⟨_, _, _, hopening, hprepare, Or.inr (Or.inl rfl), by rw [hlater]; rfl⟩
  · rename_i hknown
    split
    · rename_i e hmissing
      have hmissing : a.missing? n.uid = some e := hmissing
      have hlater : linksAtOnce a n = false := by simp [linksAtOnce, hmissing]
      exact ⟨_, _, _, hopening, hprepare, Or.inr (Or.inr ⟨e, hmissing, rfl⟩), by rw [hlater]; rfl⟩
    · rename_i hmissing
      have hmissing : a.missing? n.uid = none := hmissing
      split
      · rename_i hwait
        have hlater : linksAtOnce a n = false := by
          simp [linksAtOnce, show n.awaiting = true from hwait]
        exact ⟨_, _, [], hopening, hprepare, Or.inl rfl, by rw [hlater]; rfl⟩
      · rename_i hwait
        have hwait : n.awaiting = false := Bool.eq_false_iff.mpr hwait
        have honce : linksAtOnce a n = true := by
          simp [linksAtOnce, show n.kind ≠ .unknown from hknown, hmissing, hwait]
        refine ⟨_, _, [], hopening, hprepare, Or.inl rfl, ?_⟩
        rw [honce, if_pos rfl, arrive_of_not_awaiting hwait]
        simp only [Logged.events_bind, Logged.events_pure, List.append_nil]
        rfl

/-- What is counted when an instruction arrives: what is linked before, the instruction, and its
edges if it is linked at once. -/
theorem countP_add {a : Arrival} {category : Category} (hcategory : a.category? = .ok category) :
    let ready := g.readyFor host a
    let n := ready.1.nodeOf host.options ready.2 a category
    (g.add host a).events.countP c.counts =
      (g.flushWhere host fun n => n.function = a.function && n.tx? = some a.tx).events.countP
        c.counts + c.weight n + if linksAtOnce a n then
          ((ready.1.arrive n ready.2.exit).runEdgeSearch host n.uid).events.countP c.counts
        else 0 := by
  intro ready n
  obtain ⟨before, after, wrong, hbefore, hafter, hwrong, hevents⟩ := events_add host g hcategory
  have hwrong : wrong.countP c.counts = 0 := by
    rcases hwrong with rfl | rfl | ⟨e, -, rfl⟩ <;> cases c <;> rfl
  rw [hevents, show c.weight n = _ from weight_nodeOf _ _ _ _ _, ← List.singleton_append,
    List.countP_append, List.countP_append, List.countP_append, List.countP_append,
    hbefore.countP c, hafter.countP c, Nat.zero_add, Nat.zero_add, Nat.add_assoc]
  congr 2
  split_ifs
  · rfl
  · exact hwrong

/-- A node that has just arrived is loose. -/
theorem Steady.loose_joined {a : Arrival} (h : g.Steady host) (ha : a.category = .unknown) :
    (g.joined host a).Loose (g.readyFor host a).1.size := by
  obtain ⟨hjoined, -, hnode, hfresh⟩ := joined_cases h ha
  exact hjoined.loose hnode hfresh (not_precedes_arrive _ _ _)

theorem census_add {a : Arrival} (hg : g.Causal) (hsteady : c = .linked → g.Steady host)
    (ha : c = .linked → a.category = .unknown) :
    (g.add host a).value.2.census c =
      g.census c + (g.add host a).events.countP c.counts := by
  cases hcategory : a.category? with
  | error e =>
    unfold add
    rw [hcategory]
    rfl
  | ok category =>
    have hflush := tallies_flushWhere hg.formed hsteady
      fun n => n.function = a.function && n.tx? = some a.tx
    have hready : (g.readyFor host a).1.census c = _ :=
      (census_withFunction host.options _ a.function).trans hflush.census
    have hformed := (hg.readyFor host a).formed
    have hs := hg.sentinels?_readyFor host a
    have hloose : c = .linked → ((g.readyFor host a).1.arrive ((g.readyFor host a).1.nodeOf
        host.options (g.readyFor host a).2 a category) (g.readyFor host a).2.exit).Loose
          (g.readyFor host a).1.size := by
      intro hc
      unfold Arrival.category? at hcategory
      rw [ha hc] at hcategory
      cases hcategory
      exact (hsteady hc).loose_joined (ha hc)
    rw [add_value host g hcategory, countP_add hcategory]
    change (receive host a category (g.readyFor host a).1 (g.readyFor host a).2).census c = _
    generalize (g.readyFor host a).1 = g₁ at *
    generalize (g.readyFor host a).2 = s at *
    obtain ⟨-, -, hx⟩ := hformed.of_sentinels? hs
    have harrive : (g₁.arrive (g₁.nodeOf host.options s a category) s.exit).census c = _ :=
      census_arrive ⟨_, hx, rfl⟩
    unfold receive
    dsimp only
    split_ifs
    · have hsearch := tallies_runEdgeSearch host (formed_arrive hformed hs category) hloose
      have huid : (g₁.nodeOf host.options s a category).uid = g₁.size := rfl
      rw [huid, hsearch.census, harrive, hready]
      omega
    · rw [harrive, hready, Nat.add_zero, Nat.add_assoc]

/-- Nothing but the edges of the completed node counts. -/
theorem census_complete (hg : g.Causal) (hsteady : c = .linked → g.Steady host)
    (function : String) (opcode : Opcode) (result : Value) (state : Option String) :
    (g.complete host function opcode result state).value.2.census c =
      g.census c + (g.complete host function opcode result state).events.countP c.counts := by
  unfold complete
  cases hwait : g.awaiting? function opcode with
  | none => rfl
  | some uid =>
    have hloose : c = .linked → g.Loose uid := fun hc => (hsteady hc).loose (of_awaiting? hwait).1
    have hout := outlines_supplied host result state g uid opcode
    have hprepare : Tallies c g g
        (prepare host.options [host.options.datum uid .result result]).events :=
      .harmless (harmless_prepare _ _)
    have hsupply : Tallies c g ((g.unpend uid).update uid
        (supply host.options opcode result state)) [.nodeCompleted uid] := by
      refine ⟨hout, ?_⟩
      rw [census_supply fun hc => (hloose hc).unpend, census_unpend]
      cases c <;> rfl
    have hsearch := tallies_runEdgeSearch host (hout ▸ hg.formed)
      fun hc => (hloose hc).unpend.supply host.options opcode result state
    exact (hprepare.trans (hsupply.trans hsearch.stop)).census

theorem census_discard (hg : Formed g.outlines) (hc : c ≠ .linked) (uid : NodeId) :
    (g.discard uid).value.2.census c =
      g.census c + (g.discard uid).events.countP c.counts := by
  unfold discard
  split
  · rfl
  · rename_i n hn
    split
    · rfl
    rename_i hsent
    split
    · rfl
    rename_i hlive
    exact census_detach hg hn (Bool.eq_false_iff.mpr hlive) (Bool.eq_false_iff.mpr hsent)
      fun h => absurd h hc

end Growth
end Graph
end OperandFlow
