import OperandFlow.Proofs.Graph.Lifetime
import OperandFlow.Proofs.Graph.Preimages
import OperandFlow.Proofs.Graph.Tallies

/-! What is wrong with the preimage of a hash is put on record once, when the hash is settled. -/
namespace OperandFlow

open Analysis

def GraphError.isMalformedPreimage : GraphError → Bool
  | malformedPreimage _ _ => true
  | _ => false

namespace Event

def isAnomaly : Event → Bool
  | anomalyFound _ => true
  | _ => false

/-- What is put on record of the preimage of a hash. -/
def fault? (i : NodeId) : Event → Option Anomaly
  | anomalyFound a => if a.uid = i ∧ a.error.isMalformedPreimage = true then some a else none
  | _ => none

end Event

def faultsOf (i : NodeId) (es : List Event) : List Anomaly := es.filterMap (Event.fault? i)

@[simp] theorem faultsOf_append (i : NodeId) (es es' : List Event) :
    faultsOf i (es ++ es') = faultsOf i es ++ faultsOf i es' := List.filterMap_append

/-- Nothing is put on record. -/
def Quiet (es : List Event) : Prop := ∀ e ∈ es, e.isAnomaly = false

theorem quiet_nil : Quiet [] := List.forall_mem_nil _

theorem Quiet.append {es es' : List Event} (h : Quiet es) (h' : Quiet es') : Quiet (es ++ es') :=
  fun e he => (List.mem_append.mp he).elim (h e) (h' e)

theorem Quiet.faultsOf {es : List Event} (h : Quiet es) (i : NodeId) : faultsOf i es = [] := by
  rw [OperandFlow.faultsOf, List.filterMap_eq_nil_iff]
  intro e he
  have hquiet := h e he
  cases e with
  | anomalyFound => cases hquiet
  | _ => rfl

theorem Analysis.Harmless.quiet {es : List Event} (h : Harmless es) : Quiet es := by
  intro e he
  have hremark := h e he
  cases e with
  | anomalyFound => cases hremark
  | _ => rfl

theorem Asking.quiet {es : List Event} (h : Asking es) : Quiet es := h.harmless.quiet

namespace Graph

section Links

variable (host : Host) (g : Graph) (n : Node)

theorem quiet_link (pred uid : NodeId) (slot : Nat) : Quiet (g.link pred uid slot).events := by
  unfold link
  split
  · exact quiet_nil
  · split
    · exact quiet_nil
    · simp [Logged.emit, Quiet, Event.isAnomaly]

theorem quiet_linkFound (uid : NodeId) (found : Option NodeId) (slot : Nat) :
    Quiet (g.linkFound uid found slot).events := by
  cases found with
  | none => exact quiet_nil
  | some pred => exact quiet_link g pred uid slot

theorem quiet_linkEach {α : Type} (uid : NodeId) (found : α → Option NodeId) (slot : α → Nat)
    (l : List α) :
    Quiet (Logged.fold (fun g a => g.linkFound uid (found a) (slot a)) g l).events := by
  induction l generalizing g with
  | nil => exact quiet_nil
  | cons a l ih => exact (quiet_linkFound g uid (found a) (slot a)).append (ih _)

theorem quiet_linkSlots : Quiet (g.linkSlots host n).events := by
  have hlooks := asking_map (asking_resolve host (g.candidates host.options.reach n)) n.slots
  exact hlooks.quiet.append ((quiet_linkEach g n.uid _ _ _).append quiet_nil)

theorem quiet_linkSlot (slot : Nat) (candidates : List Node) :
    Quiet (g.linkSlot host n slot candidates).events := by
  unfold linkSlot
  split
  · exact quiet_nil
  · exact (asking_resolve host candidates _).quiet.append (quiet_linkFound g n.uid _ slot)

theorem quiet_linkStore : Quiet (g.linkStore host n).events :=
  (quiet_linkSlot host g n 0 _).append (quiet_linkSlot host _ n 1 _)

theorem quiet_linkLoad : Quiet (g.linkLoad host n).events := by
  refine (quiet_linkSlot host g n 0 _).append ?_
  split
  · split
    · exact quiet_nil
    · exact (asking_find? (asking_writesTo host _) _).quiet.append (quiet_linkFound _ n.uid _ 1)
  · exact quiet_nil

theorem quiet_linkPreimage : Quiet (g.linkPreimage host n).events := by
  unfold linkPreimage
  split
  · exact quiet_nil
  · split
    · exact quiet_nil
    · refine (asking_consult _).quiet.append ?_
      dsimp only
      split
      · exact quiet_nil
      split
      · exact (quiet_linkFound g n.uid _ 0).append quiet_nil
      split
      · exact quiet_nil
      · exact (asking_map (fun key => asking_find? (asking_yieldsKey key) _) _).quiet.append
          ((quiet_linkEach g n.uid _ _ _).append quiet_nil)

theorem quiet_remove (uid : NodeId) : Quiet (g.remove uid).events := by
  simp [remove, Logged.emit, Quiet, Event.isAnomaly]

theorem quiet_collapse (uid : NodeId) (keep : Nat) : Quiet (g.collapse uid keep).events := by
  unfold collapse
  split
  · exact quiet_nil
  · simp [Logged.emit, Quiet, Event.isAnomaly]

theorem quiet_settleMask : Quiet (g.settleMask host n).events := by
  unfold settleMask
  refine (quiet_linkSlots host g n).append ?_
  dsimp only
  split
  · exact quiet_nil
  split
  · exact quiet_remove _ n.uid
  · exact quiet_collapse _ n.uid _
  · exact quiet_nil

theorem quiet_linkParameter : Quiet (g.linkParameter host n).events := by
  unfold linkParameter
  split
  · exact quiet_nil
  · split
    · exact quiet_nil
    split
    · refine (quiet_linkSlots host g n).append ?_
      dsimp only
      split
      · exact quiet_nil
      · exact quiet_linkFound _ n.uid _ 0
    · exact quiet_linkFound g n.uid _ 0

theorem quiet_linkDestination : Quiet (g.linkDestination host n).events := by
  unfold linkDestination
  split
  · exact quiet_nil
  dsimp only
  split
  · exact quiet_link g _ n.uid 0
  split
  · refine Quiet.append ?_ (quiet_remove g n.uid)
    simp [Logged.emit, Quiet, Event.isAnomaly]
  · exact quiet_linkFound g n.uid _ 0

theorem quiet_linkNode (o : Opcode) : Quiet (g.linkNode host n o).events := by
  have hslots := (quiet_linkSlots host g n).append quiet_nil
  unfold linkNode
  split
  · exact (quiet_linkStore host g n).append quiet_nil
  · exact (quiet_linkLoad host g n).append quiet_nil
  · exact quiet_linkPreimage host g n
  · exact (quiet_settleMask host g n).append quiet_nil
  · exact (quiet_settleMask host g n).append quiet_nil
  · exact (quiet_linkParameter host g n).append quiet_nil
  · split
    · exact (quiet_linkFound g n.uid _ 0).append quiet_nil
    · exact hslots
  · exact (quiet_linkDestination host g n).append quiet_nil
  · exact (quiet_linkFound g n.uid _ 0).append quiet_nil
  -- Four kinds of nodes link all their slots, and four are not linked.
  iterate 4 exact hslots
  all_goals exact quiet_nil

theorem quiet_findEdges (uid : NodeId) : Quiet (g.findEdges host uid).events := by
  unfold findEdges
  split
  · exact quiet_nil
  · split
    · refine Quiet.append ?_ (quiet_linkNode host g _ _)
      simp [Logged.emit, Quiet, Event.isAnomaly]
    · exact quiet_nil

/-- Only a failed search puts something on record. -/
theorem faultsOf_runEdgeSearch (uid i : NodeId) :
    faultsOf i (g.runEdgeSearch host uid).events =
      match (g.findEdges host uid).value.1 with
      | .ok _ => []
      | .error e => faultsOf i [.anomalyFound ⟨uid, e⟩] := by
  unfold runEdgeSearch
  simp only [Logged.events_bind, faultsOf_append, (quiet_findEdges host g uid).faultsOf,
    List.nil_append]
  cases (g.findEdges host uid).value.1 <;> cases (g.node? uid).bind (·.opcode?) <;> rfl

theorem faultsOf_runEdgeSearch_of_ne {uid i : NodeId} (h : i ≠ uid) :
    faultsOf i (g.runEdgeSearch host uid).events = [] := by
  rw [faultsOf_runEdgeSearch]
  cases (g.findEdges host uid).value.1 with
  | ok _ => rfl
  | error e => simp [faultsOf, Event.fault?, h.symm]

end Links
end Graph

/-- What is wrong with the preimage of a settled hash. -/
def Node.fault? (o : Options) (n : Node) : Option GraphError :=
  if n.is .sha3 && !n.awaiting then Graph.preimageFault o n.uid n.preimage else none

theorem Node.fault?_of_bare {n : Node} (h : n.instruction = none) (o : Options) :
    n.fault? o = none := by
  simp [fault?, Node.is, Node.opcode?, h]

theorem Node.fault?_of_awaiting {n : Node} (h : n.awaiting = true) (o : Options) :
    n.fault? o = none := by
  simp [fault?, h]

namespace Graph

theorem isMalformedPreimage_of_fault {o : Options} {uid : NodeId} {preimage : String}
    {e : GraphError} (h : preimageFault o uid preimage = some e) :
    e.isMalformedPreimage = true := by
  simp only [preimageFault] at h
  split_ifs at h
  cases h
  rfl

/-- What should be on record of the preimages of a graph. -/
def faults (o : Options) (g : Graph) (i : NodeId) : List Anomaly :=
  ((g.node? i).bind (Node.fault? o)).toList.map (⟨i, ·⟩)

/-- From `g` to `g'`, what is put on record is what is found wrong. -/
def Attests (o : Options) (g g' : Graph) (es : List Event) : Prop :=
  ∀ i, g'.faults o i = g.faults o i ++ faultsOf i es

section

variable {host : Host} {o : Options} {g g₁ g₂ : Graph} {es es' : List Event} {uid i : NodeId}
  {n m : Node}

theorem Attests.trans (h : Attests o g g₁ es) (h' : Attests o g₁ g₂ es') :
    Attests o g g₂ (es ++ es') := by
  intro i
  rw [h' i, h i, faultsOf_append, List.append_assoc]

theorem Attests.quiet (h : Quiet es) : Attests o g g es := by
  intro i
  rw [h.faultsOf, List.append_nil]

theorem faults_of_node? (hn : g.node? i = some n) :
    g.faults o i = (n.fault? o).toList.map (⟨i, ·⟩) := by
  rw [faults, hn, Option.bind_some]

/-- Nothing is on record of a place without an instruction. -/
theorem faults_of_bare (h : ∀ n, g.node? i = some n → n.instruction = none) :
    g.faults o i = [] := by
  cases hn : g.node? i with
  | none =>
    rw [faults, hn]
    rfl
  | some n =>
    rw [faults_of_node? hn, n.fault?_of_bare (h n hn)]
    rfl

/-- What is not touched is as right or wrong as before. -/
theorem Touches.faults (h : g.Touches uid g₁) (hg₁ : Formed g₁.outlines) (hi : i ≠ uid) :
    g₁.faults o i = g.faults o i := by
  by_cases hinstr : ∃ m, g₁.node? i = some m ∧ m.instruction ≠ none
  · obtain ⟨m, hm, hinstr⟩ := hinstr
    obtain ⟨n, successors, hn, -, rfl⟩ := h.exists_node? hg₁ hi hm hinstr
    rw [faults_of_node? hm, faults_of_node? hn]
    rfl
  · have hbare : ∀ m, g₁.node? i = some m → m.instruction = none :=
      fun m hm => not_not.mp fun hne => hinstr ⟨m, hm, hne⟩
    rw [faults_of_bare hbare, faults_of_bare]
    intro n hn
    obtain ⟨m, hm, -⟩ := h.keeps i hi n hn
    have hout := h.outline_eq hn hm
    rw [show n.instruction = m.instruction from (congrArg Outline.instruction hout).symm]
    exact hbare m hm

/-- The search for the edges of a fresh node finds what is wrong with its preimage. -/
theorem faults_runEdgeSearch (hg : g.Coherent) (hlink : g.Linkable uid)
    (hn : g.node? uid = some n) (hfresh : n.Fresh) :
    (g.runEdgeSearch host uid).value.faults host.options uid =
      faultsOf uid (g.runEdgeSearch host uid).events := by
  have hformed := hg.causal.formed
  have huid : n.uid = uid := hformed.uid_node hn
  subst huid
  have hsearched := searched_runEdgeSearch host hformed n.uid
  obtain ⟨m, hm, hevolves⟩ := Extends.searched hformed hsearched hn
  have hwait := awaiting_runEdgeSearch hformed hn (hlink n hn).1 hm
  have huid : m.uid = n.uid := (hsearched.outlines hformed ▸ hformed).uid_node hm
  obtain ⟨a, ho, -⟩ := hfresh.kind
  have ho' : m.opcode? = some a.opcode := hevolves.opcode?_eq.trans ho
  rw [faults_of_node? hm, faultsOf_runEdgeSearch, Node.fault?, hwait, Node.is_eq ho']
  by_cases hsha3 : a.opcode = .sha3
  · rw [hsha3] at ho
    rw [(hashed_runEdgeSearch hformed hn hfresh ho hm).1, findEdges_of_sha3 hformed hn hfresh ho,
      huid, if_pos (by simp [hsha3])]
    cases hsources : preimageSources host (g.candidates host.options.reach n) n.uid n.preimage with
    | error e =>
      have hfault := preimageSources_eq_error.mp hsources
      rw [hfault]
      simp [faultsOf, Event.fault?, Except.map, isMalformedPreimage_of_fault hfault]
    | ok sources =>
      cases hfault : preimageFault host.options n.uid n.preimage with
      | none => rfl
      | some e => cases hsources.symm.trans (preimageSources_eq_error.mpr hfault)
  · rw [if_neg (by simp [hsha3]), findEdges_value hformed hn hfresh.isDeleted ho]
    cases hvalue : (g.linkNode host n a.opcode).value.1 with
    | ok _ => rfl
    | error e => exact absurd (linkNode_error hvalue).2.1 hsha3

/-- One node is changed and the search for its edges is run. -/
theorem attests_search (host : Host) (hprimes : g.Primes uid g₁ n) (hfresh : n.Fresh)
    (hold : g.faults host.options uid = []) :
    Attests host.options g (g₁.runEdgeSearch host uid).value
      (g₁.runEdgeSearch host uid).events := by
  obtain ⟨htouch, hg₁, hlink, hlast, hn⟩ := hprimes
  have hg₂ := hg₁.searched hlink (searched_runEdgeSearch host hg₁.causal.formed uid)
  intro i
  by_cases hi : i = uid
  · rw [hi, hold, List.nil_append, faults_runEdgeSearch hg₁ hlink hn hfresh]
  · rw [(Touches.search hg₁ hlink hlast host).faults hg₂.causal.formed hi,
      htouch.faults hg₁.causal.formed hi, faultsOf_runEdgeSearch_of_ne host g₁ hi, List.append_nil]

/-- Nothing is on record of a waiting node. -/
theorem Coherent.faults_of_pending (hg : g.Coherent) (huid : uid ∈ g.pending) :
    g.faults o uid = [] := by
  obtain ⟨n, hn, -, -⟩ := hg.paced.live huid
  rw [faults_of_node? hn, n.fault?_of_awaiting ((hg.paced.awaiting_iff hn).mpr huid)]
  rfl

/-- There is nothing wrong with the preimage of an arrival that is not linked at once. -/
theorem fault?_newcomer {a : Arrival} (hlater : linksAtOnce a (g.newcomer host a) = false) :
    (g.newcomer host a).fault? o = none := by
  by_cases ho : a.opcode = .sha3
  · cases hwait : (g.newcomer host a).awaiting with
    | true => exact Node.fault?_of_awaiting hwait o
    | false =>
      have hempty := Node.preimage_of_later (n := g.newcomer host a) ho rfl rfl hwait hlater
      rw [Node.fault?, hempty]
      simp [preimageFault]
  · rw [Node.fault?, Node.is_eq (show (g.newcomer host a).opcode? = some a.opcode from rfl)]
    simp [ho]

/-- What is put on record when an instruction arrives is found by the searches that are run. -/
theorem faultsOf_add {a : Arrival} (ha : a.category = .unknown) :
    faultsOf i (g.add host a).events =
      faultsOf i (g.flushWhere host
        fun n => n.function = a.function && n.tx? = some a.tx).events ++
      if linksAtOnce a (g.newcomer host a) then
        faultsOf i ((g.joined host a).runEdgeSearch host (g.readyFor host a).1.size).events
      else [] := by
  have hcategory : a.category? = .ok a.opcode.category := by rw [Arrival.category?, ha]
  obtain ⟨before, after, wrong, hbefore, hafter, hwrong, hevents⟩ := events_add host g hcategory
  -- A missing operand or an unknown category is no matter of the preimage.
  have hquiet : faultsOf i wrong = [] := by
    rcases hwrong with rfl | rfl | ⟨e, he, rfl⟩
    · rfl
    · simp [faultsOf, Event.fault?, GraphError.isMalformedPreimage]
    · unfold Arrival.missing? at he
      dsimp only at he
      split_ifs at he
      cases he
      simp [faultsOf, Event.fault?, GraphError.isMalformedPreimage]
  rw [← hquiet, ← apply_ite (faultsOf i), hevents, faultsOf_append, faultsOf_append,
    hbefore.quiet.faultsOf, List.nil_append, ← List.singleton_append, faultsOf_append,
    faultsOf_append, hafter.quiet.faultsOf, List.nil_append]
  rfl

namespace Steady

variable (h : g.Steady host)
include h

theorem attests_finish (huid : uid ∈ g.pending) :
    Attests host.options g (Graph.finish host g uid).value (Graph.finish host g uid).events := by
  obtain ⟨n, hn, -, -⟩ := h.coherent.paced.live huid
  have hfresh := h.accounted.fresh h.coherent huid hn
  have hsearch := attests_search host (primes_unpend h.coherent huid hn)
    (hfresh.congr rfl rfl rfl hfresh.unlinked rfl) (h.coherent.faults_of_pending huid)
  have hmissed : Quiet [.resultMissed uid] := by simp [Quiet, Event.isAnomaly]
  exact (Attests.quiet hmissed).trans hsearch

theorem attests_flushWhere (p : Node → Bool) :
    Attests host.options g (g.flushWhere host p).value (g.flushWhere host p).events := by
  suffices hfold : ∀ (uids : List NodeId) (g : Graph), g.Steady host → uids.Nodup →
      (∀ uid ∈ uids, uid ∈ g.pending) →
        Attests host.options g (Logged.fold (Graph.finish host) g uids).value
          (Logged.fold (Graph.finish host) g uids).events from
    hfold _ g h (h.coherent.nodup_pendingWhere p) fun uid huid => List.mem_of_mem_filter huid
  intro uids
  induction uids with
  | nil => exact fun g _ _ _ => .quiet quiet_nil
  | cons uid uids ih =>
    intro g hg hnodup hsub
    rw [List.nodup_cons] at hnodup
    have huid := hsub uid List.mem_cons_self
    refine (hg.attests_finish huid).trans (ih _ (hg.finish huid) hnodup.2 ?_)
    intro i hi
    rw [pending_finish host hg.coherent.causal.formed, List.mem_filter, decide_eq_true_eq]
    exact ⟨hsub i (List.mem_cons_of_mem uid hi), fun heq => hnodup.1 (heq ▸ hi)⟩

theorem attests_complete (function : String) (opcode : Opcode) (result : Value)
    (state : Option String) :
    Attests host.options g (g.completed host function opcode result state)
      (g.complete host function opcode result state).events := by
  unfold Graph.completed Graph.complete
  cases hwait : g.awaiting? function opcode with
  | none => exact .quiet quiet_nil
  | some uid =>
    obtain ⟨huid, n, hn, -, -⟩ := of_awaiting? hwait
    have hfresh := h.accounted.fresh h.coherent huid hn
    have hsettled : Node.Fresh { n with awaiting := false } :=
      hfresh.congr rfl rfl rfl hfresh.unlinked rfl
    have hsearch := attests_search host
      (primes_supply h.coherent huid hn host.options opcode result state)
      (hsettled.supply host.options opcode result state) (h.coherent.faults_of_pending huid)
    have hprepare := (harmless_prepare host.options [host.options.datum uid .result result]).quiet
    have hcompleted : Quiet [.nodeCompleted uid] := by simp [Quiet, Event.isAnomaly]
    exact (Attests.quiet hprepare).trans ((Attests.quiet hcompleted).trans
      (hsearch.trans (.quiet quiet_nil)))

theorem attests_readyFor (a : Arrival) :
    Attests host.options g (g.readyFor host a).1 (g.flushWhere host
      fun n => n.function = a.function && n.tx? = some a.tx).events := by
  intro i
  rw [← h.attests_flushWhere (fun n => n.function = a.function && n.tx? = some a.tx) i]
  by_cases hi : i = (g.flushWhere host
      fun n => n.function = a.function && n.tx? = some a.tx).value.size
  · rw [faults_of_bare, faults_of_bare]
    · intro n hn
      exact absurd (lt_size_of_node? hn) (hi ▸ Nat.lt_irrefl _)
    · intro n hn
      rcases node?_withFunction hn with hn | ⟨-, kind, -, rfl⟩
      · exact absurd (lt_size_of_node? hn) (hi ▸ Nat.lt_irrefl _)
      · rfl
  · exact (Touches.withFunction host.options a.function).faults
      (h.coherent.readyFor host a).causal.formed hi

theorem attests_add {a : Arrival} (ha : a.category = .unknown) :
    Attests host.options g (g.added host a) (g.add host a).events := by
  obtain ⟨hjoined, hlink, hnode, hfresh⟩ := joined_cases h ha
  have htouch := h.touches_joined a
  have hnone : (g.readyFor host a).1.faults host.options (g.readyFor host a).1.size = [] :=
    faults_of_bare fun n hn => absurd (lt_size_of_node? hn) (Nat.lt_irrefl _)
  intro i
  rw [faultsOf_add ha, ← List.append_assoc, ← h.attests_readyFor a i, added_eq]
  split_ifs with honce
  · have hwait : (g.newcomer host a).awaiting = false := by
      simpa using (Bool.and_eq_true_iff.mp honce).2
    exact attests_search host
      ⟨htouch, hjoined, hlink hwait, not_precedes_arrive _ _ _, hnode⟩ hfresh hnone i
  · rw [List.append_nil]
    by_cases hi : i = (g.readyFor host a).1.size
    · rw [hi, hnone, faults_of_node? hnode, fault?_newcomer (by simpa using honce)]
      rfl
    · exact htouch.faults hjoined.causal.formed hi

end Steady

end
end Graph
end OperandFlow
