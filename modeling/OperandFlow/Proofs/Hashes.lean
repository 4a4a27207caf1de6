import OperandFlow.Proofs.Arrivals
import OperandFlow.Proofs.Graph.Faults

/-! In every session a hash is linked to what made its preimage, and a preimage that cannot be read
is put on record once. -/
namespace OperandFlow

namespace Analysis

open OperandFlow.Graph

variable {s t : Analysis} {i : NodeId}

/-- What is on record of the preimage of a hash. -/
def malformed (s : Analysis) (i : NodeId) : List Anomaly :=
  s.journal.anomalies.toList.filter fun a => a.uid = i && a.error.isMalformedPreimage

theorem malformed_log (s : Analysis) (es : List Event) (i : NodeId) :
    (s.log es).malformed i = s.malformed i ++ faultsOf i es := by
  have hobserve : ∀ (j : Journal) (e : Event),
      (j.observe e).anomalies.toList.filter (fun a => a.uid = i && a.error.isMalformedPreimage) =
        j.anomalies.toList.filter (fun a => a.uid = i && a.error.isMalformedPreimage) ++
          faultsOf i [e] := by
    intro j e
    unfold Journal.observe Journal.isRepeated Journal.note
    cases e with
    | consulted d =>
      by_cases h : j.rendered.contains d.id = true <;> simp [h, faultsOf, Event.fault?]
    | anomalyFound a =>
      by_cases h : a.uid = i ∧ a.error.isMalformedPreimage = true <;>
        simp [h, faultsOf, Event.fault?]
    | _ => simp [faultsOf, Event.fault?]
  unfold malformed log Journal.observeAll
  dsimp only
  generalize s.journal = j
  induction es generalizing j with
  | nil => simp [faultsOf]
  | cons e es ih =>
    rw [List.foldl_cons, ih, hobserve, List.append_assoc, ← faultsOf_append, List.singleton_append]

/-- What is on record of preimages is what is wrong with those of the settled hashes. -/
structure Attested (s : Analysis) : Prop where
  steady : s.graph.Steady s.host
  record : ∀ i, s.malformed i = s.graph.faults s.host.options i

theorem attested_start (host : Host) : (start host).Attested :=
  ⟨steady_empty host, fun _ => rfl⟩

namespace Attested

theorem reset (s : Analysis) : s.reset.Attested :=
  ⟨steady_empty s.host, fun _ => rfl⟩

theorem log (h : s.Attested) {es : List Event} (hes : Harmless es) : (s.log es).Attested := by
  refine ⟨h.steady, fun i => ?_⟩
  rw [malformed_log, hes.quiet.faultsOf, List.append_nil]
  exact h.record i

/-- A change that puts on record what it makes wrong. -/
theorem change {α : Type} {action : Host → Graph → Logged (α × Graph)}
    {g : Graph} (h : s.Attested) (hgraph : (s.change action).2.graph = g)
    (hsteady : g.Steady s.host)
    (hattests : Attests s.host.options s.graph g (action s.host s.graph).events) :
    (s.change action).2.Attested := by
  have hrecord : ∀ i, (s.change action).2.malformed i =
      s.malformed i ++ faultsOf i (action s.host s.graph).events := by
    intro i
    rw [← malformed_log]
    rfl
  subst hgraph
  refine ⟨hsteady, fun i => ?_⟩
  rw [hrecord, h.record, ← hattests i]
  rfl

theorem step (h : s.Attested) (hstep : s.Step t) : t.Attested := by
  cases hstep with
  | note es hes => exact h.log hes
  | add ha => exact h.change (s.graph_add ha) (h.steady.added ha) (h.steady.attests_add ha)
  | complete function opcode result state =>
    exact h.change (s.graph_complete function opcode result state)
      (h.steady.completed function opcode result state)
      (h.steady.attests_complete function opcode result state)
  | flush function =>
    have hflush := h.steady.attests_flushWhere fun n => function.all (n.function = ·)
    exact h.change rfl (h.steady.flushWhere _) (hflush.trans (.quiet quiet_nil))

end Attested

theorem attested_performAll (host : Host) {actions : List Action}
    (h : ∀ action ∈ actions, action.isReport = true) :
    ((start host).performAll actions).Attested :=
  performAll_of_step (attested_start host) Attested.step (fun _ => .reset _) h

/-- Hashes of who calls a function: the first with a number, the second with two of them. -/
def hashesOfCaller : List Action :=
  [.pre ⟨"f", 0, "CALLER", 0, [], none, none⟩ none,
    .post ⟨"f", "CALLER", ⟨256, "caller"⟩⟩ none,
    .pre ⟨"f", 0, "SHA3", 1, [⟨512, "Concat(0,caller,0)"⟩], none, none⟩ none,
    .post ⟨"f", "SHA3", ⟨256, "slot"⟩⟩ none,
    .pre ⟨"f", 0, "SHA3", 2, [⟨768, "caller,1,2"⟩], none, none⟩ none,
    .flush none]

/-- After any reports, the operand of a live and settled hash is linked to the newest mask in reach
if its preimage starts with the contract's own address, and else to the newest nodes in reach that
made the symbolic ones of its two parts. If there are not two parts it is linked to nothing, and
that is on record once. Nothing else supplies the hash. -/
theorem hashes_linked (host : Host) (actions : List Action)
    (h : ∀ action ∈ actions, action.isReport = true) :
    let s := (start host).performAll actions
    ∀ i n, s.graph.node? i = some n → n.is .sha3 = true → n.isDeleted = false →
      n.awaiting = false →
      let parts := Term.splitArgs n.preimage.toList
      let candidates := s.graph.candidates host.options.reach n
      (∀ slot ∈ n.slots.tail, slot.preds = []) ∧ n.predecessors = n.predsAt 0 ∧
      (n.predsAt 0).length ≤ 2 ∧
      (n.preimage = "" → n.predsAt 0 = [] ∧ s.malformed i = []) ∧
      (n.preimage ≠ "" → parts.head? = some host.options.ownAddress.toList →
        Newest (·.is .and) candidates (n.predsAt 0) ∧ s.malformed i = []) ∧
      (n.preimage ≠ "" → parts.head? ≠ some host.options.ownAddress.toList → parts.length ≠ 2 →
        n.predsAt 0 = [] ∧ s.malformed i = [⟨i, .malformedPreimage i parts.length⟩]) ∧
      (n.preimage ≠ "" → parts.head? ≠ some host.options.ownAddress.toList → parts.length = 2 →
        s.malformed i = [] ∧ ∃ source : List Char → List NodeId,
          (∀ key, Newest (Node.yields key) candidates (source key)) ∧
          n.predsAt 0 =
            ((parts.filter fun part => !Term.isLiteral part).flatMap source).eraseDups) := by
  intro s i n hn hsha3 hlive hwait parts candidates
  obtain ⟨hhost, hreported⟩ := reported_performAll host h
  have hformed := hreported.steady.coherent.causal.formed
  have huid : n.uid = i := hformed.uid_node hn
  have hnewest : ∀ p : Node → Bool, Newest p candidates ((candidates.find? p).map (·.uid)).toList :=
    fun p => .of_find? (pairwise_candidates hformed _ n)
  have hhashed : n.Hashed host candidates :=
    (hreported.upheld (upheld_hashes host) (fun hn huid ho hkind hslots hfresh hlater =>
      ⟨accounts_of_fresh hn hfresh, hashes_of_later hn huid ho hkind hslots hfresh hlater⟩) i).2
      n hn hsha3 hlive hwait
  have hpreds := hhashed.first
  have hrecord : s.malformed i = (preimageFault host.options i n.preimage).toList.map (⟨i, ·⟩) := by
    rw [(attested_performAll host h).record, hhost, faults_of_node? hn, Node.fault?, huid]
    simp [hsha3, hwait]
  simp only [preimageSources] at hpreds
  simp only [preimageFault] at hrecord
  refine ⟨hhashed.others, hhashed.predecessors, hhashed.length_predsAt, ?_, ?_, ?_, ?_⟩
  · intro hempty
    rw [if_pos hempty] at hpreds
    rw [if_pos (Or.inl hempty)] at hrecord
    exact ⟨hpreds, hrecord⟩
  · intro hne hown
    rw [if_neg hne, if_pos hown] at hpreds
    rw [if_pos (Or.inr (Or.inl hown))] at hrecord
    refine ⟨?_, hrecord⟩
    have hone : ∀ found : Option NodeId, found.toList.eraseDups = found.toList := by
      intro found
      cases found <;> rfl
    rw [hpreds, Except.toOption, Option.getD_some, hone]
    exact hnewest _
  · intro hne hother hparts
    rw [if_neg hne, if_neg hother, if_pos hparts] at hpreds
    rw [if_neg (by simp [hne, hother, hparts, parts])] at hrecord
    exact ⟨hpreds, hrecord⟩
  · intro hne hother hparts
    rw [if_neg hne, if_neg hother, if_neg (not_not.mpr hparts), hashKeys_eq,
      List.filterMap_eq_flatMap_toList] at hpreds
    rw [if_pos (Or.inr (Or.inr hparts))] at hrecord
    exact ⟨hrecord, _, fun key => hnewest (Node.yields key), hpreds⟩

/-- The first hash is linked to the caller, and the second has one part too many. -/
theorem hashes_linked_hashesOfCaller :
    (∀ action ∈ hashesOfCaller, action.isReport = true) ∧
      let s := (start ⟨{}, .text, 0⟩).performAll hashesOfCaller
      (∃ n, s.graph.node? 3 = some n ∧ n.predsAt 0 = [2]) ∧ s.malformed 3 = [] ∧
        (∃ n, s.graph.node? 4 = some n ∧ n.predsAt 0 = []) ∧
        s.malformed 4 = [⟨4, .malformedPreimage 4 3⟩] := by
  have hreports : ∀ action ∈ hashesOfCaller, action.isReport = true := by decide
  refine ⟨hreports, ?_⟩
  intro s
  have hfirst : (s.graph.node? 3).any fun n => n.is .sha3 && !n.isDeleted && !n.awaiting &&
      (n.preimage != "") &&
      decide ((Term.splitArgs n.preimage.toList).head? ≠ some ({} : Options).ownAddress.toList) &&
      decide ((Term.splitArgs n.preimage.toList).length = 2) && (n.predsAt 0 == [2]) := by
    decide +kernel
  have hsecond : (s.graph.node? 4).any fun n => n.is .sha3 && !n.isDeleted && !n.awaiting &&
      (n.preimage != "") &&
      decide ((Term.splitArgs n.preimage.toList).head? ≠ some ({} : Options).ownAddress.toList) &&
      decide ((Term.splitArgs n.preimage.toList).length = 3) := by
    decide +kernel
  obtain ⟨n, hn, hfirst⟩ := (Option.any_eq_true ..).mp hfirst
  obtain ⟨m, hm, hsecond⟩ := (Option.any_eq_true ..).mp hsecond
  simp only [Bool.and_eq_true, Bool.not_eq_true', decide_eq_true_eq, bne_iff_ne, beq_iff_eq]
    at hfirst hsecond
  obtain ⟨⟨⟨⟨⟨⟨hsha3, hlive⟩, hwait⟩, hne⟩, hother⟩, hparts⟩, hpreds⟩ := hfirst
  obtain ⟨⟨⟨⟨⟨hsha3', hlive'⟩, hwait'⟩, hne'⟩, hother'⟩, hparts'⟩ := hsecond
  obtain ⟨-, -, -, -, -, -, hpair⟩ :=
    hashes_linked ⟨{}, .text, 0⟩ hashesOfCaller hreports 3 n hn hsha3 hlive hwait
  obtain ⟨-, -, -, -, -, hwrong, -⟩ :=
    hashes_linked ⟨{}, .text, 0⟩ hashesOfCaller hreports 4 m hm hsha3' hlive' hwait'
  have hnone := hwrong hne' hother' (by simp [hparts'])
  rw [hparts'] at hnone
  exact ⟨⟨n, hn, hpreds⟩, (hpair hne hother hparts).1, ⟨m, hm, hnone.1⟩, hnone.2⟩

end Analysis
end OperandFlow
