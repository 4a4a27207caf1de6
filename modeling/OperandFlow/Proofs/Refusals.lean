import OperandFlow.Proofs.Arena.Refinement
import OperandFlow.Proofs.Events
import OperandFlow.Proofs.Graph.Hashing
import OperandFlow.Proofs.Simulation

/-! Refused actions change nothing, so that no later action can tell whether they were tried. -/
namespace OperandFlow

/-- The action failed, or found nothing to do. -/
def Action.isRefused : (a : Action) → a.Answer → Bool
  | pre _ _, answer | post _ _, answer => answer.isNone
  | add _, answer | complete _ _ _ _, answer => !answer.isOk
  | findEdges _, answer | remove _, answer => !answer.isOk
  | replay _, _ | flush _, _ | reset, _ => false

/-- Nothing is changed, counted or put on record. -/
def Event.isNotice : Event → Bool
  | edgeSearchStarted _ _ | consulted _ | mnemonicRefused _ | callDataIgnored _ _ _
  | instructionSkipped _ _ _ _ | resultDropped _ _ => true
  | _ => false

theorem Journal.observe_notice (j : Journal) {e : Event} (h : e.isNotice = true) :
    (j.observe e).anomalies = j.anomalies ∧ (j.observe e).profile = j.profile := by
  unfold observe
  split
  · exact ⟨rfl, rfl⟩
  · cases e with
    | edgeSearchStarted | consulted | mnemonicRefused | callDataIgnored | instructionSkipped
    | resultDropped => exact ⟨rfl, rfl⟩
    | _ => cases h

/-- Anomalies and counts hang on the events alone. Which renderings were looked at bears on the
history only. -/
theorem Journal.observe_congr {j k : Journal} (hanomalies : k.anomalies = j.anomalies)
    (hprofile : k.profile = j.profile) (e : Event) :
    (k.observe e).anomalies = (j.observe e).anomalies ∧
      (k.observe e).profile = (j.observe e).profile := by
  cases h : e.isNotice with
  | true =>
    obtain ⟨hj, hj'⟩ := j.observe_notice h
    obtain ⟨hk, hk'⟩ := k.observe_notice h
    rw [hj, hj', hk, hk']
    exact ⟨hanomalies, hprofile⟩
  | false =>
    cases e with
    | consulted => cases h
    | _ => simp [observe, isRepeated, note, hanomalies, hprofile]

namespace Analysis

/-- The same analysis but for its notes and for the renderings that were looked at. -/
structure Equivalent (s t : Analysis) : Prop where
  host : t.host = s.host
  graph : t.graph = s.graph
  anomalies : t.journal.anomalies = s.journal.anomalies
  profile : t.journal.profile = s.journal.profile

namespace Equivalent

variable {s t u : Analysis}

theorem refl (s : Analysis) : s.Equivalent s := ⟨rfl, rfl, rfl, rfl⟩

theorem symm (h : s.Equivalent t) : t.Equivalent s :=
  ⟨h.host.symm, h.graph.symm, h.anomalies.symm, h.profile.symm⟩

theorem trans (h : s.Equivalent t) (h' : t.Equivalent u) : s.Equivalent u :=
  ⟨h'.host.trans h.host, h'.graph.trans h.graph, h'.anomalies.trans h.anomalies,
    h'.profile.trans h.profile⟩

theorem log (h : s.Equivalent t) (es : List Event) : (s.log es).Equivalent (t.log es) := by
  induction es generalizing s t with
  | nil => exact h
  | cons e es ih =>
    obtain ⟨hanomalies, hprofile⟩ := Journal.observe_congr h.anomalies h.profile e
    exact ih (s := s.log [e]) (t := t.log [e]) ⟨h.host, h.graph, hanomalies, hprofile⟩

theorem change {α : Type} (h : s.Equivalent t)
    (action : Host → Graph → Logged (α × Graph)) :
    Agree Equivalent (s.change action) (t.change action) := by
  unfold Analysis.change
  rw [h.host, h.graph]
  dsimp only
  generalize (action s.host s.graph).value.2 = g
  have hgraph : Equivalent { s with graph := g } ⟨s.host, g, t.journal⟩ :=
    ⟨rfl, rfl, h.anomalies, h.profile⟩
  exact ⟨rfl, hgraph.log _⟩

theorem simulation : Simulation Equivalent where
  graph := Equivalent.graph
  log := Equivalent.log
  reset h := ⟨h.host, rfl, rfl, rfl⟩
  flush h _ := (h.change _).related
  add h _ := h.change _
  complete h _ _ _ _ := h.change _
  findEdges h _ := h.change _
  remove h _ := h.change _

end Equivalent

end Analysis

/-! ### What fails -/

def Notices (es : List Event) : Prop := ∀ e ∈ es, e.isNotice = true

namespace Graph

variable {host : Host} {g : Graph} {e : GraphError}

theorem notices_add {a : Arrival} (h : (g.add host a).value.1 = .error e) :
    Notices (g.add host a).events := by
  cases hcategory : a.category? with
  | error e' => simp [add, hcategory, Notices]
  | ok category =>
    rw [add_value host g hcategory] at h
    cases h

theorem notices_complete {function : String} {opcode : Opcode} {result : Value}
    {state : Option String}
    (h : (g.complete host function opcode result state).value.1 = .error e) :
    Notices (g.complete host function opcode result state).events := by
  rw [complete_value] at h
  cases hwaiting : g.awaiting? function opcode with
  | none => simp [complete, hwaiting, Notices]
  | some uid =>
    rw [hwaiting] at h
    cases h

theorem notices_discard {uid : NodeId} (h : (g.discard uid).value.1 = .error e) :
    Notices (g.discard uid).events := by
  unfold discard at h ⊢
  split
  · simp [Notices]
  · next n hn =>
    simp only [hn] at h
    split_ifs at h ⊢
    simp [Notices]

/-- The preimage was looked at, and that was all. -/
theorem notices_linkPreimage {n : Node} (h : (g.linkPreimage host n).value.1 = .error e) :
    Notices (g.linkPreimage host n).events := by
  obtain ⟨slot, rest, hslots, hpreds, hsources⟩ := linkPreimage_error h
  have hfault := preimageSources_eq_error.mp hsources
  unfold preimageFault at hfault
  dsimp only at hfault
  split at hfault
  · cases hfault
  · next hbad =>
    obtain ⟨htext, hown, hlength⟩ : slot.datum.rendering.text ≠ "" ∧ _ ∧ _ := by
      simpa only [not_or] using hbad
    simp [linkPreimage, hslots, hpreds, consult, htext, hown, hlength, Notices, Event.isNotice]

theorem notices_findEdges {uid : NodeId} (h : (g.findEdges host uid).value.1 = .error e) :
    Notices (g.findEdges host uid).events := by
  unfold findEdges at h ⊢
  split
  · simp [Notices]
  · next n hn =>
    simp only [hn] at h
    split
    · next opcode hlive hopcode =>
      simp only [hlive, hopcode, Logged.value_bind] at h
      obtain ⟨hkind, rfl, herror⟩ := linkNode_error h
      have hevents := notices_linkPreimage herror
      simp only [linkNode, hkind]
      intro x hx
      rcases List.mem_append.mp hx with hx | hx
      · obtain rfl := List.mem_singleton.mp hx
        rfl
      · exact hevents x hx
    · simp [Notices]

end Graph

namespace Analysis

theorem equivalent_log (s : Analysis) {es : List Event} (h : Notices es) :
    s.Equivalent (s.log es) := by
  induction es generalizing s with
  | nil => exact .refl s
  | cons e es ih =>
    obtain ⟨hanomalies, hprofile⟩ := s.journal.observe_notice (h e List.mem_cons_self)
    have hfirst : s.Equivalent (s.log [e]) := ⟨rfl, rfl, hanomalies, hprofile⟩
    exact hfirst.trans (ih (s.log [e]) fun x hx => h x (List.mem_cons_of_mem e hx))

/-- A change that spares the graph and leaves only notices when it fails. -/
theorem equivalent_change {α : Type} (s : Analysis)
    {action : Host → Graph → Logged (Except GraphError α × Graph)}
    (hspared : ∀ {e}, (action s.host s.graph).value.1 = .error e →
      (action s.host s.graph).value.2 = s.graph)
    (hnotices : ∀ {e}, (action s.host s.graph).value.1 = .error e →
      Notices (action s.host s.graph).events)
    (h : (s.change action).1.isOk = false) : s.Equivalent (s.change action).2 := by
  cases hvalue : (action s.host s.graph).value.1 with
  | error e =>
    unfold change
    dsimp only
    rw [hspared hvalue]
    exact s.equivalent_log (hnotices hvalue)
  | ok a =>
    have hok : (s.change action).1 = .ok a := hvalue
    rw [hok] at h
    cases h

theorem equivalent_add (s : Analysis) {a : Arrival} (h : (s.add a).1.isOk = false) :
    s.Equivalent (s.add a).2 :=
  s.equivalent_change Graph.add_of_error Graph.notices_add h

theorem equivalent_complete (s : Analysis) {function : String} {opcode : Opcode} {result : Value}
    {state : Option String} (h : (s.complete function opcode result state).1.isOk = false) :
    s.Equivalent (s.complete function opcode result state).2 :=
  s.equivalent_change Graph.complete_of_error Graph.notices_complete h

theorem equivalent_hookedOpcode (s : Analysis) (mnemonic : String) (hooked : Opcode → Bool) :
    s.Equivalent (s.hookedOpcode mnemonic hooked).2 := by
  unfold hookedOpcode
  split
  · exact .refl s
  · exact s.equivalent_log (by simp [Notices, Event.isNotice])

theorem equivalent_decodeCallData (s : Analysis) (opcode : Opcode) (address : UInt64)
    (data : Option String) : s.Equivalent (s.decodeCallData opcode address data).2 := by
  unfold decodeCallData
  split
  · exact .refl s
  · exact .refl s
  · exact s.equivalent_log (by simp [Notices, Event.isNotice])

theorem equivalent_onPre (s : Analysis) {e : PreEvent} {state : Option String}
    (h : (s.onPre e state).1 = none) : s.Equivalent (s.onPre e state).2 := by
  have hhooked := s.equivalent_hookedOpcode e.opcode Opcode.reportsOperands
  unfold onPre at h ⊢
  generalize s.hookedOpcode e.opcode Opcode.reportsOperands = hooked at h hhooked ⊢
  obtain ⟨_ | opcode, t⟩ := hooked
  · exact hhooked
  · have hdecoded := t.equivalent_decodeCallData opcode e.address e.callData
    dsimp only at h ⊢
    generalize t.decodeCallData opcode e.address e.callData = decoded at h hdecoded ⊢
    obtain ⟨callData, u⟩ := decoded
    dsimp only at h ⊢
    generalize hadded : u.add _ = added at h ⊢
    obtain ⟨error | uid, v⟩ := added
    · have hadd := u.equivalent_add (congrArg (·.1.isOk) hadded)
      rw [hadded] at hadd
      exact ((hhooked.trans hdecoded).trans hadd).trans
        (v.equivalent_log (by simp [Notices, Event.isNotice]))
    · cases h

theorem equivalent_onPost (s : Analysis) {e : PostEvent} {state : Option String}
    (h : (s.onPost e state).1 = none) : s.Equivalent (s.onPost e state).2 := by
  have hhooked := s.equivalent_hookedOpcode e.opcode Opcode.reportsResult
  unfold onPost at h ⊢
  generalize s.hookedOpcode e.opcode Opcode.reportsResult = hooked at h hhooked ⊢
  obtain ⟨_ | opcode, t⟩ := hooked
  · exact hhooked
  · dsimp only at h ⊢
    generalize hcompleted : t.complete e.function opcode e.result state = completed at h ⊢
    obtain ⟨error | uid, u⟩ := completed
    · have hcomplete := t.equivalent_complete (congrArg (·.1.isOk) hcompleted)
      rw [hcompleted] at hcomplete
      exact (hhooked.trans hcomplete).trans
        (u.equivalent_log (by simp [Notices, Event.isNotice]))
    · cases h

/-- What is refused changes nothing. -/
theorem equivalent_perform (s : Analysis) {a : Action} (h : a.isRefused (s.act a).1 = true) :
    s.Equivalent (s.perform a) := by
  cases a with
  | pre e state => exact s.equivalent_onPre (Option.isNone_iff_eq_none.mp h)
  | post e state => exact s.equivalent_onPost (Option.isNone_iff_eq_none.mp h)
  | add a => exact s.equivalent_add ((Bool.not_eq_true' _).mp h)
  | complete function opcode result state =>
    exact s.equivalent_complete ((Bool.not_eq_true' _).mp h)
  | findEdges uid =>
    exact s.equivalent_change Graph.findEdges_of_error Graph.notices_findEdges
      ((Bool.not_eq_true' _).mp h)
  | remove uid =>
    exact s.equivalent_change Graph.discard_of_error Graph.notices_discard
      ((Bool.not_eq_true' _).mp h)
  | replay | flush | reset => cases h

/-! ### Events that are passed over -/

theorem exists_add_eq_ok (s : Analysis) {a : Arrival} (ha : a.category = .unknown) :
    ∃ uid t, s.add a = (.ok uid, t) := by
  obtain ⟨hok, -⟩ : (s.add a).1 = _ ∧ _ :=
    s.change_of_value (Graph.add_value_of_unknown s.host s.graph ha)
  exact ⟨_, (s.add a).2, Prod.ext hok rfl⟩

/-- An instruction is passed over exactly if its mnemonic is unknown or it is not traced. -/
theorem onPre_eq_none_iff (s : Analysis) (e : PreEvent) (state : Option String) :
    (s.onPre e state).1 = none ↔ e.arrival? state = none := by
  obtain ⟨es, -, hhooked⟩ := s.hookedOpcode_eq e.opcode Opcode.reportsOperands
  unfold onPre PreEvent.arrival?
  rw [hhooked]
  cases (Opcode.ofMnemonic? e.opcode).filter Opcode.reportsOperands with
  | none => simp
  | some opcode =>
    dsimp only
    generalize hadded : Analysis.add _ _ = added
    obtain ⟨uid, t, rfl⟩ : ∃ uid t, added = (.ok uid, t) := by
      rw [← hadded]
      exact exists_add_eq_ok _ rfl
    simp

/-- A result is passed over exactly if no node waits for it. -/
theorem onPost_eq_none_iff (s : Analysis) (e : PostEvent) (state : Option String) :
    (s.onPost e state).1 = none ↔
      ∀ opcode, e.opcode? = some opcode → s.graph.awaiting? e.function opcode = none := by
  obtain ⟨es, -, hhooked⟩ := s.hookedOpcode_eq e.opcode Opcode.reportsResult
  unfold onPost PostEvent.opcode?
  rw [hhooked]
  cases (Opcode.ofMnemonic? e.opcode).filter Opcode.reportsResult with
  | none => simp
  | some opcode =>
    have hvalue := Graph.complete_value s.host s.graph e.function opcode e.result state
    simp only [complete, change, log, hvalue]
    cases hwaiting : s.graph.awaiting? e.function opcode <;> simp [hwaiting]

/-- A refused action is put in somewhere. -/
inductive Inserts (s : Analysis) : List Action → List Action → Prop where
  | intro (before after : List Action) {a : Action}
      (h : a.isRefused ((s.performAll before).act a).1 = true) :
      Inserts s (before ++ after) (before ++ a :: after)

theorem performAll_append (s : Analysis) (actions more : List Action) :
    s.performAll (actions ++ more) = (s.performAll actions).performAll more :=
  List.foldl_append

theorem Inserts.equivalent {s : Analysis} {actions others : List Action}
    (h : s.Inserts actions others) :
    (s.performAll actions).Equivalent (s.performAll others) := by
  obtain ⟨before, after, hrefused⟩ := h
  rw [performAll_append, performAll_append]
  exact Equivalent.simulation.performAll (equivalent_perform _ hrefused) after

theorem equivalent_performAll {s : Analysis} {actions others : List Action}
    (h : Relation.EqvGen s.Inserts actions others) :
    (s.performAll actions).Equivalent (s.performAll others) := by
  induction h with
  | rel _ _ h => exact h.equivalent
  | refl _ => exact .refl _
  | symm _ _ _ ih => exact ih.symm
  | trans _ _ _ _ _ ih ih' => exact ih.trans ih'

theorem run_action (s : Analysis) (actions : List Action) :
    (s.run (actions.map .action)).2 = s.performAll actions := by
  induction actions generalizing s with
  | nil => rfl
  | cons a actions ih =>
    change ((s.act a).2.run (actions.map .action)).2 = (s.perform a).performAll actions
    rw [ih, act_eq_perform]

end Analysis

/-! ### In place -/

namespace Arena

/-- The same but for the renderings that are kept and for what the oracle was asked. -/
structure Equivalent (st st' : Arena) : Prop extends Alike st st' where
  host : st'.host = st.host
  anomalies : st'.ledger.anomalies = st.ledger.anomalies
  profile : st'.ledger.profile = st.ledger.profile

theorem Represents.equivalent {s t : Analysis} {st st' : Arena} (h : st.Represents s)
    (h' : st'.Represents t) (hst : s.Equivalent t) : st.Equivalent st' where
  toAlike := h.holds.alike (hst.graph ▸ h'.holds)
  host := by
    rw [h.holds.host_eq, h'.holds.host_eq]
    exact hst.host
  anomalies := by
    rw [h.ledger, h'.ledger]
    exact hst.anomalies
  profile := by
    rw [h.ledger, h'.ledger]
    exact hst.profile

end Arena

namespace Analysis

/-- Whatever is refused changes nothing: a failed call, an instruction that is unknown or not
traced, a result that no node waits for. So it makes no difference for what comes after if such
actions are put in or taken out anywhere. This is so in place, where nothing is put back: nodes,
tables, what waits, anomalies and counts are as they were when an action is refused. -/
theorem refused_changes_nothing (host : Host) (calls : List Call) :
    let s := ((start host).run calls).2
    (∀ a, a.isRefused (s.act a).1 = true → s.Equivalent (s.act a).2) ∧
      (∀ e state, (s.onPre e state).1 = none ↔ e.arrival? state = none) ∧
      (∀ e state, (s.onPost e state).1 = none ↔
        ∀ opcode, e.opcode? = some opcode → s.graph.awaiting? e.function opcode = none) ∧
      (∀ actions others, Relation.EqvGen s.Inserts actions others →
        (s.performAll actions).Equivalent (s.performAll others)) ∧
      ∃ answers st, Arena.run calls (.start host) = some (answers, st) ∧
        (∀ a, ∃ st', Arena.act a st = some ((s.act a).1, st') ∧
          (a.isRefused (s.act a).1 = true → st.Equivalent st')) ∧
        ∀ actions others, Relation.EqvGen s.Inserts actions others →
          ∃ answers st₁ answers' st₂,
            Arena.run (actions.map .action) st = some (answers, st₁) ∧
            Arena.run (others.map .action) st = some (answers', st₂) ∧ st₁.Equivalent st₂ := by
  intro s
  have hsound : s.graph.Sound := sound_run host calls
  have hrefused : ∀ a, a.isRefused (s.act a).1 = true → s.Equivalent (s.act a).2 := by
    intro a h
    rw [act_eq_perform]
    exact s.equivalent_perform h
  obtain ⟨st, hrun, hst⟩ :=
    Arena.Follows.run Graph.sound_empty calls _ (Arena.represents_start host)
  refine ⟨hrefused, s.onPre_eq_none_iff, s.onPost_eq_none_iff,
    fun _ _ h => equivalent_performAll h, _, st, hrun, fun a => ?_, fun actions others h => ?_⟩
  · obtain ⟨st', hact, hst'⟩ := Arena.Follows.act hsound a st hst
    exact ⟨st', hact, fun h => hst.equivalent hst' (hrefused a h)⟩
  · obtain ⟨st₁, hrun₁, hst₁⟩ := Arena.Follows.run hsound (actions.map .action) st hst
    obtain ⟨st₂, hrun₂, hst₂⟩ := Arena.Follows.run hsound (others.map .action) st hst
    rw [run_action] at hst₁ hst₂
    exact ⟨_, st₁, _, st₂, hrun₁, hrun₂, hst₁.equivalent hst₂ (equivalent_performAll h)⟩

/-- A hash of three parts, which can not be linked. -/
def looseHash : List Action :=
  [.pre ⟨"f", 0, "SHA3", 0, [⟨768, "x,1,2"⟩], none, none⟩ none,
    .post ⟨"f", "SHA3", ⟨256, "hash"⟩⟩ none]

/-- The same with an instruction that is not traced, a result that comes twice, and calls for a node
that can not be removed and for edges that can not be found. -/
def looseHashInNoise : List Action :=
  [.pre ⟨"f", 0, "PUSH1", 0, [], none, none⟩ none,
    .pre ⟨"f", 0, "SHA3", 0, [⟨768, "x,1,2"⟩], none, none⟩ none, .remove 0,
    .post ⟨"f", "SHA3", ⟨256, "hash"⟩⟩ none, .post ⟨"f", "SHA3", ⟨256, "other"⟩⟩ none,
    .findEdges 2]

theorem refused_changes_nothing_looseHash :
    let s := start ⟨{}, .text, 0⟩
    let t := s.performAll looseHash
    Action.isRefused (.findEdges 2) (t.act (.findEdges 2)).1 = true ∧
      t.Equivalent (t.act (.findEdges 2)).2 ∧ t.graph.size = 3 ∧
      Relation.EqvGen s.Inserts looseHash looseHashInNoise ∧
      t.Equivalent (s.performAll looseHashInNoise) ∧
      (∃ answers st st',
        Arena.run (looseHash.map .action) (.start ⟨{}, .text, 0⟩) = some (answers, st) ∧
        Arena.act (.findEdges 2) st = some ((t.act (.findEdges 2)).1, st') ∧ st.Equivalent st') ∧
      ∃ answers st answers' st',
        Arena.run (looseHash.map .action) (.start ⟨{}, .text, 0⟩) = some (answers, st) ∧
        Arena.run (looseHashInNoise.map .action) (.start ⟨{}, .text, 0⟩) = some (answers', st') ∧
        st.Equivalent st' := by
  intro s t
  have hrefused : Action.isRefused (.findEdges 2) (t.act (.findEdges 2)).1 = true := by
    decide +kernel
  have hnoise : Relation.EqvGen s.Inserts looseHash looseHashInNoise :=
    .trans _ _ _ (.rel _ _ (.intro [] looseHash (by decide +kernel)))
      (.trans _ _ _ (.rel _ _ (.intro (looseHashInNoise.take 2) (looseHash.drop 1)
        (by decide +kernel)))
      (.trans _ _ _ (.rel _ _ (.intro (looseHashInNoise.take 4) [] (by decide +kernel)))
        (.rel _ _ (.intro (looseHashInNoise.take 5) [] (by decide +kernel)))))
  have hsize : t.graph.size = 3 := by decide +kernel
  have ht : ((start ⟨{}, .text, 0⟩).run (looseHash.map .action)).2 = t := run_action _ looseHash
  obtain ⟨hrefusal, -, -, -, answers, st, hrun, hplace, -⟩ :=
    refused_changes_nothing ⟨{}, .text, 0⟩ (looseHash.map .action)
  obtain ⟨-, -, -, hinserted, _, _, hstart, -, hinserted'⟩ :=
    refused_changes_nothing ⟨{}, .text, 0⟩ []
  cases (hstart : some ([], Arena.start ⟨{}, .text, 0⟩) = _)
  rw [ht] at hrefusal hplace
  obtain ⟨st', hact, hsame⟩ := hplace (.findEdges 2)
  exact ⟨hrefused, hrefusal (.findEdges 2) hrefused, hsize, hnoise,
    hinserted looseHash looseHashInNoise hnoise, ⟨answers, st, st', hrun, hact, hsame hrefused⟩,
    hinserted' looseHash looseHashInNoise hnoise⟩

end Analysis
end OperandFlow
