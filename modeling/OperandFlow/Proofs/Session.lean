import Mathlib.Logic.Relation
import OperandFlow.Proofs.Graph.Growth
import OperandFlow.Trace.Replay

/-! Sessions: a host acts on an analysis in any order and with any arguments. -/
namespace OperandFlow

/-- What a host can do to an analysis. -/
inductive Action where
  | pre (event : PreEvent) (state : Option String)
  | post (event : PostEvent) (state : Option String)
  | replay (trace : List UInt8)
  | flush (function : Option String)
  | add (arrival : Arrival)
  | complete (function : String) (opcode : Opcode) (result : Value) (state : Option String)
  | findEdges (uid : NodeId)
  | remove (uid : NodeId)
  | reset

namespace Action

/-- The host reports what it executes. -/
def isTracing : Action → Bool
  | pre _ _ | post _ _ | replay _ | flush _ => true
  | _ => false

/-- The host reports what it executes, or starts over. -/
def isReport : Action → Bool
  | reset => true
  | action => action.isTracing

/-- The host reports what it executes, or takes nodes back. -/
def isOrderly : Action → Bool
  | remove _ | reset => true
  | action => action.isTracing

/-- The host leaves it to the graph what kinds nodes are of and when they are linked. -/
def isGuided : Action → Bool
  | add arrival => arrival.category = .unknown
  | findEdges _ => false
  | _ => true

theorem isGuided_of_isOrderly {action : Action} (h : action.isOrderly = true) :
    action.isGuided = true := by
  cases action with
  | add => cases h
  | findEdges => cases h
  | _ => rfl

end Action

namespace Analysis

def perform (s : Analysis) : Action → Analysis
  | .pre event state => (s.onPre event state).2
  | .post event state => (s.onPost event state).2
  | .replay trace => (s.replay trace).2
  | .flush function => s.flush function
  | .add arrival => (s.add arrival).2
  | .complete function opcode result state => (s.complete function opcode result state).2
  | .findEdges uid => (s.findEdges uid).2
  | .remove uid => (s.remove uid).2
  | .reset => s.reset

def performAll (s : Analysis) (actions : List Action) : Analysis :=
  actions.foldl perform s

end Analysis

/-- No node is made, removed or linked, and nothing is put on record. -/
def Event.isRemark : Event → Bool
  | nodeAdded .. | nodeRemoved _ | linked .. | anomalyFound _ => false
  | _ => true

/-- The instruction that is announced, if it is traced. Bad call data is dropped. -/
def PreEvent.arrival? (e : PreEvent) (state : Option String) : Option Arrival :=
  ((Opcode.ofMnemonic? e.opcode).filter Opcode.reportsOperands).map fun opcode =>
    { function := e.function
      tx := e.tx
      opcode := opcode
      address := e.address
      category := .unknown
      operands := e.operands
      callData := e.callData.bind fun text => (Text.unhex (dropMarks text.toUTF8.toList)).toOption
      logData := e.logData
      state := state }

/-- The instruction whose result is announced, if it reports one. -/
def PostEvent.opcode? (e : PostEvent) : Option Opcode :=
  (Opcode.ofMnemonic? e.opcode).filter Opcode.reportsResult

/-- A function stores who called it. -/
def storeOfCaller : List Action :=
  [.pre ⟨"f", 0, "CALLER", 0, [], none, none⟩ none,
    .post ⟨"f", "CALLER", ⟨256, "caller"⟩⟩ none,
    .pre ⟨"f", 0, "SSTORE", 1, [⟨256, "0"⟩, ⟨256, "caller"⟩], none, none⟩ none]

/-- A report of the host changes the graph. -/
inductive Graph.Traced (host : Host) (g : Graph) : Graph → Prop where
  | add {a : Arrival} {g' : Graph} {uid : NodeId} (hcategory : a.category = .unknown)
      (h : (g.add host a).value = (.ok uid, g')) : Traced host g g'
  | complete {function : String} {opcode : Opcode} {result : Value} {state : Option String}
      {g' : Graph} {uid : NodeId}
      (h : (g.complete host function opcode result state).value = (.ok uid, g')) :
      Traced host g g'
  | flush (function : Option String) : Traced host g (g.flush host function).value

namespace Analysis

open Relation

/-- A change succeeds, or it fails; all hangs on the graph that it leaves behind then. -/
theorem change_cases {α : Type} (s : Analysis)
    {action : Host → Graph → Logged (Except GraphError α × Graph)}
    (hspared : ∀ {e}, (action s.host s.graph).value.1 = .error e →
      (action s.host s.graph).value.2 = s.graph) :
    (s.change action).2.graph = s.graph ∨
      ∃ a, (action s.host s.graph).value = (.ok a, (s.change action).2.graph) := by
  cases hout : (action s.host s.graph).value.1 with
  | error e => exact Or.inl (hspared hout)
  | ok a => exact Or.inr ⟨a, Prod.ext hout rfl⟩

theorem change_of_value {α : Type} (s : Analysis) {action : Host → Graph → Logged (α × Graph)}
    {a : α} {g : Graph} (h : (action s.host s.graph).value = (a, g)) :
    (s.change action).1 = a ∧ (s.change action).2.graph = g :=
  ⟨congrArg Prod.fst h, congrArg Prod.snd h⟩

/-- The graph of `t` comes from that of `s` by reports to the same host. -/
def Grows (s t : Analysis) : Prop :=
  t.host = s.host ∧ ReflTransGen (Graph.Traced s.host) s.graph t.graph

theorem Grows.refl (s : Analysis) : s.Grows s := ⟨rfl, .refl⟩

theorem Grows.trans {s t u : Analysis} (hst : s.Grows t) (htu : t.Grows u) : s.Grows u := by
  obtain ⟨hhost, hst⟩ := hst
  obtain ⟨hhost', htu⟩ := htu
  rw [hhost] at htu hhost'
  exact ⟨hhost', hst.trans htu⟩

/-- What every report keeps, a growing analysis keeps. -/
theorem Grows.induction {s t : Analysis} {P : Graph → Prop} (h : s.Grows t) (hs : P s.graph)
    (step : ∀ g g', P g → g.Traced s.host g' → P g') : P t.graph := by
  obtain ⟨-, h⟩ := h
  generalize t.graph = g at h
  induction h with
  | refl => exact hs
  | tail _ hstep ih => exact step _ _ ih hstep

theorem grows_add (s : Analysis) {a : Arrival} (ha : a.category = .unknown) :
    s.Grows (s.add a).2 := by
  refine ⟨rfl, ?_⟩
  obtain hgraph | ⟨uid, hvalue⟩ : (s.add a).2.graph = _ ∨ _ := s.change_cases Graph.add_of_error
  · rw [hgraph]
  · exact .single (.add ha hvalue)

theorem grows_complete (s : Analysis) (function : String) (opcode : Opcode) (result : Value)
    (state : Option String) : s.Grows (s.complete function opcode result state).2 := by
  refine ⟨rfl, ?_⟩
  obtain hgraph | ⟨uid, hvalue⟩ : (s.complete function opcode result state).2.graph = _ ∨ _ :=
    s.change_cases Graph.complete_of_error
  · rw [hgraph]
  · exact .single (.complete hvalue)

theorem grows_flush (s : Analysis) (function : Option String) : s.Grows (s.flush function) :=
  ⟨rfl, .single (.flush function)⟩

/-- Nothing changes by the events, and they put nothing on record. -/
def Harmless (es : List Event) : Prop := ∀ e ∈ es, e.isRemark = true

theorem Harmless.append {es es' : List Event} (h : Harmless es) (h' : Harmless es') :
    Harmless (es ++ es') :=
  fun e he => (List.mem_append.mp he).elim (h e) (h' e)

/-- A step of a report: something is noted, arrives, is completed or is flushed. -/
inductive Step (s : Analysis) : Analysis → Prop where
  | note (es : List Event) (hes : Harmless es) : Step s (s.log es)
  | add {a : Arrival} (ha : a.category = .unknown) : Step s (s.add a).2
  | complete (function : String) (opcode : Opcode) (result : Value) (state : Option String) :
      Step s (s.complete function opcode result state).2
  | flush (function : Option String) : Step s (s.flush function)

/-- The host's reports lead from `s` to `t`. -/
def Reports : Analysis → Analysis → Prop := ReflTransGen Step

theorem hookedOpcode_eq (s : Analysis) (mnemonic : String) (hooked : Opcode → Bool) :
    ∃ es, Harmless es ∧ s.hookedOpcode mnemonic hooked =
      ((Opcode.ofMnemonic? mnemonic).filter hooked, s.log es) := by
  unfold hookedOpcode Opcode.ofMnemonic
  cases Opcode.ofMnemonic? mnemonic with
  | none => exact ⟨_, by simp [Harmless, Event.isRemark], rfl⟩
  | some opcode => exact ⟨[], by simp [Harmless, Event.isRemark], by simp [Option.filter]; rfl⟩

theorem decodeCallData_eq (s : Analysis) (opcode : Opcode) (address : UInt64)
    (data : Option String) :
    ∃ es, Harmless es ∧ s.decodeCallData opcode address data =
      (data.bind fun text => (Text.unhex (dropMarks text.toUTF8.toList)).toOption, s.log es) := by
  unfold decodeCallData
  cases data with
  | none => exact ⟨[], by simp [Harmless, Event.isRemark], rfl⟩
  | some text =>
    rw [Option.map_some, Option.bind_some]
    cases Text.unhex (dropMarks text.toUTF8.toList) with
    | error e => exact ⟨_, by simp [Harmless, Event.isRemark], rfl⟩
    | ok bytes => exact ⟨[], by simp [Harmless, Event.isRemark], rfl⟩

/-- What is announced before an instruction executes: nothing, or its arrival. -/
theorem onPre_eq (s : Analysis) (e : PreEvent) (state : Option String) :
    ∃ es es', Harmless es ∧ Harmless es' ∧
      (s.onPre e state).2 = ((e.arrival? state).elim (s.log es)
        fun a => ((s.log es).add a).2).log es' := by
  obtain ⟨es, hes, hhooked⟩ := s.hookedOpcode_eq e.opcode Opcode.reportsOperands
  unfold onPre PreEvent.arrival?
  rw [hhooked]
  cases (Opcode.ofMnemonic? e.opcode).filter Opcode.reportsOperands with
  | none => exact ⟨es, [], hes, by simp [Harmless, Event.isRemark], rfl⟩
  | some opcode =>
    obtain ⟨es', hes', hdecoded⟩ := (s.log es).decodeCallData_eq opcode e.address e.callData
    have hlog : (s.log es).log es' = s.log (es ++ es') := by
      unfold log Journal.observeAll
      rw [List.foldl_append]
    dsimp only
    rw [hdecoded, hlog]
    dsimp only
    split
    · rename_i uid t hadded
      refine ⟨es ++ es', [], hes.append hes', by simp [Harmless, Event.isRemark], ?_⟩
      rw [Option.map_some, Option.elim_some, hadded]
      rfl
    · rename_i error t hadded
      refine ⟨es ++ es', [.instructionSkipped opcode e.address e.function error], hes.append hes',
        by simp [Harmless, Event.isRemark], ?_⟩
      rw [Option.map_some, Option.elim_some, hadded]

/-- What is announced after an instruction executed: nothing, or its result. -/
theorem onPost_eq (s : Analysis) (e : PostEvent) (state : Option String) :
    ∃ es es', Harmless es ∧ Harmless es' ∧
      (s.onPost e state).2 = (e.opcode?.elim (s.log es)
        fun o => ((s.log es).complete e.function o e.result state).2).log es' := by
  obtain ⟨es, hes, hhooked⟩ := s.hookedOpcode_eq e.opcode Opcode.reportsResult
  unfold onPost PostEvent.opcode?
  rw [hhooked]
  cases (Opcode.ofMnemonic? e.opcode).filter Opcode.reportsResult with
  | none => exact ⟨es, [], hes, by simp [Harmless, Event.isRemark], rfl⟩
  | some opcode =>
    dsimp only
    split
    · rename_i uid t hcompleted
      refine ⟨es, [], hes, by simp [Harmless, Event.isRemark], ?_⟩
      rw [Option.elim_some, hcompleted]
      rfl
    · rename_i error t hcompleted
      refine ⟨es, [.resultDropped opcode error], hes, by simp [Harmless, Event.isRemark], ?_⟩
      rw [Option.elim_some, hcompleted]

theorem category_arrival? {e : PreEvent} {state : Option String} {a : Arrival}
    (h : e.arrival? state = some a) : a.category = .unknown := by
  obtain ⟨opcode, -, rfl⟩ := Option.map_eq_some_iff.mp h
  rfl

theorem reports_onPre (s : Analysis) (e : PreEvent) (state : Option String) :
    s.Reports (s.onPre e state).2 := by
  obtain ⟨es, es', hes, hes', heq⟩ := s.onPre_eq e state
  rw [heq]
  have hnote : s.Reports (s.log es) := .single (.note es hes)
  cases ha : e.arrival? state with
  | none => exact hnote.tail (.note es' hes')
  | some a => exact (hnote.tail (.add (category_arrival? ha))).tail (.note es' hes')

theorem reports_onPost (s : Analysis) (e : PostEvent) (state : Option String) :
    s.Reports (s.onPost e state).2 := by
  obtain ⟨es, es', hes, hes', heq⟩ := s.onPost_eq e state
  rw [heq]
  have hnote : s.Reports (s.log es) := .single (.note es hes)
  cases e.opcode? with
  | none => exact hnote.tail (.note es' hes')
  | some o => exact (hnote.tail (.complete _ _ _ _)).tail (.note es' hes')

theorem reports_replayLines (line records : Nat) (s : Analysis) (lines : List (List UInt8)) :
    s.Reports (s.replayLines line records lines).2 := by
  induction lines generalizing line records s with
  | nil => exact .refl
  | cons bytes rest ih =>
    unfold replayLines
    split
    · exact .refl
    · split_ifs
      · exact ih _ _ s
      · split
        · exact .refl
        · rename_i record _
          refine ReflTransGen.trans ?_ (ih _ _ _)
          cases record with
          | pre e => exact s.reports_onPre e none
          | post e => exact s.reports_onPost e none

theorem reports_replay (s : Analysis) (trace : List UInt8) : s.Reports (s.replay trace).2 := by
  unfold replay
  have hlines := s.reports_replayLines 1 0 (linesOf [] trace)
  generalize s.replayLines 1 0 (linesOf [] trace) = replayed at hlines
  obtain ⟨outcome, t⟩ := replayed
  cases outcome with
  | error e => exact hlines
  | ok records =>
    exact (hlines.tail (.flush none)).tail (.note _ (by simp [Harmless, Event.isRemark]))

/-- Whatever the host reports comes in steps. -/
theorem reports_perform (s : Analysis) {action : Action} (h : action.isTracing = true) :
    s.Reports (s.perform action) := by
  cases action with
  | pre event state => exact s.reports_onPre event state
  | post event state => exact s.reports_onPost event state
  | replay trace => exact s.reports_replay trace
  | flush function => exact .single (.flush function)
  | add => cases h
  | complete => cases h
  | findEdges => cases h
  | remove => cases h
  | reset => cases h

theorem Step.grows {s t : Analysis} (h : s.Step t) : s.Grows t := by
  cases h with
  | note es hes => exact .refl s
  | add ha => exact s.grows_add ha
  | complete function opcode result state => exact s.grows_complete function opcode result state
  | flush function => exact s.grows_flush function

/-- Whatever the host reports, the graph changes by arrivals, results and flushes. -/
theorem grows_perform (s : Analysis) {action : Action} (h : action.isTracing = true) :
    s.Grows (s.perform action) := by
  have hreports := s.reports_perform h
  generalize s.perform action = t at hreports
  induction hreports with
  | refl => exact .refl s
  | tail _ hstep ih => exact ih.trans hstep.grows

theorem host_perform (s : Analysis) (action : Action) : (s.perform action).host = s.host := by
  have htracing : action.isTracing = true → (s.perform action).host = s.host :=
    fun h => (s.grows_perform h).1
  cases action with
  | pre event state => exact htracing rfl
  | post event state => exact htracing rfl
  | replay trace => exact htracing rfl
  | flush function => exact htracing rfl
  | add arrival => rfl
  | complete function opcode result state => rfl
  | findEdges uid => rfl
  | remove uid => rfl
  | reset => rfl

theorem host_performAll (s : Analysis) (actions : List Action) :
    (s.performAll actions).host = s.host := by
  unfold performAll
  apply List.foldlRecOn actions (motive := fun t : Analysis => t.host = s.host) _ rfl
  intro t ht action _
  exact (t.host_perform action).trans ht

theorem grows_performAll (s : Analysis) {actions : List Action}
    (h : ∀ action ∈ actions, action.isTracing = true) : s.Grows (s.performAll actions) := by
  unfold performAll
  apply List.foldlRecOn actions (motive := s.Grows) _ (Grows.refl s)
  intro t ht action hmem
  exact ht.trans (t.grows_perform (h action hmem))

/-- What each step of a report keeps, and starting over too, holds after all reports. -/
theorem performAll_of_step {P : Analysis → Prop} {s : Analysis} (hs : P s)
    (hstep : ∀ {s t : Analysis}, P s → s.Step t → P t)
    (hreset : ∀ {s : Analysis}, P s → P s.reset) {actions : List Action}
    (h : ∀ action ∈ actions, action.isReport = true) : P (s.performAll actions) := by
  have htracing : ∀ {s : Analysis} {action : Action}, P s → action.isTracing = true →
      P (s.perform action) := by
    intro s action hs haction
    have hreports := s.reports_perform haction
    generalize s.perform action = t at hreports
    induction hreports with
    | refl => exact hs
    | tail _ htail ih => exact hstep ih htail
  unfold performAll
  apply List.foldlRecOn actions (motive := P) _ hs
  intro s hs action hmem
  have haction := h action hmem
  cases action with
  | reset => exact hreset hs
  | _ => exact htracing hs haction

end Analysis
end OperandFlow
