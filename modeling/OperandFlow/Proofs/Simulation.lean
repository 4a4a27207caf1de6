import OperandFlow.Proofs.Calls

/-! Two analyses side by side: what the changes of a graph, notes in the journal and starting over
keep between them is kept by whatever a host does to both. -/
namespace OperandFlow.Analysis

/-- Answers are the same, and the analyses behind them are related. -/
structure Agree {α : Type} (R : Analysis → Analysis → Prop) (x y : α × Analysis) : Prop where
  answer : y.1 = x.1
  related : R x.2 y.2

theorem Agree.exists_eq {α : Type} {R : Analysis → Analysis → Prop} {x y : α × Analysis}
    (h : Agree R x y) : ∃ a s t, x = (a, s) ∧ y = (a, t) ∧ R s t :=
  ⟨x.1, x.2, y.2, rfl, Prod.ext h.answer rfl, h.related⟩

/-- Related analyses have one graph, and stay related through all that actions are made of. -/
structure Simulation (R : Analysis → Analysis → Prop) : Prop where
  graph : ∀ {s t}, R s t → t.graph = s.graph
  log : ∀ {s t}, R s t → ∀ es, R (s.log es) (t.log es)
  reset : ∀ {s t}, R s t → R s.reset t.reset
  flush : ∀ {s t}, R s t → ∀ function, R (s.flush function) (t.flush function)
  add : ∀ {s t}, R s t → ∀ a, Agree R (s.add a) (t.add a)
  complete : ∀ {s t}, R s t → ∀ function opcode result state,
    Agree R (s.complete function opcode result state) (t.complete function opcode result state)
  findEdges : ∀ {s t}, R s t → ∀ uid, Agree R (s.findEdges uid) (t.findEdges uid)
  remove : ∀ {s t}, R s t → ∀ uid, Agree R (s.remove uid) (t.remove uid)

namespace Simulation

variable {R : Analysis → Analysis → Prop} (sim : Simulation R) {s t : Analysis}
include sim

theorem hookedOpcode (h : R s t) (mnemonic : String) (hooked : Opcode → Bool) :
    Agree R (s.hookedOpcode mnemonic hooked) (t.hookedOpcode mnemonic hooked) := by
  unfold Analysis.hookedOpcode
  cases Opcode.ofMnemonic mnemonic with
  | ok opcode => exact ⟨rfl, h⟩
  | error e => exact ⟨rfl, sim.log h _⟩

theorem decodeCallData (h : R s t) (opcode : Opcode) (address : UInt64) (data : Option String) :
    Agree R (s.decodeCallData opcode address data) (t.decodeCallData opcode address data) := by
  unfold Analysis.decodeCallData
  split
  · exact ⟨rfl, h⟩
  · exact ⟨rfl, h⟩
  · exact ⟨rfl, sim.log h _⟩

theorem onPre (h : R s t) (e : PreEvent) (state : Option String) :
    Agree R (s.onPre e state) (t.onPre e state) := by
  obtain ⟨hooked, s₁, t₁, hs₁, ht₁, h₁⟩ :=
    (sim.hookedOpcode h e.opcode Opcode.reportsOperands).exists_eq
  unfold Analysis.onPre
  rw [hs₁, ht₁]
  cases hooked with
  | none => exact ⟨rfl, h₁⟩
  | some opcode =>
    obtain ⟨callData, s₂, t₂, hs₂, ht₂, h₂⟩ :=
      (sim.decodeCallData h₁ opcode e.address e.callData).exists_eq
    dsimp only
    rw [hs₂, ht₂]
    dsimp only
    obtain ⟨added, s₃, t₃, hs₃, ht₃, h₃⟩ := (sim.add h₂ _).exists_eq
    rw [hs₃, ht₃]
    cases added with
    | ok uid => exact ⟨rfl, h₃⟩
    | error error => exact ⟨rfl, sim.log h₃ _⟩

theorem onPost (h : R s t) (e : PostEvent) (state : Option String) :
    Agree R (s.onPost e state) (t.onPost e state) := by
  obtain ⟨hooked, s₁, t₁, hs₁, ht₁, h₁⟩ :=
    (sim.hookedOpcode h e.opcode Opcode.reportsResult).exists_eq
  unfold Analysis.onPost
  rw [hs₁, ht₁]
  cases hooked with
  | none => exact ⟨rfl, h₁⟩
  | some opcode =>
    obtain ⟨completed, s₂, t₂, hs₂, ht₂, h₂⟩ :=
      (sim.complete h₁ e.function opcode e.result state).exists_eq
    dsimp only
    rw [hs₂, ht₂]
    cases completed with
    | ok uid => exact ⟨rfl, h₂⟩
    | error error => exact ⟨rfl, sim.log h₂ _⟩

theorem apply (h : R s t) (r : HookRecord) : R (s.apply r) (t.apply r) := by
  cases r with
  | pre e => exact (sim.onPre h e none).related
  | post e => exact (sim.onPost h e none).related

theorem replayLines (h : R s t) (line records : Nat) (lines : List (List UInt8)) :
    Agree R (s.replayLines line records lines) (t.replayLines line records lines) := by
  induction lines generalizing s t line records with
  | nil => exact ⟨rfl, h⟩
  | cons bytes rest ih =>
    unfold Analysis.replayLines
    split
    · exact ⟨rfl, h⟩
    · split
      · exact ih h _ _
      · split
        · exact ⟨rfl, h⟩
        · exact ih (sim.apply h _) _ _

theorem replay (h : R s t) (trace : List UInt8) : Agree R (s.replay trace) (t.replay trace) := by
  obtain ⟨replayed, s₁, t₁, hs₁, ht₁, h₁⟩ :=
    (sim.replayLines h 1 0 (linesOf [] trace)).exists_eq
  unfold Analysis.replay
  rw [hs₁, ht₁]
  cases replayed with
  | error e => exact ⟨rfl, h₁⟩
  | ok records =>
    have hflush := sim.flush h₁ none
    dsimp only
    rw [sim.graph hflush, sim.graph h]
    exact ⟨rfl, sim.log hflush _⟩

/-- Every action has the same answer, and leaves related analyses. -/
theorem act (h : R s t) (a : Action) : Agree R (s.act a) (t.act a) := by
  cases a with
  | pre e state => exact sim.onPre h e state
  | post e state => exact sim.onPost h e state
  | replay trace => exact sim.replay h trace
  | flush function => exact ⟨rfl, sim.flush h function⟩
  | add a => exact sim.add h a
  | complete function opcode result state => exact sim.complete h function opcode result state
  | findEdges uid => exact sim.findEdges h uid
  | remove uid => exact sim.remove h uid
  | reset => exact ⟨rfl, sim.reset h⟩

theorem performAll (h : R s t) (actions : List Action) :
    R (s.performAll actions) (t.performAll actions) := by
  induction actions generalizing s t with
  | nil => exact h
  | cons a actions ih =>
    have hstep := (sim.act h a).related
    rw [act_eq_perform, act_eq_perform] at hstep
    exact ih hstep

end Simulation
end OperandFlow.Analysis
