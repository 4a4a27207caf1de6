import OperandFlow.Proofs.Graph.Resolution

/-! Graphs between two reports, whose waiting nodes are as they arrived. -/
namespace OperandFlow

theorem Arrival.isNone_missing? (a : Arrival) (i j : NodeId) :
    (a.missing? i).isNone = (a.missing? j).isNone := by
  unfold missing?
  dsimp only
  split_ifs <;> rfl

namespace Graph

/-- A coherent graph whose waiting nodes are as they arrived. -/
structure Steady (host : Host) (g : Graph) : Prop where
  coherent : g.Coherent
  accounted : g.Accounted host fun _ => True

/-- The graph after an instruction arrived whose opcode decides on its category. -/
def added (host : Host) (g : Graph) (a : Arrival) : Graph :=
  receive host a a.opcode.category (g.readyFor host a).1 (g.readyFor host a).2

/-- The node of an instruction as it arrives. -/
def newcomer (host : Host) (g : Graph) (a : Arrival) : Node :=
  (g.readyFor host a).1.nodeOf host.options (g.readyFor host a).2 a a.opcode.category

/-- The graph with the new node in it, before the node is linked. -/
def joined (host : Host) (g : Graph) (a : Arrival) : Graph :=
  (g.readyFor host a).1.arrive (g.newcomer host a) (g.readyFor host a).2.exit

theorem added_eq (host : Host) (g : Graph) (a : Arrival) :
    g.added host a = if linksAtOnce a (g.newcomer host a) then
      ((g.joined host a).runEdgeSearch host (g.readyFor host a).1.size).value
    else g.joined host a := rfl

/-- The graph after a result, if a node waits for it. -/
def completed (host : Host) (g : Graph) (function : String) (opcode : Opcode) (result : Value)
    (state : Option String) : Graph :=
  match g.awaiting? function opcode with
  | none => g
  | some uid =>
    (((g.unpend uid).update uid (supply host.options opcode result state)).runEdgeSearch host
      uid).value

theorem add_value_of_unknown (host : Host) (g : Graph) {a : Arrival} (ha : a.category = .unknown) :
    (g.add host a).value = (.ok (g.readyFor host a).1.size, g.added host a) := by
  apply add_value
  unfold Arrival.category?
  rw [ha]

theorem complete_graph (host : Host) (g : Graph) (function : String) (opcode : Opcode)
    (result : Value) (state : Option String) :
    (g.complete host function opcode result state).value.2 =
      g.completed host function opcode result state := by
  rw [complete_value]
  unfold completed
  cases g.awaiting? function opcode <;> rfl

theorem steady_empty (host : Host) : empty.Steady host := ⟨coherent_empty, accounted_empty⟩

namespace Steady

variable {host : Host} {g : Graph} {uid : NodeId}

theorem finish (h : g.Steady host) (huid : uid ∈ g.pending) :
    (finish host g uid).value.Steady host :=
  ⟨h.coherent.finish host huid, h.accounted.finish h.coherent huid⟩

theorem flushWhere (h : g.Steady host) (p : Node → Bool) :
    (g.flushWhere host p).value.Steady host :=
  ⟨h.coherent.flushWhere host p, h.accounted.flushWhere h.coherent p⟩

theorem readyFor (h : g.Steady host) (a : Arrival) : (g.readyFor host a).1.Steady host :=
  ⟨h.coherent.readyFor host a, h.accounted.readyFor h.coherent a⟩

theorem added (h : g.Steady host) {a : Arrival} (ha : a.category = .unknown) :
    (g.added host a).Steady host :=
  ⟨h.coherent.add ha (add_value_of_unknown host g ha),
    h.accounted.add h.coherent ha (add_value_of_unknown host g ha) fun _ _ => trivial⟩

theorem completed (h : g.Steady host) (function : String) (opcode : Opcode) (result : Value)
    (state : Option String) : (g.completed host function opcode result state).Steady host := by
  rw [← complete_graph]
  cases hresult : (g.complete host function opcode result state).value.1 with
  | error e =>
    rw [complete_of_error hresult]
    exact h
  | ok uid =>
    have hvalue : (g.complete host function opcode result state).value = (.ok uid, _) :=
      Prod.ext hresult rfl
    exact ⟨h.coherent.complete hvalue, h.accounted.complete h.coherent hvalue⟩

end Steady

variable {host : Host} {g : Graph}

theorem Steady.touches_joined (h : g.Steady host) (a : Arrival) :
    (g.readyFor host a).1.Touches (g.readyFor host a).1.size (g.joined host a) := by
  have hs := h.coherent.causal.sentinels?_readyFor host a
  obtain ⟨-, -, hx⟩ := (h.coherent.causal.readyFor host a).formed.of_sentinels? hs
  exact Touches.arrive ⟨_, hx, rfl⟩

section Arrival

variable {a : Arrival} (h : g.Steady host) (ha : a.category = .unknown)
include h ha

/-- The new node is as it should be, and can be linked unless it waits. -/
theorem joined_cases :
    (g.joined host a).Coherent ∧
      ((g.newcomer host a).awaiting = false →
        (g.joined host a).Linkable (g.readyFor host a).1.size) ∧
      (g.joined host a).node? (g.readyFor host a).1.size = some (g.newcomer host a) ∧
      (g.newcomer host a).Fresh := by
  have hready := h.coherent.causal.readyFor host a
  have hs := h.coherent.causal.sentinels?_readyFor host a
  obtain ⟨hjoined, -, -, hlink⟩ := h.coherent.arrival ha (add_value_of_unknown host g ha)
  obtain ⟨-, -, hx⟩ := hready.formed.of_sentinels? hs
  have hlt : (g.readyFor host a).2.exit < (g.readyFor host a).1.size :=
    size_outlines _ ▸ (Array.getElem?_eq_some_iff.mp hx).1
  exact ⟨hjoined, hlink, by rw [joined, node?_arrive hlt, if_pos rfl],
    fresh_nodeOf hready.formed hs host.options⟩

theorem outlines_added : (g.added host a).outlines = (g.joined host a).outlines := by
  have hformed := (joined_cases h ha).1.causal.formed
  rw [added_eq]
  split_ifs
  · exact (searched_runEdgeSearch host hformed _).outlines hformed
  · rfl

theorem pending_added : (g.added host a).pending = (g.joined host a).pending := by
  obtain ⟨hjoined, -, hnode, -⟩ := joined_cases h ha
  rw [added_eq]
  split_ifs with hlinks
  · apply (searched_runEdgeSearch host hjoined.causal.formed _).pending hjoined.causal.formed
    have hwait : (g.newcomer host a).awaiting = false := by
      simpa using (Bool.and_eq_true_iff.mp hlinks).2
    simp [← hjoined.paced.awaiting_iff hnode, hwait]
  · rfl

end Arrival

section Result

variable {function : String} {opcode : Opcode}

variable (host) (result : Value) (state : Option String)

theorem outlines_supplied (g : Graph) (uid : NodeId) (opcode : Opcode) :
    ((g.unpend uid).update uid (supply host.options opcode result state)).outlines =
      g.outlines := by
  rw [outlines_update (by intro m _; rfl), outlines_unpend]

theorem outlines_completed (hg : Formed g.outlines) :
    (g.completed host function opcode result state).outlines = g.outlines := by
  unfold completed
  cases g.awaiting? function opcode with
  | none => rfl
  | some uid =>
    have hout := outlines_supplied host result state g uid opcode
    exact ((searched_runEdgeSearch host (hout ▸ hg) uid).outlines (hout ▸ hg)).trans hout

theorem pending_completed (hg : Formed g.outlines) {uid : NodeId}
    (hwait : g.awaiting? function opcode = some uid) :
    (g.completed host function opcode result state).pending = g.pending.filter (· ≠ uid) := by
  have hout := outlines_supplied host result state g uid opcode
  rw [completed, hwait]
  apply (searched_runEdgeSearch host (hout ▸ hg) uid).pending (hout ▸ hg)
  simp [update, unpend]

end Result
end Graph
end OperandFlow
