import Mathlib.Data.List.Nodup
import OperandFlow.Graph.Growth

/-! What a look-up finds after a change to the graph. -/
namespace OperandFlow

namespace Node

theorem addSuccessor_eq (n : Node) (succ : NodeId) :
    n.addSuccessor succ = { n with
      successors := if succ ∈ n.successors then n.successors else n.successors ++ [succ] } := by
  unfold addSuccessor
  split <;> rfl

theorem isSentinel_iff (n : Node) : n.isSentinel = true ↔ n.kind = .entry ∨ n.kind = .exit := by
  simp [isSentinel]

theorem isEntry_iff (n : Node) : n.isEntry = true ↔ n.kind = .entry := by
  simp [isEntry]

theorem instruction_ne_none_of_is {n : Node} {o : Opcode} (h : n.is o = true) :
    n.instruction ≠ none := by
  intro hnone
  simp [is, opcode?, hnone] at h

theorem predsAt_zero {n : Node} {slot : Slot} {rest : List Slot} (h : n.slots = slot :: rest) :
    n.predsAt 0 = slot.preds := by
  rw [predsAt, h]
  rfl

theorem predsAt_eq_nil {n : Node} (h : ∀ s ∈ n.slots, s.preds = []) (i : Nat) :
    n.predsAt i = [] := by
  unfold predsAt
  cases hs : n.slots[i]? with
  | none => rfl
  | some s => exact h s (List.mem_of_getElem? hs)

end Node

namespace Graph

@[simp] theorem node?_empty (i : NodeId) : empty.node? i = none := rfl

theorem node?_update (g : Graph) (uid : NodeId) (f : Node → Node) (i : NodeId) :
    (g.update uid f).node? i = if i = uid then (g.node? i).map f else g.node? i := by
  unfold update node?
  rw [Array.getElem?_modify]
  simp only [eq_comm]

theorem node?_update_self {g : Graph} {uid : NodeId} {n : Node} (hn : g.node? uid = some n)
    (f : Node → Node) : (g.update uid f).node? uid = some (f n) := by
  rw [node?_update, if_pos rfl, hn]
  rfl

theorem node?_update_of_ne {i uid : NodeId} (h : i ≠ uid) (g : Graph) (f : Node → Node) :
    (g.update uid f).node? i = g.node? i := by
  rw [node?_update, if_neg h]

theorem ext_node? {g g' : Graph} (hnodes : ∀ i, g.node? i = g'.node? i)
    (hpending : g.pending = g'.pending) : g = g' := by
  cases g
  cases g'
  simp only [Graph.mk.injEq]
  exact ⟨Array.ext_getElem? hnodes, hpending⟩

theorem update_update (g : Graph) (uid : NodeId) (f h : Node → Node) :
    (g.update uid f).update uid h = g.update uid (h ∘ f) := by
  apply ext_node?
  · intro i
    simp only [node?_update]
    split_ifs <;> simp
  · rfl

theorem update_congr {g : Graph} {uid : NodeId} {f h : Node → Node}
    (hfh : ∀ n, g.node? uid = some n → f n = h n) : g.update uid f = g.update uid h := by
  apply ext_node?
  · intro i
    simp only [node?_update]
    split_ifs with hi
    · subst hi
      cases hn : g.node? i with
      | none => rfl
      | some n => simp [hfh n hn]
    · rfl
  · rfl

@[simp] theorem pending_update (g : Graph) (uid : NodeId) (f : Node → Node) :
    (g.update uid f).pending = g.pending := rfl

theorem lt_size_of_node? {g : Graph} {i : NodeId} {n : Node} (h : g.node? i = some n) :
    i < g.size := by
  unfold node? at h
  exact (Array.getElem?_eq_some_iff.mp h).1

theorem exists_node?_of_lt {g : Graph} {i : NodeId} (h : i < g.size) :
    ∃ n, g.node? i = some n :=
  ⟨g.nodes[i], Array.getElem?_eq_getElem h⟩

theorem node?_push (g : Graph) (n : Node) (i : NodeId) :
    (g.push n).node? i = if i = g.size then some n else g.node? i := by
  unfold push node? size
  rw [Array.getElem?_push]

theorem node?_push_of_some {g : Graph} {i : NodeId} {m : Node} (h : g.node? i = some m)
    (n : Node) : (g.push n).node? i = some m := by
  rw [node?_push, if_neg (Nat.ne_of_lt (lt_size_of_node? h)), h]

theorem size_update (g : Graph) (uid : NodeId) (f : Node → Node) :
    (g.update uid f).size = g.size := by
  simp [update, size]

@[simp] theorem size_push (g : Graph) (n : Node) : (g.push n).size = g.size + 1 := by
  simp [push, size]

theorem mem_nodes_iff {g : Graph} {n : Node} : n ∈ g.nodes.toList ↔ ∃ i, g.node? i = some n := by
  unfold node?
  rw [Array.mem_toList_iff, Array.mem_iff_getElem?]

end Graph
end OperandFlow
