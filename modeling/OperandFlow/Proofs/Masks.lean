import OperandFlow.Proofs.Arrivals
import OperandFlow.Proofs.Graph.Masks

/-! In every session a mask is pruned by the number of its operands that have a producer. -/
namespace OperandFlow

namespace Arrival

variable {a : Arrival} (hmask : a.opcode.isMask = true) (hlen : 2 ≤ a.operands.length)
include hmask

theorem kind_of_isMask : a.kind a.opcode.category = .dataFlow := by
  rcases Opcode.eq_of_isMask hmask with hopcode | hopcode <;> rw [hopcode] <;> rfl

include hlen

theorem slotValues_of_isMask : a.slotValues a.opcode.category = a.operands := by
  have hnonempty : orEmpty a.operands = a.operands := by
    apply if_neg
    intro hempty
    rw [List.isEmpty_iff.mp hempty] at hlen
    cases hlen
  rw [← hnonempty]
  rcases Opcode.eq_of_isMask hmask with hopcode | hopcode <;> unfold slotValues <;>
    simp only [hopcode, Opcode.isStorage, Opcode.category, Bool.false_eq_true, if_false]

/-- A mask lacks nothing if its first two operands are there. -/
theorem missing?_of_isMask (h₀ : (a.operand 0).isEmpty = false)
    (h₁ : (a.operand 1).isEmpty = false) (uid : NodeId) : a.missing? uid = none := by
  have hrequired : a.opcode.required = 2 := by
    rcases Opcode.eq_of_isMask hmask with hopcode | hopcode <;> rw [hopcode] <;> rfl
  obtain ⟨x, y, rest, hoperands⟩ : ∃ x y rest, a.operands = x :: y :: rest := by
    rcases h : a.operands with _ | ⟨x, _ | ⟨y, rest⟩⟩
    · simp [h] at hlen
    · simp [h] at hlen
    · exact ⟨x, y, rest, rfl⟩
  simp only [operand, hoperands, List.getD_cons_zero, List.getD_cons_succ] at h₀ h₁
  simp [missing?, hoperands, hrequired, h₀, h₁]

end Arrival

namespace Graph

variable {host : Host} {a : Arrival} {g : Graph} {i : NodeId}

/-- A mask stays what it was pruned to. -/
theorem Made.masked (h : g.Made host a i) (hmask : a.opcode.isMask = true)
    (hlen : 2 ≤ a.operands.length) (h₀ : (a.operand 0).isEmpty = false)
    (h₁ : (a.operand 1).isEmpty = false) :
    g.Masked host (host.options.slots i a.operands) i := by
  have hslots : 2 ≤ (host.options.slots i a.operands).length := by
    simpa [Options.slots] using hlen
  apply h.sustained (sustained_masked host i hslots)
  · intro j n hj hfresh
    exact ⟨hfresh, fun heq => absurd heq hj⟩
  · intro n ho hn hfresh
    rw [Arrival.slotValues_of_isMask hmask hlen] at hn
    exact ⟨hfresh, fun _ => ⟨by simpa [ho] using hmask, hn⟩⟩
  · intro g n hn huid hkind hholds honce m hm _
    cases hn.symm.trans hm
    have hwait : n.awaiting = true := by
      rw [Arrival.kind_of_isMask hmask] at hkind
      simpa [linksAtOnce, hkind, Arrival.missing?_of_isMask hmask hlen h₀ h₁] using honce
    exact ⟨fun _ _ => hholds.2 rfl, fun hsettled => by simp [hsettled] at hwait⟩

end Graph

/-- Masks of a caller: one of unknown values, one of the caller and an unknown value, and one of
both known values and an unknown one. -/
def masksOfCaller : List Action :=
  [.pre ⟨"f", 0, "CALLER", 0, [], none, none⟩ none,
    .post ⟨"f", "CALLER", ⟨256, "caller"⟩⟩ none,
    .pre ⟨"f", 0, "AND", 1, [⟨256, "x"⟩, ⟨256, "y"⟩], none, none⟩ none,
    .pre ⟨"f", 0, "AND", 2, [⟨256, "x"⟩, ⟨256, "caller"⟩], none, none⟩ none,
    .post ⟨"f", "AND", ⟨256, "masked"⟩⟩ none,
    .pre ⟨"f", 0, "OR", 3, [⟨256, "masked"⟩, ⟨256, "caller"⟩, ⟨256, "z"⟩], none, none⟩ none,
    .flush none]

namespace Analysis

/-- After any reports, a settled mask that was made with its first two operands is gone if nothing
in reach produced one of its operands, keeps the only operand that was produced, and keeps all of
them in order if more were. Each operand that it keeps is supplied by the newest producer, if there
is one. -/
theorem masks_pruned (host : Host) (actions : List Action)
    (h : ∀ action ∈ actions, action.isReport = true) :
    let g := ((start host).performAll actions).graph
    ∀ i n, g.node? i = some n → n.is .and = true ∨ n.is .or = true → n.awaiting = false →
      (∃ a, g.Made host a i) ∧ ∀ a, g.Made host a i → n.opcode? = some a.opcode ∧
        (2 ≤ a.operands.length → (a.operand 0).isEmpty = false → (a.operand 1).isEmpty = false →
          let candidates := g.candidates host.options.reach n
          let operands := host.options.slots i a.operands
          let resolved := operands.filter (Slot.isResolvable host candidates)
          (resolved.length = 0 → n.isDeleted = true) ∧
          (resolved.length = 1 → n.isDeleted = false ∧
            ∃ slot p, resolved = [slot] ∧ n.slots = [⟨slot.datum, [p]⟩]) ∧
          (2 ≤ resolved.length → n.isDeleted = false ∧ n.slots.length = a.operands.length ∧
            ∀ (j : Nat) (slot : Slot), operands[j]? = some slot →
              ∃ preds, n.slots[j]? = some ⟨slot.datum, preds⟩ ∧
                (slot.isResolvable host candidates = true → ∃ p, preds = [p]) ∧
                (slot.isResolvable host candidates = false → preds = [])) ∧
          (n.isDeleted = false → ∀ slot ∈ n.slots, slot.Supplied host candidates)) := by
  intro g i n hn hopcode hwait
  have hreported : g.Reported host := (reported_performAll host h).2
  have hinstr : n.instruction ≠ none :=
    hopcode.elim Node.instruction_ne_none_of_is Node.instruction_ne_none_of_is
  refine ⟨hreported.exists_made hn hinstr, ?_⟩
  intro a hmade
  have ho := hmade.opcode? hn
  refine ⟨ho, ?_⟩
  intro hlen h₀ h₁ candidates operands resolved
  have hmask : a.opcode.isMask = true := by
    rw [Node.is_eq ho, Node.is_eq ho, decide_eq_true_iff, decide_eq_true_iff] at hopcode
    rcases hopcode with hopcode | hopcode <;> rw [hopcode] <;> rfl
  have hpruned := (hmade.masked hmask hlen h₀ h₁ n hn hinstr).2 hwait
  have hlinked : n.isDeleted = false → ∀ d preds, ⟨d, preds⟩ ∈ n.slots →
      (Slot.isResolvable host candidates ⟨d, preds⟩ = true ∧ ∃ p, preds = [p]) ∨
        (Slot.isResolvable host candidates ⟨d, preds⟩ = false ∧ preds = []) :=
    fun hlive d preds hmem => (hpruned.supplied hlive ⟨d, preds⟩ hmem).cases
  refine ⟨?_, ?_, ?_, hpruned.supplied⟩
  · intro hnone
    exact hpruned.removed (List.length_eq_zero_iff.mp hnone)
  · intro hone
    obtain ⟨slot, hslot⟩ := List.length_eq_one_iff.mp hone
    obtain ⟨hlive, hdata⟩ := hpruned.collapsed slot hslot
    obtain ⟨⟨d, preds⟩, hslots, hd⟩ := List.map_eq_singleton_iff.mp hdata
    obtain rfl : d = slot.datum := hd
    have hresolved : slot.isResolvable host candidates = true :=
      List.of_mem_filter (hslot ▸ List.mem_singleton_self slot : slot ∈ resolved)
    rcases hlinked hlive slot.datum preds (hslots ▸ List.mem_singleton_self _) with
      ⟨-, p, rfl⟩ | ⟨hnot, -⟩
    · exact ⟨hlive, slot, p, hslot, hslots⟩
    · cases hresolved.symm.trans hnot
  · intro hmany
    obtain ⟨hlive, hdata⟩ := hpruned.kept hmany
    refine ⟨hlive, by simpa [Options.slots] using congrArg List.length hdata, ?_⟩
    intro j slot hslot
    have hj := congrArg (·[j]?) hdata
    rw [List.getElem?_map, List.getElem?_map, hslot, Option.map_some] at hj
    obtain ⟨⟨d, preds⟩, hslots, hd⟩ := Option.map_eq_some_iff.mp hj
    obtain rfl : d = slot.datum := hd
    refine ⟨preds, hslots, ?_⟩
    rcases hlinked hlive slot.datum preds (List.mem_of_getElem? hslots) with
      ⟨hresolvable, hone⟩ | ⟨hnot, hnone⟩
    · exact ⟨fun _ => hone, fun hnot => absurd (hnot.symm.trans hresolvable) Bool.false_ne_true⟩
    · exact ⟨fun hresolvable => absurd (hnot.symm.trans hresolvable) Bool.false_ne_true,
        fun _ => hnone⟩

/-- The second mask keeps the caller only. -/
theorem masks_pruned_masksOfCaller :
    (∀ action ∈ masksOfCaller, action.isReport = true) ∧
      let g := ((start ⟨{}, .text, 0⟩).performAll masksOfCaller).graph
      ∃ (n : Node) (a : Arrival) (slot : Slot) (p : NodeId), g.node? 4 = some n ∧
        n.is .and = true ∧ n.awaiting = false ∧ g.Made ⟨{}, .text, 0⟩ a 4 ∧
        a.operands = [⟨256, "x"⟩, ⟨256, "caller"⟩] ∧ n.isDeleted = false ∧
        n.slots = [⟨slot.datum, [p]⟩] := by
  have hreports : ∀ action ∈ masksOfCaller, action.isReport = true := by decide
  refine ⟨hreports, ?_⟩
  intro g
  let a : Arrival :=
    ⟨"f", 0, .and, 2, .unknown, [⟨256, "x"⟩, ⟨256, "caller"⟩], none, none, none⟩
  have hmade : g.Made ⟨{}, .text, 0⟩ a 4 := by
    have hsize : (((start ⟨{}, .text, 0⟩).performAll (masksOfCaller.take 3)).graph.readyFor
        ⟨{}, .text, 0⟩ a).1.size = 4 := by decide +kernel
    rw [← hsize]
    exact made_performAll ⟨{}, .text, 0⟩ (masksOfCaller.take 3) (masksOfCaller.drop 4)
      ⟨"f", 0, "AND", 2, [⟨256, "x"⟩, ⟨256, "caller"⟩], none, none⟩ none (by decide) (by decide) rfl
  have hmask : (g.node? 4).any fun n => n.is .and && !n.awaiting && decide
      (((({} : Options).slots 4 a.operands).filter (Slot.isResolvable ⟨{}, .text, 0⟩
        (g.candidates 20000 n))).length = 1) := by decide +kernel
  obtain ⟨n, hn, hmask⟩ := (Option.any_eq_true ..).mp hmask
  simp only [Bool.and_eq_true, Bool.not_eq_true', decide_eq_true_eq] at hmask
  obtain ⟨⟨hand, hwait⟩, hone⟩ := hmask
  obtain ⟨-, hpruned⟩ :=
    masks_pruned ⟨{}, .text, 0⟩ masksOfCaller hreports 4 n hn (Or.inl hand) hwait
  obtain ⟨-, hcollapsed, -⟩ := (hpruned a hmade).2 (by decide) (by decide) (by decide)
  obtain ⟨hlive, slot, p, -, hslots⟩ := hcollapsed hone
  exact ⟨n, a, slot, p, hn, hand, hwait, hmade, rfl, hlive, hslots⟩

end Analysis
end OperandFlow
