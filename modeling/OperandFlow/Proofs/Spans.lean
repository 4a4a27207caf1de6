import OperandFlow.Proofs.Calls
import OperandFlow.Proofs.Graph.Bounds
import OperandFlow.Proofs.Graph.Spans

/-! In every session the span of a loop along a chain is that of all entries to the destinations
that are entered too often. -/
namespace OperandFlow

namespace Analysis

open OperandFlow.Graph

/-- A chain of nodes that are there has a span, namely of all entries to the addresses that have
more entries than the threshold, and it comes out in every order of these addresses. More nodes
before and after the chain only widen it. -/
theorem loopBounds_spans_entries (s : Analysis) (chain : List NodeId)
    (h : ∀ i ∈ chain, i < s.graph.size) :
    let threshold := s.host.options.loopThreshold
    ∃ r, s.loopBounds? chain = some r ∧
      (r = none ↔ ∀ address, (s.graph.entriesTo chain address).length ≤ threshold) ∧
      (∀ low high, r = some (low, high) →
        IsLeast (s.graph.looping threshold chain) low ∧
          IsGreatest (s.graph.looping threshold chain) high) ∧
      ((∃ groups, s.graph.IsGrouping chain groups) ∧
        ∀ groups, s.graph.IsGrouping chain groups → spanOfGroups threshold groups = r) ∧
      ∀ before after, (∀ i ∈ before ++ after, i < s.graph.size) →
        ∃ r', s.loopBounds? (before ++ chain ++ after) = some r' ∧
          ∀ low high, r = some (low, high) →
            ∃ low' high', r' = some (low', high') ∧ low' ≤ low ∧ high ≤ high' := by
  intro threshold
  obtain ⟨r, hr⟩ := Graph.exists_loopBounds h threshold
  have hspan : IsSpan (s.graph.looping threshold chain) r := isSpan_loopBounds hr
  refine ⟨r, hr, ?_, ?_, ⟨?_, fun groups hgroups => hgroups.isSpan.unique hspan⟩, ?_⟩
  · rw [← looping_eq_empty_iff, ← hspan.eq_none_iff]
  · rintro low high rfl
    exact hspan
  · obtain ⟨entrances, hentrances, -⟩ := Option.map_eq_some_iff.mp hr
    exact exists_grouping hentrances
  · intro before after hmore
    have hall : ∀ i ∈ before ++ chain ++ after, i < s.graph.size := by
      intro i hi
      simp only [List.mem_append] at hi hmore
      rcases hi with (hi | hi) | hi
      · exact hmore i (.inl hi)
      · exact h i hi
      · exact hmore i (.inr hi)
    obtain ⟨r', hr'⟩ := Graph.exists_loopBounds hall threshold
    refine ⟨r', hr', ?_⟩
    rintro low high rfl
    exact hspan.wider (looping_subset before chain after) (isSpan_loopBounds hr')

/-- Two conditional jumps, each with a destination of its own. -/
def twoDestinations : List Action :=
  [.pre ⟨"f", 0, "JUMPI", 4, [⟨256, "8"⟩, ⟨256, "c"⟩], none, none⟩ none,
    .pre ⟨"f", 0, "JUMPDEST", 8, [], none, none⟩ none,
    .pre ⟨"f", 0, "JUMPI", 12, [⟨256, "16"⟩, ⟨256, "c"⟩], none, none⟩ none,
    .pre ⟨"f", 0, "JUMPDEST", 16, [], none, none⟩ none]

/-- A chain that enters each destination twice has all four nodes in its span, and so does a longer
one. -/
theorem loopBounds_spans_entries_twoDestinations :
    let s := (start ⟨{ loopThreshold := 1 }, .text, 0⟩).performAll twoDestinations
    (∀ i ∈ [4, 5, 4, 5, 2, 3, 2, 3], i < s.graph.size) ∧
      s.loopBounds? [4, 5, 4, 5, 2, 3, 2, 3] = some (some (2, 5)) ∧
      (∃ groups, s.graph.IsGrouping [4, 5, 4, 5, 2, 3, 2, 3] groups ∧
        spanOfGroups 1 groups = some (2, 5)) ∧
      ∃ low high, s.loopBounds? [4, 5, 4, 5, 2, 3, 2, 3, 0] = some (some (low, high)) ∧
        low ≤ 2 ∧ 5 ≤ high := by
  intro s
  have hvalid : ∀ i ∈ [4, 5, 4, 5, 2, 3, 2, 3], i < s.graph.size := by decide +kernel
  have hspan : s.loopBounds? [4, 5, 4, 5, 2, 3, 2, 3] = some (some (2, 5)) := by decide +kernel
  have hmore : ∀ i ∈ [] ++ [0], i < s.graph.size := by decide +kernel
  obtain ⟨r, hr, -, -, ⟨⟨groups, hgroups⟩, hany⟩, hwider⟩ := loopBounds_spans_entries s _ hvalid
  obtain rfl : some (2, 5) = r := Option.some.inj (hspan.symm.trans hr)
  obtain ⟨r', hr', hle⟩ := hwider [] [0] hmore
  obtain ⟨low, high, rfl, hlow, hhigh⟩ := hle 2 5 rfl
  exact ⟨hvalid, hspan, ⟨groups, hgroups, hany groups hgroups⟩, low, high, hr', hlow, hhigh⟩

end Analysis
end OperandFlow
