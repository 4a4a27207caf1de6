import Mathlib.Data.List.Chain
import OperandFlow.Proofs.Json.Scan
import OperandFlow.Proofs.Term.Nesting
import OperandFlow.Proofs.Term.Shortening

/-! Rows of calldata reads: a row is scanned read by read, and adjacent reads of a row make up one
run. -/
namespace OperandFlow.Term
open Text

namespace Reads

/-! ### Scanning, case by case -/

section Cases

variable {text before after : List Char}

theorem scan_of_none (h : breakOn readOpening text = none) : scan text = ⟨[], text⟩ := by
  rw [scan]
  split
  · rfl
  · next hsome =>
    rw [h] at hsome
    cases hsome

theorem scan_of_read {gap owner inside rest : List Char}
    (hbreak : breakOn readOpening text = some (before, after))
    (hsplit : splitOwner before = (gap, owner)) (howner : owner.isEmpty = false)
    (hgroup : group? ']' after = some (inside, rest)) :
    scan text = ⟨(gap, ⟨owner, mergeReads inside⟩) :: (scan rest).reads, (scan rest).tail⟩ := by
  rw [scan]
  split
  · next hnone =>
    rw [hbreak] at hnone
    cases hnone
  · next hsome =>
    obtain ⟨rfl, rfl⟩ := Prod.mk.inj (Option.some.inj (hbreak.symm.trans hsome))
    rw [hsplit]
    dsimp only
    split
    · next hsome' =>
      obtain ⟨rfl, rfl⟩ := Prod.mk.inj (Option.some.inj (hgroup.symm.trans hsome'))
      rfl
    · next hne => exact absurd hgroup (hne _ _ howner)

theorem scan_of_skip (hbreak : breakOn readOpening text = some (before, after))
    (h : (splitOwner before).2.isEmpty = true ∨ group? ']' after = none) :
    scan text = (scan after).prepend (before ++ readOpening) := by
  rw [scan]
  split
  · next hnone =>
    rw [hbreak] at hnone
    cases hnone
  · next hsome =>
    obtain ⟨rfl, rfl⟩ := Prod.mk.inj (Option.some.inj (hbreak.symm.trans hsome))
    dsimp only
    split
    · next howner hgroup =>
      rw [howner, hgroup] at h
      simp at h
    · rfl

theorem skip_of_not_read {gap owner : List Char} (hsplit : splitOwner before = (gap, owner))
    (h : ∀ inside rest, owner.isEmpty = false → group? ']' after = some (inside, rest) → False) :
    (splitOwner before).2.isEmpty = true ∨ group? ']' after = none := by
  rw [hsplit]
  cases howner : owner.isEmpty with
  | true => exact .inl rfl
  | false =>
    right
    cases hgroup : group? ']' after with
    | none => rfl
    | some parts => exact absurd hgroup (h parts.1 parts.2 howner)

end Cases

end Reads

theorem mergeReads_of_absent {text : List Char} (h : '[' ∉ text) : mergeReads text = text := by
  rw [mergeReads, Reads.scan_of_none (breakOn_eq_none (by decide) h)]
  rfl

/-! ### Places -/

theorem hasColonFrom_of_absent (depth : Int) {index : List Char} (h : ':' ∉ index) :
    hasColonFrom depth index = false := by
  induction index generalizing depth with
  | nil => rfl
  | cons c index ih =>
    have hc : c ≠ ':' := (List.ne_of_not_mem_cons h).symm
    simp [hasColonFrom, hc, ih _ (List.not_mem_of_not_mem_cons h)]

/-- Only digits stand in a decimal numeral. -/
theorem not_mem_decimal {c : Char} (hc : c.isDigit = false) (n : Nat) : c ∉ decimal n := by
  intro hmem
  rw [isDigit_of_mem_decimal hmem] at hc
  cases hc

theorem numeral?_decimal {n bound : Nat} (h : n < bound) :
    numeral? 10 bound (decimal n) = some n := by
  have hread := digits?_decimal n
  have hplus := not_mem_decimal (c := '+') rfl n
  unfold numeral?
  split
  · next ds hds => exact absurd (by simp [hds]) hplus
  · simp [hread, h]

/-- A plain number is a place of its own. -/
theorem place?_decimal {n : Nat} (h : n < wordBound) : place? (decimal n) = some ⟨[], n⟩ := by
  rw [place?, hasColonFrom_of_absent 0 (not_mem_decimal rfl n), numeral?_decimal h]
  rfl

/-! ### Rows -/

/-- A name that calldata may belong to. -/
structure IsOwner (owner : List Char) : Prop where
  nonempty : owner ≠ []
  isAlphanum : ∀ c ∈ owner, c.isAlphanum = true

namespace Read

def render (r : Read) : List Char := r.renderAt r.index

/-- A read with an owner, and with no reads in its index. -/
structure IsPlain (r : Read) : Prop where
  owner : IsOwner r.owner
  nested : Nested (fun _ => True) r.index
  flat : '[' ∉ r.index

end Read

namespace Reads

theorem splitOwner_append_owner {gap owner : List Char}
    (hgap : gap.getLast?.any Char.isAlphanum = false)
    (howner : ∀ c ∈ owner, c.isAlphanum = true) : splitOwner (gap ++ owner) = (gap, owner) := by
  have hrev : ∀ c ∈ owner.reverse, c.isAlphanum = true := by simpa using howner
  have hstop : gap.reverse.takeWhile Char.isAlphanum = [] ∧
      gap.reverse.dropWhile Char.isAlphanum = gap.reverse := by
    rw [← List.head?_reverse] at hgap
    cases hback : gap.reverse with
    | nil => exact ⟨rfl, rfl⟩
    | cons c back =>
      rw [hback] at hgap
      have hc : ¬ c.isAlphanum = true := by simpa using hgap
      exact ⟨List.takeWhile_cons_of_neg hc, List.dropWhile_cons_of_neg hc⟩
  simp only [splitOwner]
  rw [List.reverse_append, List.dropWhile_append_of_pos hrev, List.takeWhile_append_of_pos hrev,
    hstop.1, hstop.2]
  simp

/-- The first read of a text is scanned, and then what follows it. -/
theorem scan_read {gap : List Char} {r : Read} (hr : r.IsPlain) (hgap : '_' ∉ gap)
    (hlast : gap.getLast?.any Char.isAlphanum = false) (rest : List Char) :
    scan (gap ++ (r.render ++ rest)) = ⟨(gap, r) :: (scan rest).reads, (scan rest).tail⟩ := by
  have hmark : '_' ∉ gap ++ r.owner := by
    intro hmem
    rcases List.mem_append.mp hmem with hmem | hmem
    · exact hgap hmem
    · exact absurd (hr.owner.isAlphanum _ hmem) (by decide)
  have htext : gap ++ (r.render ++ rest) =
      (gap ++ r.owner) ++ readOpening ++ (r.index ++ ']' :: rest) := by
    simp [Read.render, Read.renderAt]
  have hbreak : breakOn readOpening (gap ++ (r.render ++ rest)) =
      some (gap ++ r.owner, r.index ++ ']' :: rest) := by
    rw [htext]
    exact breakOn_append hmark _
  have hgroup := hr.nested.group?_append ']' rfl rest
  rw [scan_of_read hbreak (splitOwner_append_owner hlast hr.owner.isAlphanum)
    (by simpa using hr.owner.nonempty) hgroup, mergeReads_of_absent hr.flat]

theorem scan_nil : scan [] = ⟨[], []⟩ := scan_of_none rfl

/-- A row of reads is scanned as its reads. -/
theorem scan_row {gap : List Char} {r : Read} {rs : List Read} (h : ∀ s ∈ r :: rs, s.IsPlain)
    (hgap : '_' ∉ gap) (hlast : gap.getLast?.any Char.isAlphanum = false) :
    scan (gap ++ joined ((r :: rs).map Read.render)) =
      ⟨(gap, r) :: rs.map ([','], ·), []⟩ := by
  induction rs generalizing gap r with
  | nil =>
    have hread := scan_read (h r (by simp)) hgap hlast []
    rw [scan_nil, List.append_nil] at hread
    simpa [joined, List.intercalate] using hread
  | cons s rs ih =>
    have hrest := ih (fun t ht => h t (List.mem_cons_of_mem r ht))
      (show '_' ∉ [','] by decide) (by decide)
    rw [List.map_cons, joined_cons (by simp), scan_read (h r (by simp)) hgap hlast,
      show ',' :: joined ((s :: rs).map Read.render) =
        [','] ++ joined ((s :: rs).map Read.render) from rfl, hrest]
    rfl

/-- Reads that follow each other make up one run. -/
theorem runs_row {gap : List Char} {r : Read} {rs : List Read}
    (h : (r :: rs).IsChain fun a b => a.precedes b = true) :
    runs ((gap, r) :: rs.map ([','], ·)) = [⟨gap, r, rs.getLast?⟩] := by
  induction rs generalizing gap r with
  | nil => rfl
  | cons s rs ih =>
    obtain ⟨hfirst, hrest⟩ := List.isChain_cons_cons.mp h
    rw [runs, List.map_cons, ih hrest]
    simp [hfirst, List.getLast?_cons]

end Reads

/-- A row of reads that follow each other becomes one read. -/
theorem mergeReads_row {gap : List Char} {r : Read} {rs : List Read}
    (h : ∀ s ∈ r :: rs, s.IsPlain) (hchain : (r :: rs).IsChain fun a b => a.precedes b = true)
    (hgap : '_' ∉ gap) (hlast : gap.getLast?.any Char.isAlphanum = false) :
    mergeReads (gap ++ joined ((r :: rs).map Read.render)) =
      Run.render ⟨gap, r, rs.getLast?⟩ := by
  rw [mergeReads, Reads.scan_row h hgap hlast, Reads.render, Reads.runs_row hchain]
  simp

end OperandFlow.Term
