import OperandFlow.Proofs.Term.Brackets
import OperandFlow.Proofs.Term.Reads

/-! Scanning for reads, part by part: a text whose brackets match is scanned by itself, up to a
character that no read holds in its owner or opening. Reads are merged likewise, unless the
character is the comma that joins them. -/
namespace OperandFlow

namespace Text

variable {pattern text before after : List Char}

/-- Whether a long enough text starts with `pattern` does not depend on what follows it. -/
theorem stripFront?_append_of_length_le (h : pattern.length ≤ text.length) (rest : List Char) :
    stripFront? pattern (text ++ rest) = (stripFront? pattern text).map (· ++ rest) := by
  induction pattern generalizing text with
  | nil => rfl
  | cons p pattern ih =>
    cases text with
    | nil => simp at h
    | cons c text =>
      simp only [List.cons_append, stripFront?]
      split
      · exact ih (by simpa using h)
      · rfl

theorem breakOn_of_stripFront? {c : Char} {cs : List Char}
    (h : stripFront? pattern (c :: cs) = some after) :
    breakOn pattern (c :: cs) = some ([], after) := by
  rw [breakOn, breakOnFrom, h]
  rfl

/-- The first occurrence of a pattern stays the first, whatever follows it. -/
theorem breakOn_before_append (hpattern : pattern ≠ [])
    (h : breakOn pattern text = some (before, after)) (rest : List Char) :
    breakOn pattern (before ++ pattern ++ rest) = some (before, rest) := by
  obtain ⟨p, more, rfl⟩ := List.exists_cons_of_ne_nil hpattern
  induction text generalizing before with
  | nil => cases h
  | cons c cs ih =>
    cases hstrip : stripFront? (p :: more) (c :: cs) with
    | some behind =>
      rw [breakOn_of_stripFront? hstrip] at h
      obtain ⟨rfl, -⟩ := Prod.mk.inj (Option.some.inj h)
      exact breakOn_front more rest
    | none =>
      have htext := eq_append_of_breakOn h
      rw [breakOn_cons hstrip] at h
      obtain ⟨⟨front, behind⟩, hbreak, heq⟩ := Option.map_eq_some_iff.mp h
      obtain ⟨rfl, rfl⟩ := Prod.mk.inj heq
      have hnone : stripFront? (p :: more) (c :: (front ++ p :: more ++ rest)) = none := by
        have hlength : (p :: more).length ≤ (c :: front ++ p :: more).length := by
          rw [List.length_append]
          omega
        rw [htext, stripFront?_append_of_length_le hlength] at hstrip
        rw [← List.cons_append, ← List.cons_append, stripFront?_append_of_length_le hlength]
        simpa using hstrip
      rw [List.cons_append, List.cons_append, breakOn_cons hnone, ih hbreak]
      rfl

theorem breakOn_append_of_some (hpattern : pattern ≠ [])
    (h : breakOn pattern text = some (before, after)) (rest : List Char) :
    breakOn pattern (text ++ rest) = some (before, after ++ rest) := by
  rw [eq_append_of_breakOn h, List.append_assoc]
  exact breakOn_before_append hpattern h (after ++ rest)

/-- Behind a text without the pattern, and a character that is not in it, the search starts anew. -/
theorem breakOn_append_cons (hpattern : pattern ≠ []) {a : List Char}
    (ha : breakOn pattern a = none) {c : Char} (hc : c ∉ pattern) (b : List Char) :
    breakOn pattern (a ++ c :: b) =
      (breakOn pattern b).map fun parts => (a ++ c :: parts.1, parts.2) := by
  have hstart : ∀ {x : List Char}, stripFront? pattern x = none →
      stripFront? pattern (x ++ c :: b) = none := by
    intro x hx
    rw [stripFront?_append_cons hc, hx]
    rfl
  induction a with
  | nil =>
    have hnone : stripFront? pattern [] = none := by
      obtain ⟨p, more, rfl⟩ := List.exists_cons_of_ne_nil hpattern
      rfl
    exact breakOn_cons (hstart hnone)
  | cons x a ih =>
    cases hstrip : stripFront? pattern (x :: a) with
    | some behind =>
      rw [breakOn_of_stripFront? hstrip] at ha
      cases ha
    | none =>
      rw [breakOn_cons hstrip, Option.map_eq_none_iff] at ha
      have hnone : stripFront? pattern (x :: (a ++ c :: b)) = none := hstart hstrip
      rw [List.cons_append, breakOn_cons hnone, ih ha, Option.map_map]
      rfl

end Text

namespace Term
open Text

theorem readOpening_ne_nil : readOpening ≠ [] := by decide

namespace Reads

/-! ### Owners -/

section Owner

variable (cs : List Char)

theorem isAlphanum_of_mem_owner {c : Char} (h : c ∈ (splitOwner cs).2) : c.isAlphanum = true :=
  List.mem_takeWhile_imp (List.mem_reverse.mp h)

/-- The owner is as long as it can be. -/
theorem getLast?_gap : (splitOwner cs).1.getLast?.any Char.isAlphanum = false := by
  rw [splitOwner, List.getLast?_reverse]
  have hhead := List.head?_dropWhile_not Char.isAlphanum cs.reverse
  cases hfirst : (cs.reverse.dropWhile Char.isAlphanum).head? with
  | none => rfl
  | some c =>
    rw [hfirst] at hhead
    exact hhead

theorem splitOwner_append_cons {c : Char} (hc : c.isAlphanum = false) (a : List Char) :
    splitOwner (a ++ c :: cs) = (a ++ c :: (splitOwner cs).1, (splitOwner cs).2) := by
  have htext : a ++ c :: cs = (a ++ c :: (splitOwner cs).1) ++ (splitOwner cs).2 := by
    rw [List.append_assoc, List.cons_append, splitOwner_append]
  rw [htext]
  refine splitOwner_append_owner ?_ fun _ => isAlphanum_of_mem_owner cs
  have hlast := getLast?_gap cs
  rw [List.getLast?_append, List.getLast?_cons]
  cases hgap : (splitOwner cs).1.getLast? with
  | none => simpa using hc
  | some d =>
    rw [hgap] at hlast
    simpa using hlast

end Owner

/-! ### A text behind another -/

/-- The reads of two texts, where the second stands behind the first. -/
def append (s t : Reads) : Reads :=
  ⟨s.reads ++ (t.prepend s.tail).reads, (t.prepend s.tail).tail⟩

theorem prepend_prepend (cs cs' : List Char) (s : Reads) :
    (s.prepend cs').prepend cs = s.prepend (cs ++ cs') := by
  obtain ⟨reads, tail⟩ := s
  cases reads <;> simp [prepend]

theorem prepend_append (cs : List Char) (s t : Reads) :
    (s.prepend cs).append t = (s.append t).prepend cs := by
  obtain ⟨reads, tail⟩ := s
  cases reads with
  | nil => exact (prepend_prepend cs tail t).symm
  | cons => rfl

/-- Every square bracket that the text opens is closed in it. -/
def Complete (cs : List Char) : Prop :=
  ∀ before after, cs = before ++ '[' :: after → (group? ']' after).isSome

theorem Complete.of_append {a b : List Char} (h : Complete (a ++ b)) : Complete b := by
  rintro before after rfl
  exact h (a ++ before) after (List.append_assoc ..).symm

/-- The induction is that of the nesting: a square bracket is the front of a group, inside of it or
behind it. -/
theorem complete_of_nested {p : Char → Prop} {cs : List Char} (h : Nested p cs) : Complete cs := by
  induction h with
  | nil =>
    intro before after htext
    simp at htext
  | plain hopen _ _ _ ih =>
    intro before after htext
    cases before with
    | nil =>
      obtain ⟨rfl, -⟩ := List.cons.inj htext
      cases hopen
    | cons x before => exact ih before after (List.cons.inj htext).2
  | @group p c d inside cs hopen hinside _ ihInside ihRest =>
    have hd : d ≠ '[' := by
      rintro rfl
      cases (isCloser_of_closer? hopen).2
    intro before after htext
    cases before with
    | nil =>
      obtain ⟨rfl, hafter⟩ := List.cons.inj htext
      obtain rfl := Option.some.inj hopen
      have hafter : inside ++ ']' :: cs = after := hafter
      rw [← hafter, hinside.group?_append ']' rfl]
      rfl
    | cons x before =>
      have hrest : inside ++ d :: cs = before ++ '[' :: after := (List.cons.inj htext).2
      obtain ⟨more, -, hmore⟩ | ⟨more, hmore, hafter⟩ := List.append_eq_append_iff.mp hrest
      · cases more with
        | nil => exact absurd (List.cons.inj hmore).1 hd
        | cons y more => exact ihRest more after (List.cons.inj hmore).2
      · cases more with
        | nil => exact absurd (List.cons.inj hafter).1.symm hd
        | cons y more =>
          obtain ⟨rfl, rfl⟩ := List.cons.inj hafter
          obtain ⟨parts, hparts⟩ := Option.isSome_iff_exists.mp (ihInside before more hmore)
          have hgroup := group?_append_of_some rfl hparts (d :: cs)
          exact Option.isSome_iff_exists.mpr ⟨_, hgroup⟩

section Append

variable {a : List Char} {c : Char} (hc : c.isAlphanum = false) (hopening : c ∉ readOpening)
  (b : List Char)
include hc hopening

theorem scan_append_cons_of_none (ha : breakOn readOpening a = none) :
    scan (a ++ c :: b) = (scan b).prepend (a ++ [c]) := by
  have hbreak := breakOn_append_cons readOpening_ne_nil ha hopening b
  cases hb : breakOn readOpening b with
  | none =>
    rw [hb] at hbreak
    rw [scan_of_none hb, scan_of_none hbreak]
    simp [prepend]
  | some parts =>
    obtain ⟨before, after⟩ := parts
    rw [hb] at hbreak
    have hsplit := splitOwner_append_cons before hc a
    have hparts : splitOwner before = ((splitOwner before).1, (splitOwner before).2) := rfl
    by_cases hskip : (splitOwner before).2.isEmpty = true ∨ group? ']' after = none
    · rw [scan_of_skip hb hskip, scan_of_skip hbreak (by rwa [hsplit]), prepend_prepend]
      simp
    · obtain ⟨howner, hgroup⟩ := not_or.mp hskip
      obtain ⟨⟨inside, rest⟩, hgroup⟩ := Option.ne_none_iff_exists'.mp hgroup
      have howner : (splitOwner before).2.isEmpty = false := Bool.eq_false_iff.mpr howner
      rw [scan_of_read hb hparts howner hgroup, scan_of_read hbreak hsplit howner hgroup]
      simp [prepend]

/-- A text that closes its brackets is scanned by itself. -/
theorem scan_append_cons (ha : Complete a) :
    scan (a ++ c :: b) = (scan a).append ((scan b).prepend [c]) := by
  induction a using scan.induct with
  | case1 a hnone =>
    rw [scan_append_cons_of_none hc hopening b hnone, scan_of_none hnone]
    exact (prepend_prepend a [c] (scan b)).symm
  | case2 a before after hbreak _ gap owner hsplit inside rest hgroup howner _ ihRest =>
    have htext := eq_append_of_breakOn hbreak
    have hrest : Complete rest := by
      rw [htext, eq_append_of_group? hgroup, ← List.append_assoc, ← List.singleton_append,
        ← List.append_assoc] at ha
      exact ha.of_append
    have hbreak' := breakOn_append_of_some readOpening_ne_nil hbreak (c :: b)
    rw [scan_of_read hbreak hsplit howner hgroup,
      scan_of_read hbreak' hsplit howner (group?_append_of_some rfl hgroup (c :: b)),
      ihRest hrest]
    rfl
  | case3 a before after hbreak _ gap owner hsplit hnot ih =>
    have htext := eq_append_of_breakOn hbreak
    have hopens : a = (before ++ "_calldata".toList) ++ '[' :: after := by
      have hopening : readOpening = "_calldata".toList ++ ['['] := rfl
      rw [htext, hopening]
      simp only [List.append_assoc, List.cons_append, List.nil_append]
    -- The bracket is closed in `a`, so that the opening was passed over for want of an owner.
    have howner : (splitOwner before).2.isEmpty = true := by
      refine (skip_of_not_read hsplit hnot).resolve_right fun hnone => ?_
      have hsome := ha _ _ hopens
      rw [hnone] at hsome
      cases hsome
    have hafter : Complete after := by
      rw [htext] at ha
      exact ha.of_append
    have hbreak' := breakOn_append_of_some readOpening_ne_nil hbreak (c :: b)
    rw [scan_of_skip hbreak (.inl howner), scan_of_skip hbreak' (.inl howner), ih hafter,
      prepend_append]

end Append

/-! ### Runs -/

/-- The first read is a run of its own, or it is joined with the run behind it. -/
theorem runs_cons_cases (gap : List Char) (r : Read) (rest : List (List Char × Read)) :
    (runs ((gap, r) :: rest) = ⟨gap, r, none⟩ :: runs rest ∧
      ∀ next ∈ (runs rest).head?, next.gap = [','] → r.precedes next.first = false) ∨
    ∃ next more, runs rest = next :: more ∧ next.gap = [','] ∧ r.precedes next.first = true ∧
      runs ((gap, r) :: rest) = ⟨gap, r, some (next.last.getD next.first)⟩ :: more := by
  rw [runs]
  cases runs rest with
  | nil => exact .inl ⟨rfl, by simp⟩
  | cons next more =>
    by_cases hjoin : (next.gap = [','] && r.precedes next.first) = true
    · obtain ⟨hgap, hprecedes⟩ := Bool.and_eq_true_iff.mp hjoin
      exact .inr ⟨next, more, rfl, of_decide_eq_true hgap, hprecedes, if_pos hjoin⟩
    · refine .inl ⟨if_neg hjoin, ?_⟩
      rintro _ ⟨⟩ hgap
      simpa [hgap] using hjoin

/-- How the reads behind the first are joined does not depend on what stands before it. -/
theorem exists_runs_cons (r : Read) (rest : List (List Char × Read)) :
    ∃ last more, ∀ gap, runs ((gap, r) :: rest) = ⟨gap, r, last⟩ :: more := by
  simp only [runs]
  cases runs rest with
  | nil => exact ⟨none, [], fun _ => rfl⟩
  | cons next more =>
    by_cases hjoin : (next.gap = [','] && r.precedes next.first) = true
    · exact ⟨_, more, fun _ => if_pos hjoin⟩
    · exact ⟨none, next :: more, fun _ => if_neg hjoin⟩

theorem render_prepend (cs : List Char) (s : Reads) : (s.prepend cs).render = cs ++ s.render := by
  obtain ⟨reads, tail⟩ := s
  cases reads with
  | nil => rfl
  | cons x rest =>
    obtain ⟨gap, r⟩ := x
    obtain ⟨last, more, hruns⟩ := exists_runs_cons r rest
    simp [prepend, render, hruns, Run.render]

/-- Nothing is joined across a gap that is not a comma. -/
theorem runs_append (reads : List (List Char × Read)) {behind : List (List Char × Read)}
    (hgap : ∀ x ∈ behind.head?, x.1 ≠ [',']) :
    runs (reads ++ behind) = runs reads ++ runs behind := by
  induction reads with
  | nil => rfl
  | cons x reads ih =>
    obtain ⟨gap, r⟩ := x
    rw [List.cons_append, runs, runs, ih]
    cases runs reads with
    | cons next more =>
      dsimp only [List.cons_append]
      split <;> rfl
    | nil =>
      cases behind with
      | nil => rfl
      | cons y behind =>
        obtain ⟨last, more, hruns⟩ := exists_runs_cons y.2 behind
        have hy : runs (y :: behind) = ⟨y.1, y.2, last⟩ :: more := hruns y.1
        have hne : y.1 ≠ [','] := hgap y (by simp)
        rw [hy]
        simp [hne]

theorem render_append {s t : Reads} (hgap : ∀ x ∈ (t.prepend s.tail).reads.head?, x.1 ≠ [',']) :
    (s.append t).render = s.render ++ t.render := by
  have htail := render_prepend s.tail t
  rw [render] at htail
  rw [render, append, runs_append _ hgap, List.flatMap_append, List.append_assoc, htail,
    ← List.append_assoc]
  rfl

theorem ne_comma_of_prepend {cs : List Char} {c : Char} (hc : c ∈ cs) (hcomma : c ≠ ',')
    (s : Reads) : ∀ x ∈ (s.prepend cs).reads.head?, x.1 ≠ [','] := by
  obtain ⟨reads, tail⟩ := s
  intro x hx hgap
  cases reads with
  | nil => cases hx
  | cons y reads =>
    obtain rfl : (cs ++ y.1, y.2) = x := Option.some.inj hx
    have hgap : cs ++ y.1 = [','] := hgap
    have hmem : c ∈ cs ++ y.1 := List.mem_append_left _ hc
    rw [hgap] at hmem
    exact hcomma (List.mem_singleton.mp hmem)

end Reads

/-- A character that no read holds in its owner or opening, and that joins no reads. -/
structure Separates (c : Char) : Prop where
  isAlphanum : c.isAlphanum = false
  not_mem : c ∉ readOpening
  ne_comma : c ≠ ','

theorem separates_plus : Separates '+' := ⟨rfl, by decide, by decide⟩

theorem separates_colon : Separates ':' := ⟨rfl, by decide, by decide⟩

/-- Reads are merged on both sides of a character by themselves. -/
theorem mergeReads_append_cons {p : Char → Prop} {a : List Char} (ha : Nested p a) {c : Char}
    (hc : Separates c) (b : List Char) :
    mergeReads (a ++ c :: b) = mergeReads a ++ c :: mergeReads b := by
  have hgap := Reads.ne_comma_of_prepend (by simp : c ∈ (Reads.scan a).tail ++ [c]) hc.ne_comma
    (Reads.scan b)
  rw [← Reads.prepend_prepend] at hgap
  rw [mergeReads, Reads.scan_append_cons hc.isAlphanum hc.not_mem b (Reads.complete_of_nested ha),
    Reads.render_append hgap, Reads.render_prepend]
  rfl

/-- Where nothing is left to merge, nothing is left on either side of a character. -/
theorem settled_of_append_cons {p : Char → Prop} {a b : List Char} (ha : Nested p a) {c : Char}
    (hc : Separates c) (h : mergeReads (a ++ c :: b) = a ++ c :: b) :
    mergeReads a = a ∧ mergeReads b = b := by
  rw [mergeReads_append_cons ha hc] at h
  have hlength := congrArg byteLength h
  simp only [byteLength_append, byteLength_cons] at hlength
  have hle := (simplifies_mergeReads a).byteLength_le
  have hle' := (simplifies_mergeReads b).byteLength_le
  -- Merging never makes a text longer, so that neither side can have become shorter.
  exact ⟨(simplifies_mergeReads a).shorter.resolve_right (by omega),
    (simplifies_mergeReads b).shorter.resolve_right (by omega)⟩

end Term
end OperandFlow
