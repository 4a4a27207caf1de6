import OperandFlow.Text.Search

/-! Where one text is found inside another: not where one of its characters is missing, and at the
first place where it stands. -/
namespace OperandFlow.Text

/-- A text without one of the characters of `pattern` does not hold it. -/
theorem breakOn_eq_none {pattern text : List Char} {c : Char} (hc : c ∈ pattern) (h : c ∉ text) :
    breakOn pattern text = none := by
  cases hbreak : breakOn pattern text with
  | none => rfl
  | some parts =>
    rw [eq_append_of_breakOn hbreak] at h
    simp [hc] at h

theorem stripFront?_append (front text : List Char) :
    stripFront? front (front ++ text) = some text := by
  induction front with
  | nil => rfl
  | cons p front ih => simpa [stripFront?] using ih

theorem breakOnFrom_append {p : Char} {pattern before : List Char} (h : p ∉ before)
    (seen after : List Char) :
    breakOnFrom (p :: pattern) seen (before ++ p :: pattern ++ after) =
      some (seen.reverse ++ before, after) := by
  induction before generalizing seen with
  | nil =>
    have hfront := stripFront?_append (p :: pattern) after
    simp only [List.cons_append] at hfront
    simp [breakOnFrom, hfront]
  | cons c before ih =>
    have hne : p ≠ c := fun heq => h (by simp [heq])
    have hbefore := ih (fun hp => h (List.mem_cons_of_mem c hp)) (c :: seen)
    simpa [breakOnFrom, stripFront?, hne] using hbefore

/-- The first occurrence is found if its first character does not stand before it. -/
theorem breakOn_append {p : Char} {pattern before : List Char} (h : p ∉ before)
    (after : List Char) :
    breakOn (p :: pattern) (before ++ p :: pattern ++ after) = some (before, after) :=
  breakOnFrom_append h [] after

/-- A text that goes on with a character which is not in `pattern` starts with it as it did. -/
theorem stripFront?_append_cons {pattern : List Char} {c : Char} (hc : c ∉ pattern)
    (a b : List Char) :
    stripFront? pattern (a ++ c :: b) = (stripFront? pattern a).map (· ++ c :: b) := by
  induction pattern generalizing a with
  | nil => rfl
  | cons p pattern ih =>
    have hp := List.ne_of_not_mem_cons hc
    have hpattern := List.not_mem_of_not_mem_cons hc
    cases a with
    | nil => simp [stripFront?, hp.symm]
    | cons x a =>
      simp only [List.cons_append, stripFront?]
      split
      · exact ih hpattern a
      · rfl

theorem breakOnFrom_eq_map (pattern seen text : List Char) :
    breakOnFrom pattern seen text =
      (breakOn pattern text).map fun parts => (seen.reverse ++ parts.1, parts.2) := by
  unfold breakOn
  induction text generalizing seen with
  | nil => simp only [breakOnFrom]; split <;> simp
  | cons c cs ih =>
    simp only [breakOnFrom]
    split
    · simp
    · rw [ih (c :: seen), ih [c], Option.map_map]
      congr 1
      funext parts
      simp

theorem breakOn_cons {pattern cs : List Char} {c : Char}
    (h : stripFront? pattern (c :: cs) = none) :
    breakOn pattern (c :: cs) = (breakOn pattern cs).map fun parts => (c :: parts.1, parts.2) := by
  have hnext : breakOn pattern (c :: cs) = breakOnFrom pattern [c] cs := by
    rw [breakOn, breakOnFrom, h]
  rw [hnext, breakOnFrom_eq_map]
  rfl

theorem breakOn_front {p : Char} (pattern after : List Char) :
    breakOn (p :: pattern) (p :: pattern ++ after) = some ([], after) := by
  have hp : p ∉ ([] : List Char) := List.not_mem_nil
  exact breakOn_append hp after

end OperandFlow.Text
