/-! Finding one text inside another. -/
namespace OperandFlow.Text

/-- Length in UTF-8 bytes. -/
def byteLength (cs : List Char) : Nat :=
  cs.foldr (fun c n => c.utf8Size + n) 0

/-- What follows byte `offset`, if a character starts or the text ends there. -/
def suffixAt? (offset : Nat) : List Char → Option (List Char)
  | [] => if offset = 0 then some [] else none
  | c :: cs =>
    if offset = 0 then some (c :: cs)
    else if c.utf8Size ≤ offset then suffixAt? (offset - c.utf8Size) cs
    else none

/-- What follows `front`, if the text starts with it. -/
def stripFront? : List Char → List Char → Option (List Char)
  | [], text => some text
  | _ :: _, [] => none
  | p :: front, c :: text => if p = c then stripFront? front text else none

/-- What stands before `back`, if the text ends with it. -/
def stripBack? (back text : List Char) : Option (List Char) :=
  (stripFront? back.reverse text.reverse).map List.reverse

/-- Reads on for `pattern` with the text so far in reverse. -/
def breakOnFrom (pattern seen : List Char) : List Char → Option (List Char × List Char)
  | [] => if pattern.isEmpty then some (seen.reverse, []) else none
  | c :: cs =>
    match stripFront? pattern (c :: cs) with
    | some after => some (seen.reverse, after)
    | none => breakOnFrom pattern (c :: seen) cs

/-- The texts before and after the first occurrence of `pattern`. -/
def breakOn (pattern text : List Char) : Option (List Char × List Char) :=
  breakOnFrom pattern [] text

theorem eq_append_of_stripFront? {front text after : List Char}
    (h : stripFront? front text = some after) : text = front ++ after := by
  induction front generalizing text with
  | nil => simpa [stripFront?] using h
  | cons p front ih =>
    cases text with
    | nil => simp [stripFront?] at h
    | cons c text =>
      simp only [stripFront?] at h
      split at h
      · next hp => rw [ih h, hp, List.cons_append]
      · simp at h

theorem eq_append_of_breakOnFrom {pattern seen text before after : List Char}
    (h : breakOnFrom pattern seen text = some (before, after)) :
    seen.reverse ++ text = before ++ pattern ++ after := by
  induction text generalizing seen with
  | nil =>
    simp only [breakOnFrom] at h
    split at h
    · next hp =>
      simp only [Option.some.injEq, Prod.mk.injEq] at h
      simp [← h.1, ← h.2, List.isEmpty_iff.1 hp]
    · simp at h
  | cons c cs ih =>
    simp only [breakOnFrom] at h
    split at h
    · next hp =>
      simp only [Option.some.injEq, Prod.mk.injEq] at h
      rw [← h.1, ← h.2, eq_append_of_stripFront? hp, List.append_assoc]
    · simpa using ih h

/-- The three parts make up the text. -/
theorem eq_append_of_breakOn {pattern text before after : List Char}
    (h : breakOn pattern text = some (before, after)) : text = before ++ pattern ++ after := by
  simpa using eq_append_of_breakOnFrom h

theorem length_of_breakOn {pattern text before after : List Char}
    (h : breakOn pattern text = some (before, after)) :
    text.length = before.length + pattern.length + after.length := by
  simpa [Nat.add_assoc] using congrArg List.length (eq_append_of_breakOn h)

end OperandFlow.Text
