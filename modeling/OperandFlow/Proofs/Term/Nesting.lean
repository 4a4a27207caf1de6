import OperandFlow.Proofs.Term.Replacing

/-! Texts whose brackets match: a group around such a text ends where it ends, and it can be one of
the arguments of a call. -/
namespace OperandFlow.Term
open Text

/-- A text whose brackets match, where `p` holds of every character outside them. -/
inductive Nested : (Char → Prop) → List Char → Prop where
  | nil {p : Char → Prop} : Nested p []
  | plain {p : Char → Prop} {c : Char} {cs : List Char} :
    closer? c = none → isCloser c = false → p c → Nested p cs → Nested p (c :: cs)
  | group {p : Char → Prop} {c d : Char} {inside cs : List Char} :
    closer? c = some d → Nested (fun _ => True) inside → Nested p cs →
      Nested p (c :: inside ++ d :: cs)

/-- The part of a call between two commas. -/
abbrev IsArg : List Char → Prop := Nested (· ≠ ',')

theorem isCloser_of_closer? {c d : Char} (h : closer? c = some d) :
    closer? d = none ∧ isCloser d = true := by
  unfold closer? at h
  split at h <;> cases h <;> exact ⟨rfl, rfl⟩

namespace Nested

variable {p : Char → Prop} {cs : List Char}

theorem append {cs' : List Char} (h : Nested p cs) (h' : Nested p cs') : Nested p (cs ++ cs') := by
  induction h with
  | nil => exact h'
  | plain hopen hclose hp _ ih => exact .plain hopen hclose hp (ih h')
  | group hopen hinside _ _ ih => simpa using Nested.group hopen hinside (ih h')

theorem of_all [DecidablePred p]
    (h : (cs.all fun c => (closer? c).isNone && !isCloser c && p c) = true) : Nested p cs := by
  induction cs with
  | nil => exact .nil
  | cons c cs ih =>
    simp only [List.all_cons, Bool.and_eq_true, Option.isNone_iff_eq_none, Bool.not_eq_true',
      decide_eq_true_eq] at h
    obtain ⟨⟨⟨hopen, hclose⟩, hp⟩, hrest⟩ := h
    exact .plain hopen hclose hp (ih (by simpa using hrest))

theorem mono {q : Char → Prop} (h : Nested p cs) (hpq : ∀ c, p c → q c) : Nested q cs := by
  induction h with
  | nil => exact .nil
  | plain hopen hclose hp _ ih => exact .plain hopen hclose (hpq _ hp) (ih hpq)
  | group hopen hinside _ _ ih => exact .group hopen hinside (ih hpq)

theorem withArgs {callee : Callee} {inside : List Char} (hname : Nested p callee.chars)
    (h : Nested (fun _ => True) inside) : Nested p (callee.withArgs inside) := by
  have hgroup : Nested p ('(' :: inside ++ ')' :: []) := .group rfl h .nil
  simpa [Callee.withArgs, Callee.opening] using hname.append hgroup

/-- Reading on behind a nested text leaves the awaited brackets as they were. -/
theorem closeFrom_append (h : Nested p cs) {awaited : List Char} (hawaited : awaited ≠ [])
    (seen rest : List Char) :
    closeFrom awaited seen (cs ++ rest) = closeFrom awaited (cs.reverse ++ seen) rest := by
  induction h generalizing awaited seen rest with
  | nil => rfl
  | plain hopen hclose _ _ ih =>
    simp [closeFrom, hopen, hclose, ih hawaited]
  | @group p c d inside cs hopen _ _ ihInside ihRest =>
    obtain ⟨hclosing, hcloser⟩ := isCloser_of_closer? hopen
    obtain ⟨e, outer, rfl⟩ := List.exists_cons_of_ne_nil hawaited
    have hin := ihInside (List.cons_ne_nil d (e :: outer)) (c :: seen) (d :: cs ++ rest)
    simp only [List.cons_append, List.append_assoc] at hin ⊢
    simp [closeFrom, hopen, hin, hclosing, hcloser, ihRest]

theorem group?_append (h : Nested p cs) (closing : Char) (hclosing : isCloser closing = true)
    (rest : List Char) : group? closing (cs ++ closing :: rest) = some (cs, rest) := by
  have hopen : closer? closing = none := by
    simp only [isCloser, Bool.or_eq_true, decide_eq_true_eq] at hclosing
    rcases hclosing with rfl | rfl <;> rfl
  rw [group?, h.closeFrom_append (List.cons_ne_nil closing [])]
  simp [closeFrom, hopen, hclosing]

/-- Commas inside of brackets do not split, and a part has no other ones. -/
theorem splitFrom_append (h : Nested p cs) {depth : Int} (hdepth : 0 ≤ depth)
    (hcomma : depth = 0 → ¬ p ',') (part rest : List Char) :
    splitFrom depth part (cs ++ rest) = splitFrom depth (cs.reverse ++ part) rest := by
  induction h generalizing depth part rest with
  | nil => rfl
  | @plain p c cs hopen hclose hp _ ih =>
    have hsplit : ¬ (c = ',' ∧ depth = 0) := by
      rintro ⟨rfl, hzero⟩
      exact hcomma hzero hp
    have hnesting : nesting c = 0 := by simp [nesting, hopen, hclose]
    rw [List.cons_append, splitFrom, if_neg hsplit, hnesting, Int.add_zero, ih hdepth hcomma]
    simp
  | @group p c d inside cs hopen _ _ ihInside ihRest =>
    obtain ⟨hclosing, hcloser⟩ := isCloser_of_closer? hopen
    have hc : c ≠ ',' := by
      rintro rfl
      cases hopen
    have hd : d ≠ ',' := by
      rintro rfl
      cases hcloser
    have hup : nesting c = 1 := by simp [nesting, hopen]
    have hdown : nesting d = -1 := by simp [nesting, hclosing, hcloser]
    have hin := ihInside (Int.add_nonneg hdepth (by decide : (0 : Int) ≤ 1)) (by omega) (c :: part)
      (d :: cs ++ rest)
    simp only [List.cons_append, List.append_assoc] at hin ⊢
    rw [splitFrom, if_neg (by simp [hc]), hup, hin, splitFrom, if_neg (by simp [hd]), hdown,
      Int.add_neg_cancel_right, ihRest hdepth hcomma]
    simp

end Nested

theorem IsArg.splitArgs {cs : List Char} (h : IsArg cs) : splitArgs cs = [cs] := by
  have hsplit := h.splitFrom_append (Int.le_refl 0) (by simp) [] []
  simpa [Term.splitArgs, splitFrom] using hsplit

theorem IsArg.splitArgs_cons {cs : List Char} (h : IsArg cs) (rest : List Char) :
    Term.splitArgs (cs ++ ',' :: rest) = cs :: Term.splitArgs rest := by
  have hsplit := h.splitFrom_append (Int.le_refl 0) (by simp) [] (',' :: rest)
  simpa [Term.splitArgs, splitFrom] using hsplit

section Calls

variable {callee : Callee} {replace : List (List Char) → Option (List Char)}

/-- Only a text with all characters of the name can hold a call. -/
theorem replaceFrom_of_absent {c : Char} {text : List Char} (hc : c ∈ callee.chars) (h : c ∉ text)
    (last : Option Char) : replaceFrom callee replace last text = ⟨text, []⟩ := by
  have hnone : breakOn callee.opening text = none :=
    breakOn_eq_none (by simp [Callee.opening, hc]) h
  exact replaceFrom_of_none hnone

theorem mapCalls_of_absent {c : Char} {text : List Char} (hc : c ∈ callee.chars) (h : c ∉ text) :
    mapCalls callee replace text = text := by
  rw [mapCalls, replaceFrom_of_absent hc h]

/-- The first call of a text, whose name starts with a character that does not stand before it. -/
theorem text_replaceFrom_call {p : Char → Prop} {first : Char} {before inside : List Char}
    {last : Option Char} (hfirst : callee.chars.head? = some first) (hbefore : first ∉ before)
    (hlast : (before.getLast?.or last).any isNameChar = false) (hinside : Nested p inside)
    (rest : List Char) :
    (replaceFrom callee replace last (before ++ callee.withArgs inside ++ rest)).text =
      before ++ (replace (splitArgs (mapCalls callee replace inside))).getD
        (callee.withArgs (mapCalls callee replace inside)) ++
      (replaceFrom callee replace (some ')') rest).text := by
  obtain ⟨more, hchars⟩ := List.head?_eq_some_iff.mp hfirst
  have hopening : callee.opening = first :: (more ++ ['(']) := by simp [Callee.opening, hchars]
  have htext : before ++ callee.withArgs inside ++ rest =
      before ++ callee.opening ++ (inside ++ ')' :: rest) := by simp [Callee.withArgs]
  have hbreak : breakOn callee.opening (before ++ callee.withArgs inside ++ rest) =
      some (before, inside ++ ')' :: rest) := by
    rw [htext, hopening]
    exact breakOn_append hbefore _
  have hgroup := hinside.group?_append ')' rfl rest
  rw [replaceFrom_of_call hbreak hlast hgroup]
  simp [replacedCall, mapCalls]

end Calls

end OperandFlow.Term
