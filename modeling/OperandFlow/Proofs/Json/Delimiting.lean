import OperandFlow.Proofs.Json.Scan

/-! Texts that show where they end, so that rows of them can be told apart. -/
namespace OperandFlow.Json
open Text

/-- What is printed shows where it ends: whatever follows it, it can be told from the text. -/
def Delimits {α : Type} (print : α → List Char) : Prop :=
  ∀ ⦃a b : α⦄ ⦃x y : List Char⦄, print a ++ x = print b ++ y → a = b ∧ x = y

namespace Delimits

variable {α β : Type} {p : α → List Char} {q : β → List Char}

theorem cons (h : Delimits p) (c : Char) : Delimits fun a => c :: p a := by
  intro a b x y heq
  exact h (List.cons.inj heq).2

theorem append (hp : Delimits p) (hq : Delimits q) :
    Delimits fun r : α × β => p r.1 ++ q r.2 := by
  intro r s x y heq
  rw [List.append_assoc, List.append_assoc] at heq
  obtain ⟨hfst, heq⟩ := hp heq
  obtain ⟨hsnd, heq⟩ := hq heq
  exact ⟨Prod.ext hfst hsnd, heq⟩

theorem comap (h : Delimits p) {f : β → α} (hf : ∀ {a b}, f a = f b → a = b) :
    Delimits fun b => p (f b) := by
  intro a b x y heq
  obtain ⟨hab, heq⟩ := h heq
  exact ⟨hf hab, heq⟩

/-- A row ends with a character that nothing in it starts with. -/
theorem row (h : Delimits p) {close : Char} (hclose : ∀ a x y, p a ++ x ≠ close :: y) :
    Delimits fun as : List α => as.flatMap p ++ [close] := by
  intro as bs x y heq
  simp only [List.append_assoc, List.singleton_append] at heq
  induction as generalizing bs with
  | nil =>
    cases bs with
    | nil => exact ⟨rfl, (List.cons.inj heq).2⟩
    | cons b bs =>
      rw [List.flatMap_cons, List.append_assoc] at heq
      exact absurd heq.symm (hclose _ _ _)
  | cons a as ih =>
    rw [List.flatMap_cons, List.append_assoc] at heq
    cases bs with
    | nil => exact absurd heq (hclose _ _ _)
    | cons b bs =>
      rw [List.flatMap_cons, List.append_assoc] at heq
      obtain ⟨rfl, hrest⟩ := h heq
      obtain ⟨rfl, hend⟩ := ih hrest
      exact ⟨rfl, hend⟩

end Delimits

/-- A row with commas in it. -/
def commas {α : Type} (print : α → List Char) : List α → List Char
  | [] => []
  | a :: as => print a ++ as.flatMap fun b => ',' :: print b

theorem Delimits.commas {α : Type} {p : α → List Char} (h : Delimits p) {close : Char}
    (hcomma : close ≠ ',') (hclose : ∀ a x y, p a ++ x ≠ close :: y) :
    Delimits fun as : List α => Json.commas p as ++ [close] := by
  have hrest : Delimits fun as : List α => as.flatMap (fun b => ',' :: p b) ++ [close] :=
    (h.cons ',').row fun a x y heq => hcomma (List.cons.inj heq).1.symm
  intro as bs x y heq
  cases as with
  | nil =>
    cases bs with
    | nil => exact ⟨rfl, (List.cons.inj heq).2⟩
    | cons b bs =>
      simp only [Json.commas, List.append_assoc] at heq
      exact absurd heq.symm (hclose _ _ _)
  | cons a as =>
    cases bs with
    | nil =>
      simp only [Json.commas, List.append_assoc] at heq
      exact absurd heq (hclose _ _ _)
    | cons b bs =>
      simp only [Json.commas, List.append_assoc] at heq
      obtain ⟨rfl, htail⟩ := h heq
      obtain ⟨rfl, hend⟩ := hrest (by simpa using htail)
      exact ⟨rfl, hend⟩

theorem itemChars_map {α : Type} (f : α → Json) (as : List α) :
    itemChars (as.map f) = commas (fun a => (f a).chars) as := by
  induction as with
  | nil => rfl
  | cons a as ih =>
    cases as with
    | nil => simp [itemChars, commas]
    | cons b as =>
      rw [List.map_cons, List.map_cons, itemChars, ← List.map_cons, ih]
      · simp [commas]
      · simp

theorem memberChars_map {α : Type} (f : α → Key × Json) (as : List α) :
    memberChars (as.map f) =
      commas (fun a => quote (f a).1.text ++ ':' :: (f a).2.chars) as := by
  induction as with
  | nil => rfl
  | cons a as ih =>
    cases as with
    | nil => simp [memberChars, commas]
    | cons b as =>
      rw [List.map_cons, List.map_cons, memberChars, ← List.map_cons, ih]
      · simp [commas]
      · simp

/-- How long an escape at the start of the text is. -/
def escapeLength : List Char → Nat
  | '\\' :: 'u' :: _ => 6
  | '\\' :: _ => 2
  | _ => 1

theorem length_escape (c : Char) (x : List Char) :
    (escape c).length = escapeLength (escape c ++ x) := by
  unfold escape
  split_ifs with _ hback
  case neg =>
    have hother : escapeLength (c :: x) = 1 := by
      unfold escapeLength
      split
      · next heq => exact absurd (List.cons.inj heq).1 hback
      · next heq => exact absurd (List.cons.inj heq).1 hback
      · rfl
    exact hother.symm
  all_goals rfl

theorem escape_ne_quote (c : Char) (x y : List Char) : escape c ++ x ≠ '"' :: y := by
  unfold escape
  split_ifs with hquote
  case neg =>
    intro heq
    exact hquote (List.cons.inj heq).1
  all_goals simp

theorem escape_injective {c d : Char} (h : escape c = escape d) : c = d := by
  -- The scanner sees the same piece.
  have hpiece : piece c = piece d := by
    have hscan := scan_escape c [] []
    rw [h, scan_escape] at hscan
    simpa using hscan.symm
  have hc := assembleFrom?_pieces [c] []
  have hd := assembleFrom?_pieces [d] []
  rw [List.map_singleton] at hc hd
  rw [hpiece, hd] at hc
  simpa using hc.symm

theorem delimits_escape : Delimits escape := by
  intro c d x y heq
  have hlen : (escape c).length = (escape d).length := by
    rw [length_escape c x, heq, ← length_escape]
  obtain ⟨hsame, heq⟩ := List.append_inj heq hlen
  exact ⟨escape_injective hsame, heq⟩

theorem delimits_quote : Delimits quote :=
  ((delimits_escape.row escape_ne_quote).cons '"').comap String.toList_inj.mp

theorem decimal_injective {m n : Nat} (h : Text.decimal m = Text.decimal n) : m = n := by
  have hm := digits?_decimal m
  rw [h, digits?_decimal] at hm
  exact (Option.some.inj hm).symm

/-- A number ends where the digits end. -/
theorem delimits_decimal {c : Char} (hc : c.isDigit = false) :
    Delimits fun n => Text.decimal n ++ [c] := by
  have hdigits : ∀ n x, ((Text.decimal n ++ [c]) ++ x).takeWhile Char.isDigit =
      Text.decimal n := by
    intro n x
    rw [List.append_assoc, List.takeWhile_append_of_pos fun d hd => isDigit_of_mem_decimal hd]
    simp [hc]
  intro m n x y heq
  have hmn : m = n := decimal_injective (by rw [← hdigits m x, heq, hdigits])
  subst hmn
  exact ⟨rfl, List.append_cancel_left heq⟩

end OperandFlow.Json
