import Mathlib.Data.Nat.Digits.Defs
import OperandFlow.Proofs.Equality

/-! Numbers read from texts. What is read is what the digits spell by their positions, and a text
that is read as a number is a literal, unless a plus sign stands behind its 0x. -/
namespace OperandFlow

namespace Text

/-- What a digit stands for, where the letters count in either case. -/
def digitWeight (c : Char) : Nat :=
  "0123456789abcdef".toList.idxOf c.toLower

/-- The number that digits spell by their positions. -/
def spelled (base : Nat) (digits : List Char) : Nat :=
  Nat.ofDigits base (digits.reverse.map digitWeight)

/-- No digit is behind the small f, so that the characters up to it can be gone through. -/
theorem digitValue?_eq_digitWeight {c : Char} {d : Nat} (h : digitValue? c = some d) :
    d = digitWeight c := by
  have hcode : c.toNat < 103 := by
    unfold digitValue? at h
    split_ifs at h with hdigit hlower hupper
    · exact Nat.lt_of_le_of_lt hdigit.2 (by decide)
    · exact Nat.lt_of_le_of_lt hlower.2 (by decide)
    · exact Nat.lt_of_le_of_lt hupper.2 (by decide)
  have hall : ∀ code < 103, ∀ d ∈ digitValue? (Char.ofNat code),
      d = digitWeight (Char.ofNat code) := by decide
  have hc := hall c.toNat hcode
  rw [Char.ofNat_toNat] at hc
  exact hc d h

theorem digit?_eq_digitWeight {base : Nat} {c : Char} (h : (digit? base c).isSome = true) :
    digit? base c = some (digitWeight c) := by
  obtain ⟨d, hd⟩ := Option.isSome_iff_exists.mp h
  rw [hd, digitValue?_eq_digitWeight (Option.filter_eq_some_iff.mp hd).1]

theorem spelled_cons (base : Nat) (c : Char) (cs : List Char) :
    spelled base (c :: cs) = digitWeight c * base ^ cs.length + spelled base cs := by
  rw [spelled, List.reverse_cons, List.map_append, Nat.ofDigits_append, List.length_map,
    List.length_reverse, Nat.add_comm, Nat.mul_comm]
  simp [spelled]

/-- Digits are read from the front, and each one shifts what was read before it. -/
theorem digitsFrom?_eq_spelled {base : Nat} {cs : List Char}
    (h : ∀ c ∈ cs, (digit? base c).isSome = true) (acc : Nat) :
    digitsFrom? base acc cs = some (acc * base ^ cs.length + spelled base cs) := by
  induction cs generalizing acc with
  | nil => simp [digitsFrom?, spelled]
  | cons c cs ih =>
    rw [digitsFrom?, digit?_eq_digitWeight (h c List.mem_cons_self), Option.bind_eq_bind,
      Option.bind_some, ih fun x hx => h x (List.mem_cons_of_mem c hx), spelled_cons,
      List.length_cons, Nat.pow_succ', Nat.add_mul, Nat.mul_assoc, Nat.add_assoc]

theorem digits?_eq_some_iff {base n : Nat} {cs : List Char} :
    digits? base cs = some n ↔
      cs ≠ [] ∧ (∀ c ∈ cs, (digit? base c).isSome = true) ∧ spelled base cs = n := by
  cases cs with
  | nil => simp [digits?]
  | cons c cs =>
    constructor
    · intro h
      have hdigits := digit?_of_digitsFrom? h
      change digitsFrom? base 0 (c :: cs) = some n at h
      rw [digitsFrom?_eq_spelled hdigits] at h
      exact ⟨List.cons_ne_nil c cs, hdigits, by simpa using h⟩
    · rintro ⟨-, hdigits, rfl⟩
      change digitsFrom? base 0 (c :: cs) = _
      rw [digitsFrom?_eq_spelled hdigits]
      simp

theorem trim_of_not_isBlank {cs : List Char} (h : ∀ c ∈ cs, isBlank c = false) : trim cs = cs := by
  have hkept : ∀ ds : List Char, (∀ c ∈ ds, isBlank c = false) → ds.dropWhile isBlank = ds := by
    intro ds hds
    cases ds with
    | nil => rfl
    | cons d ds => exact List.dropWhile_cons_of_neg (by simp [hds d List.mem_cons_self])
  rw [trim, hkept cs h, hkept cs.reverse (by simpa using h), List.reverse_reverse]

end Text

namespace Term
open Text

/-- The number that a literal denotes. -/
def denoted : List Char → Nat
  | '0' :: 'x' :: hex => spelled 16 hex
  | digits => spelled 10 digits

theorem numeral?_eq_some_iff {base bound n : Nat} {cs : List Char} (h : cs.head? ≠ some '+') :
    numeral? base bound cs = some n ↔ digits? base cs = some n ∧ n < bound := by
  unfold numeral?
  split
  · exact absurd rfl h
  · simp [Option.filter_eq_some_iff]

theorem isLiteral_hex_iff {hex : List Char} : isLiteral ('0' :: 'x' :: hex) = true ↔
    hex ≠ [] ∧ ∀ c ∈ hex, (digit? 16 c).isSome = true := by
  simp [isLiteral, isHexDigit]

/-- The sign that is read behind 0x is no part of a literal. -/
theorem not_isLiteral_signed (hex : List Char) : isLiteral ('0' :: 'x' :: '+' :: hex) = false := by
  simp [isLiteral, isHexDigit, show (digit? 16 '+').isSome = false by decide]

theorem concrete?_hex_iff {hex : List Char} {n : Nat} (h : hex.head? ≠ some '+') :
    concrete? ('0' :: 'x' :: hex) = some n ↔ isLiteral ('0' :: 'x' :: hex) = true ∧
      denoted ('0' :: 'x' :: hex) = n ∧ n < concreteBound := by
  rw [concrete?, numeral?_eq_some_iff h, digits?_eq_some_iff, isLiteral_hex_iff, denoted]
  simp only [and_assoc]

theorem concrete?_signed_iff {hex : List Char} {n : Nat} :
    concrete? ('0' :: 'x' :: '+' :: hex) = some n ↔ isLiteral ('0' :: 'x' :: hex) = true ∧
      denoted ('0' :: 'x' :: hex) = n ∧ n < concreteBound := by
  rw [concrete?, numeral?, Option.filter_eq_some_iff, digits?_eq_some_iff, isLiteral_hex_iff,
    denoted]
  simp only [and_assoc, decide_eq_true_eq]

theorem digit?_of_isLiteral {cs : List Char} (h : ∀ hex, cs ≠ '0' :: 'x' :: hex)
    (hcs : isLiteral cs = true) : cs ≠ [] ∧ ∀ c ∈ cs, (digit? 10 c).isSome = true := by
  rw [isLiteral] at hcs
  · simp only [Bool.and_eq_true, Bool.not_eq_true', List.isEmpty_eq_false_iff,
      List.all_eq_true] at hcs
    exact hcs.imp_right fun hall c hc => by rw [digit?_of_isDigit (hall c hc)]; rfl
  · exact h

theorem concrete?_decimal_iff {cs : List Char} {n : Nat} (h : ∀ hex, cs ≠ '0' :: 'x' :: hex) :
    concrete? cs = some n ↔ isLiteral cs = true ∧ denoted cs = n ∧ n < concreteBound := by
  have hplus : isLiteral cs = true → cs.head? ≠ some '+' := by
    intro hcs hhead
    have hdigit := (digit?_of_isLiteral h hcs).2 '+' (List.mem_of_mem_head? hhead)
    exact absurd hdigit (by decide)
  rw [concrete?]
  · split_ifs with hcs
    · obtain ⟨hne, hdigits⟩ := digit?_of_isLiteral h hcs
      rw [numeral?_eq_some_iff (hplus hcs), digits?_eq_some_iff, denoted]
      · exact ⟨fun hn => ⟨hcs, hn.1.2.2, hn.2⟩, fun hn => ⟨⟨hne, hdigits, hn.2.1⟩, hn.2.2⟩⟩
      · exact h
    · simp [hcs]
  · exact h

/-- A text is read as a number exactly if it is a literal below the bound, or would be one without
a plus sign behind its 0x. -/
theorem concrete?_eq_some_iff {cs : List Char} {n : Nat} :
    concrete? cs = some n ↔
      (isLiteral cs = true ∧ denoted cs = n ∧ n < concreteBound) ∨
      ∃ hex, cs = '0' :: 'x' :: '+' :: hex ∧ isLiteral ('0' :: 'x' :: hex) = true ∧
        denoted ('0' :: 'x' :: hex) = n ∧ n < concreteBound := by
  by_cases hhex : ∃ hex, cs = '0' :: 'x' :: hex
  · obtain ⟨hex, rfl⟩ := hhex
    by_cases hplus : hex.head? = some '+'
    · obtain ⟨hex, rfl⟩ := List.head?_eq_some_iff.mp hplus
      rw [concrete?_signed_iff, not_isLiteral_signed]
      simp
    · rw [concrete?_hex_iff hplus, or_iff_left]
      rintro ⟨tail, htail, -⟩
      simp only [List.cons.injEq, true_and] at htail
      exact hplus (by rw [htail]; rfl)
  · push Not at hhex
    rw [concrete?_decimal_iff hhex, or_iff_left]
    rintro ⟨tail, htail, -⟩
    exact hhex _ htail

/-- A number written out is a literal that denotes it. -/
theorem concrete?_decimal {n : Nat} (h : n < concreteBound) : concrete? (decimal n) = some n := by
  have hdigit : ∀ c ∈ decimal n, c.isDigit = true := fun c hc => isDigit_of_mem_decimal hc
  have hhex : ∀ hex, decimal n ≠ '0' :: 'x' :: hex := by
    intro hex heq
    exact absurd (hdigit 'x' (by simp [heq])) (by decide)
  have hne : decimal n ≠ [] := Nat.toDigits_ne_nil
  have hliteral : isLiteral (decimal n) = true := by
    rw [isLiteral]
    · simpa [hne] using hdigit
    · exact hhex
  rw [concrete?_decimal_iff hhex, denoted]
  · exact ⟨hliteral, (digits?_eq_some_iff.mp (digits?_decimal n)).2.2, h⟩
  · exact hhex

end Term

namespace Value
open Term Text

theorem trimmed_ofConcrete (n : Nat) (size : UInt32) : (ofConcrete n size).trimmed = decimal n := by
  rw [trimmed, ofConcrete, String.toList_ofList]
  exact trim_of_not_isBlank fun c hc => isBlank_of_mem_decimal hc

/-- A value has the number `n` exactly if its text is a literal that denotes `n`, or a hexadecimal
one with a plus sign in front of its digits, and `n` has 128 bits at most. Every such `n` is the
number of the value that is made from it. -/
theorem concrete?_exact (v : Value) (n : Nat) :
    (v.concrete? = some n ↔
      (v.isLiteral = true ∧ denoted v.trimmed = n ∧ n < 2 ^ 128) ∨
      ∃ hex, v.trimmed = '0' :: 'x' :: '+' :: hex ∧ Term.isLiteral ('0' :: 'x' :: hex) = true ∧
        denoted ('0' :: 'x' :: hex) = n ∧ n < 2 ^ 128) ∧
    (n < 2 ^ 128 → ∀ size, (ofConcrete n size).concrete? = some n) := by
  have hbound : concreteBound = 2 ^ 128 := by decide
  rw [← hbound]
  refine ⟨concrete?_eq_some_iff, fun hn size => ?_⟩
  rw [Value.concrete?, trimmed_ofConcrete]
  exact concrete?_decimal hn

/-- The number of the largest value, and a hexadecimal literal in mixed case. -/
theorem concrete?_exact_largest :
    (ofConcrete (2 ^ 128 - 1) 256).concrete? = some (2 ^ 128 - 1) ∧
      (word " 0x00Ff").concrete? = some 255 :=
  ⟨(concrete?_exact empty (2 ^ 128 - 1)).2 (by decide) 256,
    (concrete?_exact (word " 0x00Ff") 255).1.mpr (Or.inl (by decide))⟩

/-- A text that is read as a number and is no literal. -/
theorem concrete?_signed_not_literal :
    (word "0x+1").concrete? = some 1 ∧ (word "0x+1").isLiteral = false := by
  decide

end Value
end OperandFlow
