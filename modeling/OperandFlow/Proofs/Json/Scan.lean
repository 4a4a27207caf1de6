import Mathlib.Control.Basic
import Mathlib.Data.Option.Basic
import Mathlib.Data.List.TakeWhile
import OperandFlow.Json.Printer
import OperandFlow.Json.Token

/-! The tokens of printed texts: words, strings and marks are scanned as what they were printed
from. -/
namespace OperandFlow
namespace Text

theorem digit?_of_isDigit {c : Char} (h : c.isDigit = true) : digit? 10 c = some (c.toNat - 48) := by
  have hval : 48 ≤ c.val ∧ c.val ≤ 57 := by simpa [Char.isDigit] using h
  have hlow : 48 ≤ c.toNat := hval.1
  have hhigh : c.toNat ≤ 57 := hval.2
  have hrange : '0' ≤ c ∧ c ≤ '9' := hval
  rw [digit?, digitValue?, if_pos hrange, Option.filter_some, if_pos]
  · rfl
  · simp
    omega

theorem digitsFrom?_eq_ofDigitChars (acc : Nat) {cs : List Char} (h : ∀ c ∈ cs, c.isDigit = true) :
    digitsFrom? 10 acc cs = some (Nat.ofDigitChars 10 cs acc) := by
  induction cs generalizing acc with
  | nil => rfl
  | cons c cs ih =>
    rw [digitsFrom?, digit?_of_isDigit (h c (by simp)), Option.bind_eq_bind, Option.bind_some,
      ih _ fun x hx => h x (List.mem_cons_of_mem c hx), Nat.ofDigitChars_cons, Nat.mul_comm]
    rfl

theorem isDigit_of_mem_decimal {n : Nat} {c : Char} (h : c ∈ decimal n) : c.isDigit = true :=
  Nat.isDigit_of_mem_toDigits (by decide) (by decide) h

theorem digits?_decimal (n : Nat) : digits? 10 (decimal n) = some n := by
  unfold digits?
  split
  · next h => exact absurd h Nat.toDigits_ne_nil
  · rw [digitsFrom?_eq_ofDigitChars 0 fun c hc => isDigit_of_mem_decimal hc]
    exact congrArg some Nat.ofDigitChars_ten_toDigits

/-- Only zero is written with a zero in front. -/
theorem head?_decimal {n : Nat} (h : (decimal n).head? = some '0') : n = 0 := by
  induction n using Nat.strongRecOn with
  | ind n ih =>
    unfold decimal at h ih
    by_cases hlt : n < 10
    · rw [Nat.toDigits_of_lt_base hlt, List.head?_cons, Option.some.injEq] at h
      exact Nat.digitChar_eq_zero.mp h
    · rw [Nat.toDigits_of_base_le (by decide) (Nat.le_of_not_lt hlt), List.head?_append] at h
      have hne := List.head?_eq_some_head (Nat.toDigits_ne_nil (b := 10) (n := n / 10))
      rw [hne, Option.some_or] at h
      have := ih (n / 10) (by omega) (hne.trans h)
      omega

end Text

namespace Json
open Text

theorem le_ofDigitChars (cs : List Char) (acc : Nat) : acc ≤ Nat.ofDigitChars 10 cs acc := by
  rw [Nat.ofDigitChars_eq_ofDigitChars_zero]
  exact Nat.le_add_right_of_le (Nat.le_mul_of_pos_left acc (Nat.pow_pos (by decide)))

theorem fillWord_eq {word : Nat} {cs : List Char} (hcs : ∀ c ∈ cs, c.isDigit = true)
    (h : Nat.ofDigitChars 10 cs word < wordBound) :
    fillWord word cs = (Nat.ofDigitChars 10 cs word, []) := by
  induction cs generalizing word with
  | nil => rfl
  | cons c cs ih =>
    have hnext : word * 10 + (digit? 10 c).getD 0 = 10 * word + (c.toNat - '0'.toNat) := by
      rw [digit?_of_isDigit (hcs c (by simp)), Nat.mul_comm]
      rfl
    rw [Nat.ofDigitChars_cons] at h ⊢
    rw [fillWord, hnext, if_pos (Nat.lt_of_le_of_lt (le_ofDigitChars cs _) h)]
    exact ih (fun x hx => hcs x (List.mem_cons_of_mem c hx)) h

end Json

namespace Binary64

theorem nearestMultiple_le {unit : Nat} (n : Nat) : nearestMultiple unit n ≤ n + unit := by
  have hround : ∀ k : Nat, k ≤ n / unit + 1 → k * unit ≤ n + unit := by
    intro k hk
    calc k * unit ≤ (n / unit + 1) * unit := Nat.mul_le_mul_right unit hk
      _ = n / unit * unit + unit := Nat.succ_mul _ _
      _ ≤ n + unit := Nat.add_le_add_right (Nat.div_mul_le_self n unit) unit
  unfold nearestMultiple
  dsimp only
  apply hround
  split_ifs
  · omega
  · omega
  · omega

theorem nearest_le (n : Nat) : nearest n ≤ 2 * n := by
  by_cases hn : n = 0
  · subst hn
    decide
  · have hunit : spacing n ≤ n :=
      Nat.le_trans (Nat.pow_le_pow_right (by decide) (Nat.sub_le _ _)) (Nat.log2_self_le hn)
    have hle : nearest n ≤ n + spacing n := nearestMultiple_le n
    omega

/-- Words are far below the largest number. -/
theorem productOverflows_one {n : Nat} (h : n < Text.wordBound) :
    productOverflows n 1 = false := by
  have hone : nearest 1 = 1 := nearest_of_lt (by decide)
  have hle := nearest_le n
  have hbound : 2 * Text.wordBound ≤ overflowBound := by decide +kernel
  unfold productOverflows
  rw [hone, Nat.mul_one, decide_eq_false_iff_not]
  omega

end Binary64

namespace Json
open Text

theorem ofLexeme?_decimal (n : Nat) :
    Numeral.ofLexeme? (Text.decimal n) = some ⟨false, Text.decimal n, [], none⟩ := by
  have hdigits : ∀ c ∈ Text.decimal n, c.isDigit = true := fun c hc => isDigit_of_mem_decimal hc
  have hhead : (Text.decimal n).length = 1 ∨ (Text.decimal n).head? ≠ some '0' := by
    by_cases hn : n = 0
    · subst hn
      exact Or.inl rfl
    · exact Or.inr fun h => hn (head?_decimal h)
  have hne : Text.decimal n ≠ [] := Nat.toDigits_ne_nil
  generalize Text.decimal n = cs at hdigits hhead hne
  have htake : cs.takeWhile Char.isDigit = cs := List.takeWhile_eq_self_iff.mpr hdigits
  have hdrop : cs.dropWhile Char.isDigit = [] := List.dropWhile_eq_nil_iff.mpr hdigits
  have hsign : ∀ rest, cs ≠ '-' :: rest := by
    rintro rest rfl
    cases hdigits '-' List.mem_cons_self
  unfold Numeral.ofLexeme?
  simp [htake, hdrop, hne, hhead, guard]

theorem scaled_decimal {n : Nat} (h : n < wordBound) :
    (⟨false, Text.decimal n, [], none⟩ : Numeral).scaled = ⟨n, 0⟩ := by
  have hword : Nat.ofDigitChars 10 (Text.decimal n) 0 = n := Nat.ofDigitChars_ten_toDigits
  have hfill := fillWord_eq (fun c hc => isDigit_of_mem_decimal hc) (hword.symm ▸ h)
  rw [hword] at hfill
  simp [Numeral.scaled, hfill, fillWord]

/-- A word reads as it is written. -/
theorem scalar?_decimal {n : Nat} (h : n < wordBound) :
    scalar? (Text.decimal n) = some (.nat n) := by
  have hdigits : ∀ c ∈ Text.decimal n, c.isDigit = true := fun c hc => isDigit_of_mem_decimal hc
  have hname : ∀ c cs, c.isDigit = false → Text.decimal n ≠ c :: cs := by
    intro c cs hc heq
    have := hdigits c (heq ▸ List.mem_cons_self)
    rw [hc] at this
    cases this
  unfold scalar?
  rw [if_neg (hname _ _ rfl), if_neg (hname _ _ rfl), if_neg (hname _ _ rfl), ofLexeme?_decimal,
    Option.map_some]
  have hfits : (⟨n, 0⟩ : Scaled).overflows = false := by
    simp [Scaled.overflows, Scaled.maxExponent, Binary64.productOverflows_one h]
  simp [Numeral.value, scaled_decimal h, hfits, Numeral.isInteger, digits?_decimal, Json.nat]

/-- The piece of a string that a character is printed as. -/
def piece (c : Char) : Piece :=
  if c ∈ ['"', '\\', '\x08', '\x0c', '\n', '\r', '\t'] then .short c
  else if c.toNat < 0x20 then .unit c.toNat
  else .char c

theorem digit?_hexDigit (n : Nat) : digit? 16 (hexDigit n) = some (n % 16) := by
  have hall : ∀ k < 16, digit? 16 ((Nat.toDigits 16 k).headD '0') = some k := by decide
  exact hall (n % 16) (Nat.mod_lt n (by decide))

theorem scan_escape (c : Char) (tokens : List Token) (seen : List Piece) :
    (escape c).foldlM Scanner.step ⟨tokens, .string seen⟩ =
      some ⟨tokens, .string (piece c :: seen)⟩ := by
  by_cases hshort : c ∈ ['"', '\\', '\x08', '\x0c', '\n', '\r', '\t']
  · rw [piece, if_pos hshort]
    simp only [List.mem_cons, List.not_mem_nil, or_false] at hshort
    rcases hshort with rfl | rfl | rfl | rfl | rfl | rfl | rfl <;> rfl
  · rw [piece, if_neg hshort]
    simp only [List.mem_cons, List.not_mem_nil, or_false, not_or] at hshort
    obtain ⟨hquote, hslash, hb, hf, hn, hr, ht⟩ := hshort
    unfold escape
    rw [if_neg hquote, if_neg hslash, if_neg hb, if_neg hf, if_neg hn, if_neg hr, if_neg ht]
    by_cases hcontrol : c.toNat < 0x20
    · have hvalue : ((c.toNat / 16 % 16) * 16 + c.toNat % 16) = c.toNat := by omega
      have hzero : digit? 16 '0' = some 0 := rfl
      rw [if_pos hcontrol, if_pos hcontrol]
      simp [Scanner.step, digit?_hexDigit, hzero, hvalue]
    · rw [if_neg hcontrol, if_neg hcontrol]
      simp [Scanner.step, hquote, hslash, hcontrol]

theorem scan_escapes (cs : List Char) (tokens : List Token) (seen : List Piece) :
    (cs.flatMap escape).foldlM Scanner.step ⟨tokens, .string seen⟩ =
      some ⟨tokens, .string ((cs.map piece).reverse ++ seen)⟩ := by
  induction cs generalizing seen with
  | nil => rfl
  | cons c cs ih =>
    rw [List.flatMap_cons, List.foldlM_append, scan_escape, Option.bind_eq_bind, Option.bind_some,
      ih]
    simp

/-- A code unit that is no half of a pair stands for its character. -/
theorem assembleFrom?_unit {n : Nat} (h : n < 0xD800) (tail : List Char) (rest : List Piece) :
    assembleFrom? tail (.unit n :: rest) = assembleFrom? (Char.ofNat n :: tail) rest := by
  have hhigh : isHighSurrogate n = false := by simp [isHighSurrogate]; omega
  have hlow : isLowSurrogate n = false := by simp [isLowSurrogate]; omega
  cases rest with
  | nil => simp [assembleFrom?, hhigh, hlow]
  | cons p rest => cases p <;> simp [assembleFrom?, hhigh, hlow]

theorem assembleFrom?_pieces (cs : List Char) (tail : List Char) :
    assembleFrom? tail (cs.map piece) = some (cs.reverse ++ tail) := by
  induction cs generalizing tail with
  | nil => rfl
  | cons c cs ih =>
    rw [List.map_cons, List.reverse_cons, List.append_assoc, List.singleton_append, ← ih]
    unfold piece
    split_ifs with hshort hcontrol
    · rw [assembleFrom?]
    · rw [assembleFrom?_unit (by omega), Char.ofNat_toNat]
    · rw [assembleFrom?]

/-- The string is printed with escapes. -/
def needsEscape (s : String) : Bool :=
  s.toList.any fun c => isEscape (piece c)

/-- The token of a printed string. -/
def textToken (s : String) : Token :=
  .text (some ⟨s, needsEscape s⟩)

theorem scan_quote (s : String) (tokens : List Token) :
    (quote s).foldlM Scanner.step ⟨tokens, .between⟩ = some ⟨textToken s :: tokens, .between⟩ := by
  have hkey : key? (s.toList.map piece).reverse = some ⟨s, needsEscape s⟩ := by
    rw [key?, ← List.map_reverse, assembleFrom?_pieces]
    simp [needsEscape, Function.comp_def]
  have hopen : Scanner.step ⟨tokens, .between⟩ '"' = some ⟨tokens, .string []⟩ := rfl
  rw [quote, List.cons_append, List.foldlM_cons, hopen, Option.bind_eq_bind, Option.bind_some,
    List.foldlM_append, scan_escapes, Option.bind_eq_bind, Option.bind_some]
  simp [Scanner.step, hkey, textToken]

/-- The tokens so far, if no string is open. -/
def Scanner.closed (s : Scanner) : Option (List Token) :=
  match s.mode with
  | .between => some s.tokens
  | .lexeme seen => closeLexeme s.tokens seen
  | _ => none

theorem Scanner.finish_eq (s : Scanner) : s.finish = s.closed.map List.reverse := by
  obtain ⟨tokens, mode⟩ := s
  cases mode <;> rfl

/-- A mark ends whatever stands before it. -/
theorem Scanner.step_mark {s : Scanner} {tokens : List Token} (h : s.closed = some tokens) {c : Char}
    (hc : isMark c = true) : s.step c = some ⟨.mark c :: tokens, .between⟩ := by
  have hspace : isSpace c = false := by
    simp only [isMark, Bool.or_eq_true, decide_eq_true_eq] at hc
    rcases hc with ((((rfl | rfl) | rfl) | rfl) | rfl) | rfl <;> rfl
  have hlexeme : isLexemeChar c = false := by
    simp only [isMark, Bool.or_eq_true, decide_eq_true_eq] at hc
    rcases hc with ((((rfl | rfl) | rfl) | rfl) | rfl) | rfl <;> rfl
  obtain ⟨seen, mode⟩ := s
  unfold closed at h
  cases mode with
  | between =>
    cases h
    simp [step, between, hspace, hc]
  | lexeme lexeme =>
    have h : closeLexeme seen lexeme = some tokens := h
    simp [step, between, hspace, hlexeme, hc, h]
  | string pieces => cases h
  | escape pieces => cases h
  | hex pieces value digits => cases h

/-- The text `cs` adds tokens to `before` and makes them `after`. -/
def Scans (before : List Token) (cs : List Char) (after : List Token) : Prop :=
  ∃ s, cs.foldlM Scanner.step ⟨before, .between⟩ = some s ∧ s.closed = some after

theorem Scans.refl (tokens : List Token) : Scans tokens [] tokens := ⟨_, rfl, rfl⟩

theorem Scans.mark {before after last : List Token} {cs rest : List Char} {c : Char}
    (h : Scans before cs after) (hc : isMark c = true) (hrest : Scans (.mark c :: after) rest last) :
    Scans before (cs ++ c :: rest) last := by
  obtain ⟨s, hs, hclosed⟩ := h
  obtain ⟨t, ht, hlast⟩ := hrest
  refine ⟨t, ?_, hlast⟩
  rw [List.foldlM_append, hs, Option.bind_eq_bind, Option.bind_some, List.foldlM_cons,
    Scanner.step_mark hclosed hc, Option.bind_eq_bind, Option.bind_some, ht]

theorem scans_quote (s : String) (tokens : List Token) :
    Scans tokens (quote s) (textToken s :: tokens) :=
  ⟨_, scan_quote s tokens, rfl⟩

theorem between_lexemeChar {c : Char} (h : isLexemeChar c = true) (tokens : List Token) :
    Scanner.between tokens c = some ⟨tokens, .lexeme [c]⟩ := by
  have hspace : isSpace c = false := by
    by_contra hspace
    simp only [isSpace, Bool.not_eq_false, Bool.or_eq_true, decide_eq_true_eq] at hspace
    rcases hspace with ((rfl | rfl) | rfl) | rfl <;> cases h
  have hmark : isMark c = false := by
    by_contra hmark
    simp only [isMark, Bool.not_eq_false, Bool.or_eq_true, decide_eq_true_eq] at hmark
    rcases hmark with ((((rfl | rfl) | rfl) | rfl) | rfl) | rfl <;> cases h
  have hquote : c ≠ '"' := by
    rintro rfl
    cases h
  simp [Scanner.between, hspace, hmark, hquote, h]

theorem scan_lexeme {cs : List Char} (hcs : ∀ c ∈ cs, isLexemeChar c = true) (tokens : List Token)
    (seen : List Char) :
    cs.foldlM Scanner.step ⟨tokens, .lexeme seen⟩ = some ⟨tokens, .lexeme (cs.reverse ++ seen)⟩ := by
  induction cs generalizing seen with
  | nil => rfl
  | cons c cs ih =>
    have hstep : Scanner.step ⟨tokens, .lexeme seen⟩ c = some ⟨tokens, .lexeme (c :: seen)⟩ :=
      if_pos (hcs c List.mem_cons_self)
    rw [List.foldlM_cons, hstep, Option.bind_eq_bind, Option.bind_some,
      ih fun x hx => hcs x (List.mem_cons_of_mem c hx)]
    simp

theorem scans_lexeme {cs : List Char} {j : Json} (hcs : ∀ c ∈ cs, isLexemeChar c = true)
    (hne : cs ≠ []) (h : scalar? cs = some j) (tokens : List Token) :
    Scans tokens cs (.scalar j :: tokens) := by
  cases cs with
  | nil => exact absurd rfl hne
  | cons c cs =>
    have hstep : Scanner.step ⟨tokens, .between⟩ c = some ⟨tokens, .lexeme [c]⟩ :=
      between_lexemeChar (hcs c List.mem_cons_self) tokens
    refine ⟨⟨tokens, .lexeme (cs.reverse ++ [c])⟩, ?_, ?_⟩
    · rw [List.foldlM_cons, hstep, Option.bind_eq_bind, Option.bind_some,
        scan_lexeme fun x hx => hcs x (List.mem_cons_of_mem c hx)]
    · simp [Scanner.closed, Scanner.closeLexeme, h]

theorem scans_decimal {n : Nat} (h : n < wordBound) (tokens : List Token) :
    Scans tokens (Text.decimal n) (.scalar (.nat n) :: tokens) := by
  apply scans_lexeme _ Nat.toDigits_ne_nil (scalar?_decimal h)
  intro c hc
  simp [isLexemeChar, Char.isAlphanum, isDigit_of_mem_decimal hc]

end Json
end OperandFlow
