import OperandFlow.Equality
import OperandFlow.Proofs.Term.Convergence

/-! Equality of values that is settled on their texts. It is reflexive and symmetric, and it can
be chained unless a chain goes from one spelling of a number through another one to a term. -/
namespace OperandFlow

namespace Text

theorem compact_reverse (cs : List Char) : compact cs.reverse = (compact cs).reverse :=
  List.filter_reverse ..

theorem compact_dropWhile (cs : List Char) : compact (cs.dropWhile isBlank) = compact cs := by
  induction cs with
  | nil => rfl
  | cons c cs ih =>
    rw [List.dropWhile_cons]
    split_ifs with hblank
    · rw [ih]
      simp [compact, hblank]
    · rfl

/-- What is trimmed off is dropped with the other blanks anyway. -/
theorem compact_trim (cs : List Char) : compact (trim cs) = compact cs := by
  rw [trim, compact_reverse, compact_dropWhile, compact_reverse, compact_dropWhile,
    List.reverse_reverse]

theorem digit?_of_digitsFrom? {base acc n : Nat} {cs : List Char}
    (h : digitsFrom? base acc cs = some n) : ∀ c ∈ cs, (digit? base c).isSome = true := by
  induction cs generalizing acc with
  | nil => exact nofun
  | cons c cs ih =>
    obtain ⟨d, hd, h⟩ := Option.bind_eq_some_iff.mp h
    exact List.forall_mem_cons.mpr ⟨by rw [hd]; rfl, ih h⟩

end Text

namespace Term
open Text

/-- The characters that numbers are written with. -/
def isNumeric (c : Char) : Bool :=
  isHexDigit c || c = 'x' || c = '+'

theorem isBlank_of_isNumeric {c : Char} (h : isNumeric c = true) : isBlank c = false := by
  have hrange : 43 ≤ c.toNat ∧ c.toNat ≤ 120 := by
    simp only [isNumeric, Bool.or_eq_true, decide_eq_true_eq] at h
    rcases h with (hhex | rfl) | rfl
    · obtain ⟨d, hd⟩ := Option.isSome_iff_exists.mp hhex
      obtain ⟨hd, -⟩ := Option.filter_eq_some_iff.mp hd
      unfold digitValue? at hd
      split_ifs at hd with hdigit hlower hupper
      · exact ⟨Nat.le_trans (by decide) hdigit.1, Nat.le_trans hdigit.2 (by decide)⟩
      · exact ⟨Nat.le_trans (by decide) hlower.1, Nat.le_trans hlower.2 (by decide)⟩
      · exact ⟨Nat.le_trans (by decide) hupper.1, Nat.le_trans hupper.2 (by decide)⟩
    · decide
    · decide
  simp only [isBlank, Bool.or_eq_false_iff, Bool.and_eq_false_iff, decide_eq_false_iff_not,
    beq_eq_false_iff_ne]
  omega

theorem isNumeric_of_digits? {base n : Nat} {cs : List Char} (hbase : base ≤ 16)
    (h : digits? base cs = some n) : ∀ c ∈ cs, isNumeric c = true := by
  cases cs with
  | nil => exact nofun
  | cons d ds =>
    intro c hc
    obtain ⟨value, hvalue⟩ := Option.isSome_iff_exists.mp (digit?_of_digitsFrom? h c hc)
    obtain ⟨hvalue, hlt⟩ := Option.filter_eq_some_iff.mp hvalue
    have hhex : digit? 16 c = some value :=
      Option.filter_eq_some_iff.mpr ⟨hvalue, decide_eq_true
        (Nat.lt_of_lt_of_le (of_decide_eq_true hlt) hbase)⟩
    simp [isNumeric, isHexDigit, hhex]

theorem isNumeric_of_numeral? {base bound n : Nat} {cs : List Char} (hbase : base ≤ 16)
    (h : numeral? base bound cs = some n) : ∀ c ∈ cs, isNumeric c = true := by
  unfold numeral? at h
  obtain ⟨h, -⟩ := Option.filter_eq_some_iff.mp h
  split at h
  · exact List.forall_mem_cons.mpr ⟨by decide, isNumeric_of_digits? hbase h⟩
  · exact isNumeric_of_digits? hbase h

theorem isNumeric_of_concrete? {cs : List Char} {n : Nat} (h : concrete? cs = some n) :
    ∀ c ∈ cs, isNumeric c = true := by
  unfold concrete? at h
  split at h
  · exact List.forall_mem_cons.mpr ⟨by decide, List.forall_mem_cons.mpr
      ⟨by decide, isNumeric_of_numeral? (by decide) h⟩⟩
  · split_ifs at h
    exact isNumeric_of_numeral? (by decide) h

/-- A number is its own canonical form. -/
theorem round_of_isNumeric {cs : List Char} (h : ∀ c ∈ cs, isNumeric c = true) :
    round cs = cs := by
  have habsent : ∀ c, isNumeric c = false → c ∉ cs := by
    intro c hc hmem
    cases hc.symm.trans (h c hmem)
  have hpadding : dropPadding cs = cs := by
    unfold dropPadding
    split
    · exact absurd (List.mem_cons_of_mem _ List.mem_cons_self) (habsent ',' (by decide))
    · rfl
  rw [round, unwrapGuards, mapCalls_of_absent (show 'O' ∈ orCall.chars by decide)
    (habsent _ (by decide)), mapCalls_of_absent (show 'I' ∈ ifCall.chars by decide)
    (habsent _ (by decide)), unwrapValues,
    mapCalls_of_absent (show 'S' ∈ selectCall.chars by decide) (habsent _ (by decide)),
    mapCalls_of_absent (show 'S' ∈ storeCall.chars by decide) (habsent _ (by decide)),
    mapCalls_of_absent (show 'Z' ∈ zeroExtCall.chars by decide) (habsent _ (by decide)),
    mapCalls_of_absent (show 'n' ∈ concatCall.chars by decide) (habsent _ (by decide)),
    mergeReads_of_absent (habsent _ (by decide)), hpadding]

end Term

namespace Value
open Term Text

theorem toList_canonical (v : Value) :
    (Term.canonical v.expr).toList = Term.round^[roundLimit] (compact v.trimmed) := by
  rw [Term.toList_canonical, trimmed, compact_trim]

theorem canonical_congr {v w : Value} (h : v.trimmed = w.trimmed) :
    Term.canonical v.expr = Term.canonical w.expr := by
  rw [← String.toList_inj, toList_canonical, toList_canonical, h]

theorem toList_canonical_of_concrete? {v : Value} {n : Nat} (h : v.concrete? = some n) :
    (Term.canonical v.expr).toList = v.trimmed := by
  have hnumeric := isNumeric_of_concrete? h
  have hcompact : compact v.trimmed = v.trimmed := by
    refine List.filter_eq_self.mpr fun c hc => ?_
    rw [isBlank_of_isNumeric (hnumeric c hc)]
    rfl
  rw [toList_canonical, hcompact]
  exact Function.IsFixedPt.iterate (round_of_isNumeric hnumeric) roundLimit

/-- A value together with its canonical text. -/
def operand (v : Value) : Operand := ⟨v, Term.canonical v.expr⟩

/-- The texts of the values settle that they are equal. -/
def SameText (v w : Value) : Prop := Operand.equal .text v.operand w.operand = true

instance (v w : Value) : Decidable (v.SameText w) :=
  inferInstanceAs (Decidable (Operand.equal .text v.operand w.operand = true))

section

variable {v w : Value} (hv : v.isEmpty = false) (hw : w.isEmpty = false) (hsize : v.size = w.size)
include hv hw hsize

theorem sameText_iff : v.SameText w ↔ v.trimmed = w.trimmed ∨
    if v.concrete?.isSome ∧ w.concrete?.isSome then v.concrete? = w.concrete?
    else Term.canonical v.expr ≠ "" ∧ Term.canonical v.expr = Term.canonical w.expr := by
  have hasked : Oracle.text.holds v w = false := rfl
  unfold SameText Operand.equal Operand.textEqual? operand
  simp only [hv, hw, hsize, Bool.or_self, Bool.false_eq_true, ne_eq, not_true_eq_false, and_false,
    if_false, hasked]
  by_cases htrim : v.trimmed = w.trimmed
  · simp [htrim]
  · rw [if_neg htrim]
    cases v.concrete? <;> cases w.concrete? <;> simp only [Option.isSome] <;> grind

/-- Numbers are compared as numbers. -/
theorem sameText_numbers (hvn : v.concrete? ≠ none) (hwn : w.concrete? ≠ none) :
    v.SameText w ↔ v.concrete? = w.concrete? := by
  rw [sameText_iff hv hw hsize,
    if_pos ⟨Option.isSome_iff_ne_none.mpr hvn, Option.isSome_iff_ne_none.mpr hwn⟩, or_iff_right_of_imp]
  intro htrim
  rw [concrete?, concrete?, htrim]

/-- A number is only compared as a text with what is no number. -/
theorem sameText_number (hvn : v.concrete? ≠ none) (hwn : w.concrete? = none) :
    v.SameText w ↔ (Term.canonical w.expr).toList = v.trimmed := by
  obtain ⟨n, hn⟩ := Option.ne_none_iff_exists'.mp hvn
  have htrim : v.trimmed ≠ w.trimmed := by
    intro htrim
    rw [concrete?, htrim] at hn
    cases hwn.symm.trans hn
  have hcanonical := toList_canonical_of_concrete? hn
  have hne : Term.canonical v.expr ≠ "" := by
    intro hnil
    rw [hnil] at hcanonical
    rw [isEmpty, ← hcanonical] at hv
    cases hv
  rw [sameText_iff hv hw hsize, or_iff_right htrim, if_neg (by simp [hwn]), and_iff_right hne,
    ← String.toList_inj, hcanonical]
  exact eq_comm

/-- Where one of them is no number, canonical texts count. -/
theorem sameText_texts (hn : v.concrete? = none ∨ w.concrete? = none) : v.SameText w ↔
    v.trimmed = w.trimmed ∨
      Term.canonical v.expr ≠ "" ∧ Term.canonical v.expr = Term.canonical w.expr := by
  rw [sameText_iff hv hw hsize, if_neg]
  rintro ⟨hvn, hwn⟩
  rcases hn with hn | hn
  · rw [hn] at hvn
    cases hvn
  · rw [hn] at hwn
    cases hwn

theorem sameText_comm : v.SameText w ↔ w.SameText v := by
  have hboth : (w.concrete?.isSome ∧ v.concrete?.isSome) =
      (v.concrete?.isSome ∧ w.concrete?.isSome) := propext and_comm
  rw [sameText_iff hv hw hsize, sameText_iff hw hv hsize.symm, eq_comm]
  simp only [hboth]
  split_ifs
  · rw [eq_comm (a := v.concrete?)]
  · grind

end

/-- The values are numbers that are spelled in two ways. -/
def Respells (v w : Value) : Prop :=
  v.concrete? ≠ none ∧ w.concrete? ≠ none ∧ v.trimmed ≠ w.trimmed

section

variable {u v w : Value} (hu : u.isEmpty = false) (hv : v.isEmpty = false) (hw : w.isEmpty = false)
  (huv : u.size = v.size) (hvw : v.size = w.size)
include hu hv hw huv hvw

/-- A number goes with a term that reads like another number, if both numbers read alike. -/
theorem sameText_through_number (hun : u.concrete? ≠ none) (hvn : v.concrete? ≠ none)
    (hwn : w.concrete? = none) (h : v.SameText w) :
    u.SameText w ↔ u.trimmed = v.trimmed := by
  rw [sameText_number hu hw (huv.trans hvw) hun hwn, (sameText_number hv hw hvw hvn hwn).mp h]
  exact eq_comm

/-- Through a term: all three canonical texts are the same. -/
theorem sameText_through_term (hvn : v.concrete? = none) (h : u.SameText v) (h' : v.SameText w) :
    u.SameText w := by
  have huw := huv.trans hvw
  have hleft := (sameText_texts hu hv huv (Or.inr hvn)).mp h
  have hright := (sameText_texts hv hw hvw (Or.inl hvn)).mp h'
  have hcanonical : Term.canonical u.expr = Term.canonical w.expr := by
    have huv : Term.canonical u.expr = Term.canonical v.expr :=
      hleft.elim canonical_congr And.right
    exact huv.trans (hright.elim canonical_congr And.right)
  by_cases hn : u.concrete? = none ∨ w.concrete? = none
  · rw [sameText_texts hu hw huw hn]
    rcases hleft with htrim | ⟨hne, -⟩
    · rcases hright with htrim' | ⟨hne, -⟩
      · exact Or.inl (htrim.trans htrim')
      · exact Or.inr ⟨canonical_congr htrim ▸ hne, hcanonical⟩
    · exact Or.inr ⟨hne, hcanonical⟩
  -- Numbers with the same canonical text are spelled alike.
  · push Not at hn
    obtain ⟨m, hm⟩ := Option.ne_none_iff_exists'.mp hn.1
    obtain ⟨n, hn'⟩ := Option.ne_none_iff_exists'.mp hn.2
    have htrim : u.trimmed = w.trimmed := by
      rw [← toList_canonical_of_concrete? hm, ← toList_canonical_of_concrete? hn', hcanonical]
    rw [sameText_numbers hu hw huw hn.1 hn.2, concrete?, concrete?, htrim]

/-- Chains through `v` hold unless `v` and one end are two spellings of a number and the other end
is none. -/
theorem sameText_trans_iff (h : u.SameText v) (h' : v.SameText w) : u.SameText w ↔
    ¬ (u.Respells v ∧ w.concrete? = none ∨ w.Respells v ∧ u.concrete? = none) := by
  have huw := huv.trans hvw
  by_cases hvn : v.concrete? = none
  · have hthrough := sameText_through_term hu hv hw huv hvw hvn h h'
    simp [hthrough, Respells, hvn]
  by_cases hun : u.concrete? = none <;> by_cases hwn : w.concrete? = none
  · -- Both terms read like the number.
    have hleft := (sameText_number hv hu huv.symm hvn hun).mp ((sameText_comm hu hv huv).mp h)
    have hright := (sameText_number hv hw hvw hvn hwn).mp h'
    have hne : Term.canonical u.expr ≠ "" := by
      intro hnil
      rw [hnil] at hleft
      rw [isEmpty, ← hleft] at hv
      cases hv
    have hsame : u.SameText w := (sameText_texts hu hw huw (Or.inl hun)).mpr
      (Or.inr ⟨hne, String.toList_inj.mp (hleft.trans hright.symm)⟩)
    simp [hsame, Respells, hun, hwn]
  · have hspell := sameText_through_number hw hv hu hvw.symm huv.symm hwn hvn hun
      ((sameText_comm hu hv huv).mp h)
    rw [sameText_comm hu hw huw, hspell]
    simp [Respells, hun, hvn, hwn]
  · have hspell := sameText_through_number hu hv hw huv hvw hun hvn hwn h'
    rw [hspell]
    simp [Respells, hun, hvn, hwn]
  · have hsame : u.SameText w := (sameText_numbers hu hw huw hun hwn).mpr
      (((sameText_numbers hu hv huv hun hvn).mp h).trans
        ((sameText_numbers hv hw hvw hvn hwn).mp h'))
    simp [hsame, hun, hwn]

end

/-- Among values of one width that are not empty, the equality that texts settle is reflexive and
symmetric. It can be chained unless the value in the middle and one end are two spellings of a
number and the other end is a term: a term reads like one spelling of a number only. -/
theorem sameText_near_equivalence :
    (∀ v : Value, v.isEmpty = false → v.SameText v) ∧
      (∀ v w : Value, v.isEmpty = false → w.isEmpty = false → v.size = w.size →
        v.SameText w → w.SameText v) ∧
      ∀ u v w : Value, u.isEmpty = false → v.isEmpty = false → w.isEmpty = false →
        u.size = v.size → v.size = w.size → u.SameText v → v.SameText w →
        (u.SameText w ↔
          ¬ (u.Respells v ∧ w.concrete? = none ∨ w.Respells v ∧ u.concrete? = none)) := by
  refine ⟨?_, ?_, ?_⟩
  · intro v hv
    exact (sameText_iff hv hv rfl).mpr (Or.inl rfl)
  · intro v w hv hw hsize
    exact (sameText_comm hv hw hsize).mp
  · intro u v w hu hv hw huv hvw
    exact sameText_trans_iff hu hv hw huv hvw

/-- Blanks do not matter to a chain. -/
theorem sameText_near_equivalence_blanks :
    let u := word " 16"
    let v := word "16"
    let w := word "ZeroExt(0, 16)"
    (u.isEmpty = false ∧ v.isEmpty = false ∧ w.isEmpty = false) ∧
      (u.size = v.size ∧ v.size = w.size) ∧ (u.SameText v ∧ v.SameText w) ∧
      v.SameText u ∧ u.SameText w := by
  intro u v w
  have hne : u.isEmpty = false ∧ v.isEmpty = false ∧ w.isEmpty = false := by decide +kernel
  have hchain : u.SameText v ∧ v.SameText w := by decide +kernel
  have hspell : ¬ (u.Respells v ∧ w.concrete? = none ∨ w.Respells v ∧ u.concrete? = none) := by
    unfold Respells
    decide +kernel
  exact ⟨hne, ⟨rfl, rfl⟩, hchain,
    sameText_near_equivalence.2.1 u v hne.1 hne.2.1 rfl hchain.1,
    (sameText_near_equivalence.2.2 u v w hne.1 hne.2.1 hne.2.2 rfl rfl hchain.1 hchain.2).mpr
      hspell⟩

/-- A term that reads like a decimal number is not equal to that number in hexadecimal. -/
theorem sameText_not_transitive :
    (word "0x10").SameText (word "16") ∧ (word "16").SameText (word "ZeroExt(0,16)") ∧
      ¬ (word "0x10").SameText (word "ZeroExt(0,16)") := by
  decide +kernel

end Value
end OperandFlow
