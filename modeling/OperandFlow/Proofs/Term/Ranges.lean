import Mathlib.Data.List.SplitBy
import OperandFlow.Proofs.Literals
import OperandFlow.Proofs.Term.Words

/-! Rows of single byte reads, however their indices are spelled: a row becomes the row of its
maximal runs. -/
namespace OperandFlow

namespace Text

theorem isDigit_of_digit? {c : Char} (h : (digit? 10 c).isSome = true) : c.isDigit = true := by
  obtain ⟨d, hd⟩ := Option.isSome_iff_exists.mp h
  obtain ⟨hvalue, hlt⟩ := Option.filter_eq_some_iff.mp hd
  have hlt : d < 10 := of_decide_eq_true hlt
  unfold digitValue? at hvalue
  split_ifs at hvalue with hdigit
  · have hrange : 48 ≤ c.val ∧ c.val ≤ 57 := hdigit
    simpa [Char.isDigit] using hrange
  · have := Option.some.inj hvalue
    omega
  · have := Option.some.inj hvalue
    omega

/-- A text with another character is no numeral. -/
theorem digits?_eq_none {cs : List Char} {c : Char} (hc : c ∈ cs) (hdigit : c.isDigit = false) :
    digits? 10 cs = none := by
  refine Option.eq_none_iff_forall_not_mem.mpr fun n hn => ?_
  have hall := (digits?_eq_some_iff.mp hn).2.1 c hc
  rw [isDigit_of_digit? hall] at hdigit
  cases hdigit

theorem numeral?_eq_none {bound : Nat} {cs : List Char} {c : Char} (hhead : cs.head? ≠ some '+')
    (hc : c ∈ cs) (hdigit : c.isDigit = false) : numeral? 10 bound cs = none := by
  refine Option.eq_none_iff_forall_not_mem.mpr fun n hn => ?_
  have hdigits := (Term.numeral?_eq_some_iff hhead).mp hn
  rw [digits?_eq_none hc hdigit] at hdigits
  cases hdigits.1

/-- Letters are no digits, and none of them is a sign or a bracket. -/
theorem not_isDigit_of_isAlpha {c : Char} (h : c.isAlpha = true) : c.isDigit = false := by
  have hcode : 58 ≤ c.toNat := by
    rcases Bool.or_eq_true_iff.mp h with hupper | hlower
    · have hcode : 65 ≤ c.toNat ∧ c.toNat ≤ 90 := of_decide_eq_true hupper
      omega
    · have hlow : 97 ≤ c.toNat := of_decide_eq_true (Bool.and_eq_true_iff.mp hlower).1
      omega
  refine Bool.eq_false_iff.mpr fun hdigit => ?_
  have hrange : 48 ≤ c.val ∧ c.val ≤ 57 := by simpa [Char.isDigit] using hdigit
  have hhigh : c.toNat ≤ 57 := hrange.2
  omega

end Text

namespace Term
open Text

/-! ### Spellings of a place -/

/-- The texts that a place has as an index. Without a base, a place is a plain number. -/
inductive Spells : Place → List Char → Prop where
  | number (n : Nat) : Spells ⟨[], n⟩ (decimal n)
  | baseFirst {base : List Char} (n : Nat) : base ≠ [] → Spells ⟨base, n⟩ (base ++ '+' :: decimal n)
  | baseLast {base : List Char} (n : Nat) : base ≠ [] → Spells ⟨base, n⟩ (decimal n ++ '+' :: base)
  | base {base : List Char} : base ≠ [] → Spells ⟨base, 0⟩ base

/-- A base that is a word of letters. -/
def IsWord (base : List Char) : Prop := ∀ c ∈ base, c.isAlpha = true

theorem IsWord.not_mem {base : List Char} (h : IsWord base) {c : Char} (hc : c.isAlpha = false) :
    c ∉ base := by
  intro hmem
  rw [h c hmem] at hc
  cases hc

theorem IsWord.isLine {base : List Char} (h : IsWord base) (hne : base ≠ []) :
    isLine base = true := by
  simp [Term.isLine, hne, h.not_mem (c := '\n') rfl]

/-- An index has only letters, digits and plus signs. -/
theorem Spells.not_mem {p : Place} {index : List Char} (h : Spells p index) (hbase : IsWord p.base)
    {c : Char} (hc : c.isAlphanum = false) (hplus : c ≠ '+') : c ∉ index := by
  obtain ⟨halpha, hdigit⟩ := Bool.or_eq_false_iff.mp hc
  cases h with
  | number n => exact not_mem_decimal hdigit n
  | baseFirst n hne => simp [hbase.not_mem halpha, not_mem_decimal hdigit n, hplus]
  | baseLast n hne => simp [hbase.not_mem halpha, not_mem_decimal hdigit n, hplus]
  | base hne => exact hbase.not_mem halpha

theorem IsWord.isArg {base : List Char} (h : IsWord base) : IsArg base :=
  .of_word fun c hc => isNameChar_of_isAlphanum (by simp [Char.isAlphanum, h c hc])

theorem Spells.isArg {p : Place} {index : List Char} (h : Spells p index) (hbase : IsWord p.base) :
    IsArg index := by
  cases h with
  | number n => exact isArg_decimal n
  | baseFirst n _ => exact hbase.isArg.append (.plain rfl rfl (by decide) (isArg_decimal n))
  | baseLast n _ => exact (isArg_decimal n).append (.plain rfl rfl (by decide) hbase.isArg)
  | base _ => exact hbase.isArg

theorem lastSum?_append {after : List Char} (h : '+' ∉ after) (before : List Char) :
    lastSum? (before ++ '+' :: after) = some (before, after) := by
  have habsent : '+' ∉ after.reverse := by simpa using h
  have hbreak : breakOn ['+'] (after.reverse ++ ['+'] ++ before.reverse) =
      some (after.reverse, before.reverse) := breakOn_append habsent before.reverse
  have htext : (before ++ '+' :: after).reverse = after.reverse ++ ['+'] ++ before.reverse := by
    simp
  rw [lastSum?, htext, hbreak]
  simp

theorem lastSum?_eq_none {index : List Char} (h : '+' ∉ index) : lastSum? index = none := by
  have hbreak : breakOn ['+'] index.reverse = none :=
    breakOn_eq_none (c := '+') (by decide) (by simpa using h)
  rw [lastSum?, hbreak]
  rfl

theorem numeral?_word_append {base : List Char} (hbase : IsWord base) (hne : base ≠ [])
    (bound : Nat) (rest : List Char) : numeral? 10 bound (base ++ rest) = none := by
  obtain ⟨c, base, rfl⟩ := List.exists_cons_of_ne_nil hne
  have hc := hbase c List.mem_cons_self
  refine numeral?_eq_none ?_ (by simp : c ∈ _) (not_isDigit_of_isAlpha hc)
  rw [List.cons_append, List.head?_cons]
  rintro ⟨⟩
  cases hc

theorem head?_decimal_append (n : Nat) (rest : List Char) :
    (decimal n ++ rest).head? ≠ some '+' := by
  have hne : decimal n ≠ [] := Nat.toDigits_ne_nil
  rw [List.head?_append_of_ne_nil _ hne]
  exact fun h => not_mem_decimal rfl n (List.mem_of_mem_head? h)

theorem filter_digits?_decimal {n bound : Nat} (h : n < bound) :
    (digits? 10 (decimal n)).filter (· < bound) = some n := by
  rw [digits?_decimal, Option.filter_some, if_pos (decide_eq_true h)]

section Sums

variable {base : List Char} (hbase : IsWord base) (hne : base ≠ []) {n : Nat} (hn : n < wordBound)
include hbase hne

include hn in
theorem baseFirst?_append : baseFirst? (base ++ '+' :: decimal n) = some ⟨base, n⟩ := by
  have hsum := lastSum?_append (not_mem_decimal (c := '+') rfl n) base
  simp [baseFirst?, hsum, hbase.isLine hne, filter_digits?_decimal hn]

theorem baseFirst?_swapped : baseFirst? (decimal n ++ '+' :: base) = none := by
  obtain ⟨c, hc⟩ := List.exists_mem_of_ne_nil base hne
  have hdigits := digits?_eq_none hc (not_isDigit_of_isAlpha (hbase c hc))
  simp [baseFirst?, lastSum?_append (hbase.not_mem (c := '+') rfl), hdigits]

include hn in
theorem baseLast?_append : baseLast? (decimal n ++ '+' :: base) = some ⟨base, n⟩ := by
  have hbreak : breakOn ['+'] (decimal n ++ ['+'] ++ base) = some (decimal n, base) :=
    breakOn_append (not_mem_decimal rfl n) base
  rw [List.append_assoc, List.singleton_append] at hbreak
  simp [baseLast?, hbreak, hbase.isLine hne, filter_digits?_decimal hn]

end Sums

/-- Every spelling of a place is read as that place. -/
theorem Spells.place? {p : Place} {index : List Char} (h : Spells p index) (hbase : IsWord p.base)
    (hoffset : p.offset < wordBound) : place? index = some p := by
  have hcolon : hasColonFrom 0 index = false :=
    hasColonFrom_of_absent 0 (h.not_mem hbase rfl (by decide))
  rw [Term.place?, hcolon]
  cases h with
  | number n =>
    rw [numeral?_decimal hoffset]
    rfl
  | baseFirst n hne =>
    rw [numeral?_word_append hbase hne, baseFirst?_append hbase hne hoffset]
    rfl
  | baseLast n hne =>
    rw [numeral?_eq_none (head?_decimal_append n _) (by simp : '+' ∈ _) rfl,
      baseFirst?_swapped hbase hne, baseLast?_append hbase hne hoffset]
    rfl
  | base hne =>
    have hplus := hbase.not_mem (c := '+') rfl
    have hnumeral := numeral?_word_append hbase hne wordBound []
    have hfirst : baseFirst? index = none := by rw [baseFirst?, lastSum?_eq_none hplus]; rfl
    have hlast : baseLast? index = none := by
      rw [baseLast?, breakOn_eq_none (by decide : '+' ∈ _) hplus]; rfl
    rw [List.append_nil] at hnumeral
    rw [hnumeral, hfirst, hlast]
    rfl

/-! ### Rows of byte reads -/

/-- A read of one byte: whose calldata is read, at which place, and how the index spells it. -/
structure Fetch where
  owner : List Char
  place : Place
  index : List Char
  isOwner : IsOwner owner
  isWord : IsWord place.base
  inRange : place.offset < wordBound
  spells : Spells place index

namespace Fetch

def read (f : Fetch) : Read := ⟨f.owner, f.index⟩

def render (f : Fetch) : List Char := f.read.render

/-- The byte behind that of `f`, in the calldata of the same owner. -/
def follows (f g : Fetch) : Bool :=
  f.owner = g.owner && f.place.base = g.place.base && f.place.offset + 1 = g.place.offset

/-- Adjacent reads as one, from the first to the last. A single read stays as it is spelled. -/
def renderRun : List Fetch → List Char
  | [] => []
  | first :: rest =>
    match rest.getLast? with
    | none => first.render
    | some last => first.read.renderAt (first.place.render ++ ':' :: last.place.render)

/-- A row cut into runs of reads that follow each other, none of which can be continued. -/
structure IsRuns (row : List Fetch) (runs : List (List Fetch)) : Prop where
  flatten : row = runs.flatten
  nonempty : [] ∉ runs
  chain : ∀ run ∈ runs, run.IsChain fun f g => f.follows g = true
  maximal : runs.IsChain fun run next =>
    ∃ hrun hnext, (run.getLast hrun).follows (next.head hnext) = false

/-- Every row can be cut in exactly one way. -/
theorem isRuns_iff {row : List Fetch} {runs : List (List Fetch)} :
    IsRuns row runs ↔ row.splitBy follows = runs := by
  rw [List.splitBy_eq_iff]
  exact ⟨fun h => ⟨h.flatten, h.nonempty, h.chain, h.maximal⟩,
    fun ⟨hflatten, hnonempty, hchain, hmaximal⟩ => ⟨hflatten, hnonempty, hchain, hmaximal⟩⟩

theorem place?_index (f : Fetch) : place? f.index = some f.place :=
  f.spells.place? f.isWord f.inRange

theorem bound_read (f : Fetch) : f.read.bound = f.place.render := by
  rw [Read.bound, read, f.place?_index]
  rfl

theorem precedes_read (f g : Fetch) : f.read.precedes g.read = f.follows g := by
  have hplace : (f.place.next = g.place) ↔
      f.place.base = g.place.base ∧ f.place.offset + 1 = g.place.offset := by
    obtain ⟨base, offset⟩ := g.place
    exact Place.mk.injEq .. ▸ Iff.rfl
  rw [Read.precedes, read, read, f.place?_index, g.place?_index]
  simp [follows, hplace, Bool.and_assoc]

theorem isPlain_read (f : Fetch) : f.read.IsPlain where
  owner := f.isOwner
  nested := (f.spells.isArg f.isWord).mono fun _ _ => trivial
  flat := f.spells.not_mem f.isWord rfl (by decide)

/-- The reads of a row, with their gaps. -/
def spaced (gap : List Char) : List Fetch → List (List Char × Read)
  | [] => []
  | f :: row => (gap, f.read) :: row.map fun g => ([','], g.read)

theorem scan_row (f : Fetch) (row : List Fetch) :
    Reads.scan (joined ((f :: row).map render)) = ⟨spaced [] (f :: row), []⟩ := by
  have hplain : ∀ r ∈ f.read :: row.map read, r.IsPlain := by
    intro r hr
    rcases List.mem_cons.mp hr with rfl | hr
    · exact f.isPlain_read
    · obtain ⟨g, -, rfl⟩ := List.mem_map.mp hr
      exact g.isPlain_read
  have hscan := Reads.scan_row hplain (List.not_mem_nil (a := '_')) rfl
  have hrender : (f.read :: row.map read).map Read.render = (f :: row).map render := by
    rw [List.map_cons, List.map_map]
    rfl
  rw [hrender, List.nil_append, List.map_map] at hscan
  exact hscan

theorem render_run (gap : List Char) (f : Fetch) (rest : List Fetch) :
    Run.render ⟨gap, f.read, rest.getLast?.map read⟩ = gap ++ renderRun (f :: rest) := by
  rw [renderRun]
  cases rest.getLast? with
  | none => rfl
  | some last => rw [Option.map_some, Run.render_range, bound_read, bound_read]

/-- Reads that follow each other become one run in front of the runs of `row`, if these do not
continue it. The induction takes the first read off. -/
theorem runs_spaced_append {f : Fetch} {rest row : List Fetch} {tail : List Run}
    (hchain : (f :: rest).IsChain fun f g => f.follows g = true)
    (htail : Reads.runs (spaced [','] row) = tail)
    (hstop : ∀ next ∈ tail.head?, ((f :: rest).getLast (by simp)).read.precedes next.first = false)
    (gap : List Char) :
    Reads.runs (spaced gap (f :: (rest ++ row))) =
      ⟨gap, f.read, rest.getLast?.map read⟩ :: tail := by
  induction rest generalizing f gap with
  | nil =>
    have hspaced : spaced gap (f :: row) = (gap, f.read) :: spaced [','] row := by
      cases row <;> rfl
    rw [List.nil_append, hspaced, Reads.runs, htail]
    cases tail with
    | nil => rfl
    | cons next more =>
      have hnext : f.read.precedes next.first = false := hstop next (by simp)
      simp [hnext]
  | cons g rest ih =>
    obtain ⟨hfollows, hrest⟩ := List.isChain_cons_cons.mp hchain
    have hruns := ih hrest (by simpa using hstop) [',']
    have hspaced : spaced gap (f :: (g :: rest ++ row)) =
        (gap, f.read) :: spaced [','] (g :: (rest ++ row)) := rfl
    rw [hspaced, Reads.runs, hruns]
    cases hlast : rest.getLast? <;> simp [precedes_read, hfollows, List.getLast?_cons, hlast]

/-- Each run of a row comes out as one. The induction is on the runs. -/
theorem exists_runs_spaced {runs : List (List Fetch)} {f : Fetch} {rest : List Fetch}
    (hnonempty : [] ∉ runs)
    (hchain : ∀ run ∈ (f :: rest) :: runs, run.IsChain fun f g => f.follows g = true)
    (hmaximal : ((f :: rest) :: runs).IsChain fun run next =>
      ∃ hrun hnext, (run.getLast hrun).follows (next.head hnext) = false) (gap : List Char) :
    ∃ more, Reads.runs (spaced gap (f :: (rest ++ runs.flatten))) =
        ⟨gap, f.read, rest.getLast?.map read⟩ :: more ∧
      more.flatMap Run.render = runs.flatMap fun run => ',' :: renderRun run := by
  induction runs generalizing f rest gap with
  | nil =>
    have hnone : Reads.runs (spaced [','] []) = [] := rfl
    exact ⟨[], runs_spaced_append (hchain _ List.mem_cons_self) hnone (by simp) gap, rfl⟩
  | cons run runs ih =>
    obtain ⟨g, rest', rfl⟩ := List.exists_cons_of_ne_nil (List.ne_of_not_mem_cons hnonempty).symm
    obtain ⟨⟨_, _, hstop⟩, hmaximal'⟩ := List.isChain_cons_cons.mp hmaximal
    obtain ⟨more, hruns, hmore⟩ := ih (List.not_mem_of_not_mem_cons hnonempty)
      (fun run hrun => hchain run (List.mem_cons_of_mem _ hrun)) hmaximal' [',']
    refine ⟨_, runs_spaced_append (hchain _ List.mem_cons_self) hruns ?_ gap, ?_⟩
    · simpa [precedes_read] using hstop
    · rw [List.flatMap_cons, List.flatMap_cons, hmore, render_run]
      rfl

theorem joined_cons_eq_append (a : List Char) (args : List (List Char)) :
    joined (a :: args) = a ++ args.flatMap fun b => ',' :: b := by
  induction args generalizing a with
  | nil => simp [joined, List.intercalate]
  | cons b args ih => rw [joined_cons (by simp), ih, List.flatMap_cons, List.cons_append]

theorem mergeReads_of_isRuns {row : List Fetch} {runs : List (List Fetch)} (hne : row ≠ [])
    (h : IsRuns row runs) : mergeReads (joined (row.map render)) = joined (runs.map renderRun) := by
  obtain ⟨hflatten, hnonempty, hchain, hmaximal⟩ := h
  have hruns : runs ≠ [] := by
    rintro rfl
    exact hne hflatten
  obtain ⟨run, runs, rfl⟩ := List.exists_cons_of_ne_nil hruns
  obtain ⟨f, rest, rfl⟩ := List.exists_cons_of_ne_nil (List.ne_of_not_mem_cons hnonempty).symm
  obtain ⟨more, hfirst, hmore⟩ := exists_runs_spaced (List.not_mem_of_not_mem_cons hnonempty)
    hchain hmaximal []
  rw [hflatten, List.flatten_cons, List.cons_append, mergeReads, scan_row, Reads.render, hfirst,
    List.flatMap_cons, hmore, render_run, List.map_cons, joined_cons_eq_append, List.flatMap_map]
  simp

end Fetch

open Fetch

/-- A row of byte reads becomes the row of its maximal runs, of which there is one way to cut it
into. -/
theorem mergeReads_fetches {row : List Fetch} (hne : row ≠ []) :
    (∃! runs, IsRuns row runs) ∧
      ∀ runs, IsRuns row runs →
        mergeReads (joined (row.map Fetch.render)) = joined (runs.map renderRun) :=
  ⟨⟨row.splitBy follows, isRuns_iff.mpr rfl, fun _ h => (isRuns_iff.mp h).symm⟩,
    fun _ => mergeReads_of_isRuns hne⟩

/-- A byte of `owner` behind the base `e`. -/
def fetchBehind (owner : Char) (h : owner.isAlphanum = true) (n : Nat) (hn : n < wordBound)
    {index : List Char} (hindex : Spells ⟨['e'], n⟩ index) : Fetch where
  owner := [owner]
  place := ⟨['e'], n⟩
  index := index
  isOwner := ⟨List.cons_ne_nil _ _, by simpa using h⟩
  isWord := show IsWord ['e'] from List.all_eq_true.mp (by decide)
  inRange := hn
  spells := hindex

/-- A byte of `owner` without a base. -/
def fetchAt (owner : Char) (h : owner.isAlphanum = true) (n : Nat) (hn : n < wordBound) : Fetch where
  owner := [owner]
  place := ⟨[], n⟩
  index := decimal n
  isOwner := ⟨List.cons_ne_nil _ _, by simpa using h⟩
  isWord := nofun
  inRange := hn
  spells := .number n

/-- Two reads that follow each other in three spellings, and reads that follow nothing: behind a
gap, behind the last place there is, and of another owner. -/
def mixedRow : List Fetch :=
  [fetchBehind '4' rfl 0 (by decide) (.base (by decide)),
    fetchBehind '4' rfl 1 (by decide) (.baseLast 1 (by decide)),
    fetchBehind '4' rfl 2 (by decide) (.baseFirst 2 (by decide)),
    fetchBehind '4' rfl 4 (by decide) (.baseLast 4 (by decide)),
    fetchAt '4' rfl 18446744073709551615 (by decide), fetchAt '4' rfl 0 (by decide),
    fetchAt '5' rfl 1 (by decide)]

theorem mergeReads_mixedRow :
    mixedRow ≠ [] ∧
      joined (mixedRow.map Fetch.render) = ("4_calldata[e],4_calldata[1+e],4_calldata[e+2]," ++
        "4_calldata[4+e],4_calldata[18446744073709551615],4_calldata[0],5_calldata[1]").toList ∧
      mergeReads (joined (mixedRow.map Fetch.render)) = ("4_calldata[e:e+2],4_calldata[4+e]," ++
        "4_calldata[18446744073709551615],4_calldata[0],5_calldata[1]").toList := by
  have hne : mixedRow ≠ [] := List.cons_ne_nil _ _
  refine ⟨hne, by decide +kernel, ?_⟩
  rw [(mergeReads_fetches hne).2 (mixedRow.splitBy follows) (isRuns_iff.mpr rfl)]
  decide +kernel

end Term
end OperandFlow
