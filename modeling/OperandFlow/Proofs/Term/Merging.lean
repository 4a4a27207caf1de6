import OperandFlow.Proofs.Term.Ranges
import OperandFlow.Proofs.Term.Scanning

/-! Merging twice: what merging writes is scanned as the runs it wrote, and none of these continues
the one before it. -/
namespace OperandFlow.Term
open Text

/-! ### Settled texts -/

/-- A text whose brackets match, with no reads left to merge. -/
structure IsSettled (text : List Char) : Prop where
  nested : Nested (fun _ => True) text
  merged : mergeReads text = text

namespace IsSettled

variable {a b : List Char} {c : Char}

theorem append_cons (ha : IsSettled a) (hb : IsSettled b) (hc : Separates c)
    (hopen : closer? c = none) (hclose : isCloser c = false) : IsSettled (a ++ c :: b) where
  nested := ha.nested.append (.plain hopen hclose trivial hb.nested)
  merged := by rw [mergeReads_append_cons ha.nested hc, ha.merged, hb.merged]

theorem decimal (n : Nat) : IsSettled (decimal n) where
  nested := (isArg_decimal n).mono fun _ _ => trivial
  merged := mergeReads_of_absent (not_mem_decimal rfl n)

/-- The base of a sum is settled if the sum is, on whichever side it stands. -/
theorem of_sum {base offset : List Char} {n : Nat} (hoffset : digits? 10 offset = some n)
    (h : IsSettled (base ++ '+' :: offset) ∨ IsSettled (offset ++ '+' :: base)) :
    IsSettled base := by
  have hdigit : ∀ c ∈ offset, isNameChar c = true := fun c hc => by
    have hc := isDigit_of_digit? ((digits?_eq_some_iff.mp hoffset).2.1 c hc)
    simp [isNameChar, Char.isAlphanum, hc]
  rcases h with h | h
  · have hback : ∀ c ∈ '+' :: offset, isCloser c = false := by
      intro c hc
      rcases List.mem_cons.mp hc with rfl | hc
      · rfl
      · exact (plain_of_isNameChar (hdigit c hc)).2.1
    have hbase := h.nested.of_append_plain hback
    exact ⟨hbase, (settled_of_append_cons hbase separates_plus h.merged).1⟩
  · obtain ⟨hnested, hrest⟩ := h.nested.of_word_append hdigit
    exact ⟨(hrest.of_cons_plain rfl).2, (settled_of_append_cons hnested separates_plus h.merged).2⟩

/-- A place is written as a settled text if its index is one. -/
theorem render {index : List Char} {p : Place} (h : place? index = some p)
    (hindex : IsSettled index) : IsSettled p.render := by
  obtain ⟨n, -, rfl⟩ | ⟨offset, hline, hoffset, hsum⟩ | rfl := place?_cases h
  · exact decimal n
  · have hbase : IsSettled p.base := by
      refine of_sum hoffset ?_
      rcases hsum with rfl | rfl
      · exact .inl hindex
      · exact .inr hindex
    rw [Place.render]
    split
    · exact decimal p.offset
    · split
      · exact hbase
      · exact hbase.append_cons (decimal p.offset) separates_plus rfl rfl
  · cases index with
    | nil => exact decimal 0
    | cons c cs => exact hindex

theorem bound {r : Read} (h : IsSettled r.index) : IsSettled r.bound := by
  rw [Read.bound]
  cases hplace : place? r.index with
  | none => exact h
  | some p => exact h.render hplace

end IsSettled

/-- A colon behind a nested text stands outside of its brackets. -/
theorem hasColonFrom_append {p : Char → Prop} {cs : List Char} (h : Nested p cs) {depth : Int}
    {rest : List Char} (hrest : hasColonFrom depth rest = true) :
    hasColonFrom depth (cs ++ rest) = true := by
  induction h generalizing depth rest with
  | nil => exact hrest
  | plain hopen hclose _ _ ih =>
    simp [hasColonFrom, nesting, hopen, hclose, ih hrest]
  | @group p c d inside cs hopen _ _ ihInside ihRest =>
    obtain ⟨hclosing, hcloser⟩ := isCloser_of_closer? hopen
    have hbehind : hasColonFrom (depth + 1) (d :: (cs ++ rest)) = true := by
      simp [hasColonFrom, nesting, hclosing, hcloser, ihRest hrest]
    simpa [hasColonFrom, nesting, hopen] using Or.inr (ihInside hbehind)

/-- A range is no place. -/
theorem place?_range {p : Char → Prop} {first : List Char} (h : Nested p first) (last : List Char) :
    place? (first ++ ':' :: last) = none := by
  have hcolon : hasColonFrom 0 (':' :: last) = true := by simp [hasColonFrom]
  rw [place?, if_pos (hasColonFrom_append h hcolon)]

/-! ### Reads and runs as they are found -/

theorem Read.precedes_eq_false {r s : Read} (h : place? r.index = none ∨ place? s.index = none) :
    r.precedes s = false := by
  rcases h with h | h
  · simp [Read.precedes, h]
  · cases hr : place? r.index <;> simp [Read.precedes, h, hr]

/-- A read that scanning finds: it has an owner, and its index is settled. -/
structure Read.IsFound (r : Read) : Prop where
  owner : IsOwner r.owner
  index : IsSettled r.index

theorem Read.IsFound.nested {r : Read} (h : r.IsFound) : Nested (fun _ => True) r.render :=
  (isArg_render h.owner h.index.nested).mono fun _ _ => trivial

namespace Run

/-- A run as one read. -/
def read (run : Run) : Read where
  owner := run.first.owner
  index := (run.last.map fun last => run.first.bound ++ ':' :: last.bound).getD run.first.index

theorem render_eq_append (run : Run) : run.render = run.gap ++ run.read.render := by
  obtain ⟨gap, first, last⟩ := run
  cases last <;> rfl

/-- The first read of a run and the last one are found. -/
structure IsFound (run : Run) : Prop where
  first : run.first.IsFound
  last : ∀ r ∈ run.last, r.IsFound

theorem IsFound.read {run : Run} (h : run.IsFound) : run.read.IsFound := by
  refine ⟨h.first.owner, ?_⟩
  rw [Run.read]
  cases hlast : run.last with
  | none => exact h.first.index
  | some last =>
    exact h.first.index.bound.append_cons (h.last last hlast).index.bound separates_colon rfl rfl

/-- Nothing continues a run of two reads or more, or precedes it. -/
theorem IsFound.place?_index {run : Run} (h : run.IsFound) (hlast : run.last ≠ none) :
    place? run.read.index = none := by
  obtain ⟨last, hlast⟩ := Option.ne_none_iff_exists'.mp hlast
  rw [Run.read, hlast]
  exact place?_range h.first.index.bound.nested last.bound

end Run

namespace Reads

/-- Reads as scanning finds them. -/
def AllFound (reads : List (List Char × Read)) : Prop := ∀ x ∈ reads, x.2.IsFound

theorem allFound_cons {gap : List Char} {r : Read} {reads : List (List Char × Read)} :
    AllFound ((gap, r) :: reads) ↔ r.IsFound ∧ AllFound reads :=
  List.forall_mem_cons

theorem allFound_prepend {cs : List Char} {s : Reads} :
    AllFound (s.prepend cs).reads ↔ AllFound s.reads := by
  obtain ⟨reads, tail⟩ := s
  cases reads with
  | nil => exact Iff.rfl
  | cons x reads => exact allFound_cons.trans allFound_cons.symm

section Runs

variable {reads : List (List Char × Read)}

theorem isFound_of_mem_runs (h : AllFound reads) : ∀ run ∈ runs reads, run.IsFound := by
  induction reads with
  | nil => exact List.forall_mem_nil _
  | cons x reads ih =>
    obtain ⟨gap, r⟩ := x
    obtain ⟨hr, hreads⟩ := allFound_cons.mp h
    have hruns := ih hreads
    obtain ⟨heq, -⟩ | ⟨next, more, hnext, -, -, heq⟩ := runs_cons_cases gap r reads
    · rw [heq, List.forall_mem_cons]
      exact ⟨⟨hr, by simp⟩, hruns⟩
    · rw [hnext, List.forall_mem_cons] at hruns
      rw [heq, List.forall_mem_cons]
      refine ⟨⟨hr, ?_⟩, hruns.2⟩
      rintro last ⟨⟩
      cases hlast : next.last with
      | none => exact hruns.1.first
      | some last => exact hruns.1.last last hlast

/-- A run is not continued by the next one. -/
theorem isChain_runs (h : AllFound reads) :
    (runs reads).IsChain
      fun run next => next.gap = [','] → run.read.precedes next.read = false := by
  induction reads with
  | nil => exact .nil
  | cons x reads ih =>
    obtain ⟨gap, r⟩ := x
    have hchain := ih (allFound_cons.mp h).2
    have hfound := isFound_of_mem_runs h
    obtain ⟨heq, hstop⟩ | ⟨next, more, hnext, -, -, heq⟩ := runs_cons_cases gap r reads
    · rw [heq] at hfound ⊢
      refine List.isChain_cons.mpr ⟨fun next hhead hgap => ?_, hchain⟩
      have hsingle : r.precedes next.first = false := hstop next hhead hgap
      cases hlast : next.last with
      | none =>
        have hread : next.read = next.first := by rw [Run.read, hlast]; rfl
        rw [hread]
        exact hsingle
      | some last =>
        have hrange := hfound next (List.mem_cons_of_mem _ (List.mem_of_mem_head? hhead))
        exact Read.precedes_eq_false (.inr (hrange.place?_index (by simp [hlast])))
    · rw [hnext] at hchain
      rw [heq] at hfound ⊢
      refine List.isChain_cons.mpr ⟨fun _ _ _ => ?_, hchain.tail⟩
      -- The two were joined, so that the result is a range.
      have hrange := hfound _ List.mem_cons_self
      exact Read.precedes_eq_false (.inl (hrange.place?_index (by simp)))

/-- Reads that do not continue each other are runs of their own. -/
theorem runs_of_isChain
    (h : reads.IsChain fun x y => y.1 = [','] → x.2.precedes y.2 = false) :
    runs reads = reads.map fun x => ⟨x.1, x.2, none⟩ := by
  induction reads with
  | nil => rfl
  | cons x reads ih =>
    obtain ⟨gap, r⟩ := x
    have hruns := ih h.tail
    obtain ⟨heq, -⟩ | ⟨next, more, hnext, hgap, hjoin, -⟩ := runs_cons_cases gap r reads
    · rw [heq, hruns]
      rfl
    · rw [hruns] at hnext
      cases reads with
      | nil => cases hnext
      | cons y reads =>
        obtain ⟨rfl, -⟩ := List.cons.inj hnext
        have hstop : r.precedes y.2 = false := (List.isChain_cons_cons.mp h).1 hgap
        rw [hstop] at hjoin
        cases hjoin

end Runs

theorem apart_cons (gap : List Char) (r : Read) (s : Reads) :
    apart ⟨(gap, r) :: s.reads, s.tail⟩ = gap ++ r.render ++ s.apart := by
  simp [apart, Run.render_single, Read.render]

/-- The runs of a text as its reads. -/
def merged (s : Reads) : Reads :=
  ⟨(runs s.reads).map fun run => (run.gap, run.read), s.tail⟩

theorem apart_merged (s : Reads) : s.merged.apart = s.render := by
  have hrun : ∀ run : Run, Run.render ⟨run.gap, run.read, none⟩ = run.render := fun run =>
    run.render_eq_append.symm
  rw [apart, merged, render, List.flatMap_map]
  simp only [hrun]

theorem isChain_merged {s : Reads} (h : AllFound s.reads) :
    s.merged.reads.IsChain fun x y => y.1 = [','] → x.2.precedes y.2 = false :=
  (List.isChain_map _).mpr (isChain_runs h)

theorem render_merged {s : Reads} (h : AllFound s.reads) : s.merged.render = s.merged.apart := by
  rw [render, runs_of_isChain (isChain_merged h), List.flatMap_map]
  rfl

theorem merged_prepend (cs : List Char) (s : Reads) :
    (s.prepend cs).merged = s.merged.prepend cs := by
  obtain ⟨reads, tail⟩ := s
  cases reads with
  | nil => rfl
  | cons x rest =>
    obtain ⟨gap, r⟩ := x
    obtain ⟨last, more, hruns⟩ := exists_runs_cons r rest
    simp [prepend, merged, hruns, Run.read]

/-! ### Brackets around reads -/

theorem sameBrackets_runs {reads : List (List Char × Read)} (h : AllFound reads) :
    SameBrackets (reads.flatMap fun (gap, r) => Run.render ⟨gap, r, none⟩)
      ((runs reads).flatMap Run.render) := by
  induction reads with
  | nil => exact .refl _
  | cons x reads ih =>
    obtain ⟨gap, r⟩ := x
    obtain ⟨hr, hreads⟩ := allFound_cons.mp h
    have hfirst := (SameBrackets.refl (Run.render ⟨gap, r, none⟩)).append (ih hreads)
    obtain ⟨heq, -⟩ | ⟨next, more, hnext, hgap, -, heq⟩ := runs_cons_cases gap r reads
    · rw [heq, List.flatMap_cons, List.flatMap_cons]
      exact hfirst
    · -- A read, a comma and a run have the brackets of one range, as all of them are nested.
      have hrange := isFound_of_mem_runs h _ (by rw [heq]; exact List.mem_cons_self)
      have hrun := isFound_of_mem_runs hreads next (by simp [hnext])
      have hfront : Nested (fun _ => True) (r.render ++ ',' :: next.read.render) :=
        hr.nested.append (.plain rfl rfl trivial hrun.read.nested)
      have hjoin := ((SameBrackets.refl gap).append
        (.of_nested hfront hrange.read.nested)).append (.refl (more.flatMap Run.render))
      rw [hnext, List.flatMap_cons, next.render_eq_append, hgap] at hfirst
      rw [heq, List.flatMap_cons, List.flatMap_cons, Run.render_eq_append]
      refine hfirst.trans ?_
      simpa [Run.render_single, Read.render] using hjoin

theorem sameBrackets_scan {text : List Char} (h : AllFound (scan text).reads) :
    SameBrackets text (scan text).apart := by
  induction text using scan.induct with
  | case1 text hnone =>
    rw [scan_of_none hnone]
    exact .refl text
  | case2 text before after hbreak _ gap owner hsplit inside rest hgroup howner _ ihRest =>
    have hbefore := splitOwner_append before
    rw [hsplit] at hbefore
    obtain ⟨hafter, hinside⟩ := (group?_eq_some_iff rfl).mp hgroup
    have htext : text = gap ++ Read.render ⟨owner, inside⟩ ++ rest := by
      rw [eq_append_of_breakOn hbreak, hafter, ← hbefore]
      simp [Read.render, Read.renderAt]
    rw [scan_of_read hbreak hsplit howner hgroup] at h ⊢
    obtain ⟨hread, hrest⟩ := allFound_cons.mp h
    have hindex : SameBrackets (Read.render ⟨owner, inside⟩)
        (Read.render ⟨owner, mergeReads inside⟩) :=
      .of_nested (isArg_render hread.owner hinside) hread.nested
    have hall := ((SameBrackets.refl gap).append hindex).append (ihRest hrest)
    rw [htext, apart_cons]
    exact hall
  | case3 text before after hbreak _ gap owner hsplit hnot ih =>
    have hskip := skip_of_not_read hsplit hnot
    rw [scan_of_skip hbreak hskip] at h ⊢
    rw [apart_prepend, eq_append_of_breakOn hbreak]
    exact (SameBrackets.refl _).append (ih (allFound_prepend.mp h))

theorem sameBrackets_mergeReads {text : List Char} (h : AllFound (scan text).reads) :
    SameBrackets text (mergeReads text) :=
  (sameBrackets_scan h).trans ((sameBrackets_runs h).append (.refl (scan text).tail))

/-! ### Scanning again -/

/-- Reads that are found again where each of them is written by itself. They are followed as
scanning goes: no read is left, the first opening belongs to a read, or it is passed over. -/
inductive Rescans : Reads → Prop where
  | tail {text : List Char} : breakOn readOpening text = none → Rescans ⟨[], text⟩
  | read {gap : List Char} {r : Read} {s : Reads} :
    (∀ rest, breakOn readOpening (gap ++ r.owner ++ readOpening ++ rest) =
      some (gap ++ r.owner, rest)) →
    splitOwner (gap ++ r.owner) = (gap, r.owner) → r.IsFound → Rescans s →
      Rescans ⟨(gap, r) :: s.reads, s.tail⟩
  | skip {before : List Char} {s : Reads} :
    (∀ rest, breakOn readOpening (before ++ readOpening ++ rest) = some (before, rest)) →
    (splitOwner before).2.isEmpty = true ∨ group? ']' s.apart = none → Rescans s →
      Rescans (s.prepend (before ++ readOpening))

theorem scan_apart {s : Reads} (h : Rescans s) : scan s.apart = s := by
  induction h with
  | tail hnone => exact scan_of_none hnone
  | @read gap r s hbreak hsplit hr _ ih =>
    have htext : gap ++ r.render ++ s.apart =
        gap ++ r.owner ++ readOpening ++ (r.index ++ ']' :: s.apart) := by
      simp [Read.render, Read.renderAt]
    have hgroup := hr.index.nested.group?_append ']' rfl s.apart
    rw [apart_cons, htext, scan_of_read (hbreak _) hsplit (by simpa using hr.owner.nonempty) hgroup,
      hr.index.merged, ih]
  | @skip before s hbreak hskip _ ih =>
    rw [apart_prepend, scan_of_skip (hbreak _) hskip, ih]

/-- What stands before the first read does not matter for those behind it. -/
theorem Rescans.rest {x : List Char × Read} {reads : List (List Char × Read)} {tail : List Char}
    (h : Rescans ⟨x :: reads, tail⟩) : Rescans ⟨reads, tail⟩ := by
  generalize hs : Reads.mk (x :: reads) tail = s at h
  induction h generalizing x with
  | tail => cases hs
  | @read gap r s _ _ _ hrest _ =>
    obtain ⟨hreads, rfl⟩ := Reads.mk.inj hs
    obtain ⟨-, rfl⟩ := List.cons.inj hreads
    exact hrest
  | @skip before s _ _ _ ih =>
    obtain ⟨reads', tail'⟩ := s
    cases reads' with
    | nil => cases hs
    | cons y reads' =>
      obtain ⟨hreads, rfl⟩ := Reads.mk.inj hs
      obtain ⟨-, rfl⟩ := List.cons.inj hreads
      exact ih rfl

/-- The runs of a text are found again as reads. -/
theorem rescans_merged {text : List Char} (h : AllFound (scan text).reads) :
    Rescans (scan text).merged := by
  induction text using scan.induct with
  | case1 text hnone =>
    rw [scan_of_none hnone]
    exact .tail hnone
  | case2 text before after hbreak _ gap owner hsplit inside rest hgroup howner _ ihRest =>
    have hbefore := splitOwner_append before
    rw [hsplit] at hbefore
    have hfirst := breakOn_before_append readOpening_ne_nil hbreak
    rw [scan_of_read hbreak hsplit howner hgroup] at h ⊢
    have hrest := ihRest (allFound_cons.mp h).2
    subst hbefore
    have hfound := isFound_of_mem_runs h
    obtain ⟨heq, -⟩ | ⟨next, more, hnext, -, -, heq⟩ :=
      runs_cons_cases gap ⟨owner, mergeReads inside⟩ (scan rest).reads
    · rw [heq] at hfound
      rw [merged, heq]
      exact .read hfirst hsplit (hfound _ List.mem_cons_self).read hrest
    · -- The run behind the read is now part of it, and what follows that run is found as before.
      rw [heq] at hfound
      rw [merged, hnext] at hrest
      rw [merged, heq]
      exact .read hfirst hsplit (hfound _ List.mem_cons_self).read hrest.rest
  | case3 text before after hbreak _ gap owner hsplit hnot ih =>
    have hskip := skip_of_not_read hsplit hnot
    rw [scan_of_skip hbreak hskip] at h ⊢
    rw [merged_prepend]
    rw [allFound_prepend] at h
    refine .skip (breakOn_before_append readOpening_ne_nil hbreak) ?_ (ih h)
    -- Merging keeps the brackets, so that an opening without a partner does not get one.
    rw [apart_merged]
    exact hskip.imp_right (sameBrackets_mergeReads h).group?_eq_none.mp

/-- The merged text is scanned as its runs. -/
theorem scan_mergeReads {text : List Char} (h : AllFound (scan text).reads) :
    scan (mergeReads text) = (scan text).merged := by
  have hmerged : mergeReads text = (scan text).merged.apart := (apart_merged _).symm
  rw [hmerged, scan_apart (rescans_merged h)]

theorem mergeReads_mergeReads {text : List Char} (h : AllFound (scan text).reads) :
    mergeReads (mergeReads text) = mergeReads text := by
  rw [mergeReads, scan_mergeReads h, render_merged h, apart_merged]
  rfl

/-- Every read that scanning finds has a settled index: the index was merged, and by the induction on
the scan, merging it again changes nothing. -/
theorem allFound_scan (text : List Char) : AllFound (scan text).reads := by
  induction text using scan.induct with
  | case1 text hnone =>
    rw [scan_of_none hnone]
    exact List.forall_mem_nil _
  | case2 text before after hbreak _ gap owner hsplit inside rest hgroup howner _ ihRest ihInside =>
    have hinside := ((group?_eq_some_iff rfl).mp hgroup).2
    rw [scan_of_read hbreak hsplit howner hgroup, allFound_cons]
    refine ⟨⟨⟨by simpa using howner, ?_⟩, ?_⟩, ihRest⟩
    · intro c hc
      refine isAlphanum_of_mem_owner before ?_
      rw [hsplit]
      exact hc
    · exact ⟨(sameBrackets_mergeReads ihInside).nested hinside, mergeReads_mergeReads ihInside⟩
  | case3 text before after hbreak _ gap owner hsplit hnot ih =>
    have hskip := skip_of_not_read hsplit hnot
    rw [scan_of_skip hbreak hskip, allFound_prepend]
    exact ih

end Reads

/-- Merging the reads of a text a second time changes nothing, whatever the text. No read of the
result follows the one before it across a comma. -/
theorem mergeReads_idempotent (text : List Char) :
    mergeReads (mergeReads text) = mergeReads text ∧
      (Reads.scan (mergeReads text)).reads.IsChain
        fun x y => y.1 = [','] → x.2.precedes y.2 = false := by
  have hfound := Reads.allFound_scan text
  refine ⟨Reads.mergeReads_mergeReads hfound, ?_⟩
  rw [Reads.scan_mergeReads hfound]
  exact Reads.isChain_merged hfound

end OperandFlow.Term
