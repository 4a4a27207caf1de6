import OperandFlow.Term.Guard
import OperandFlow.Text.Numeral

/-! Calldata reads: runs of reads at adjacent offsets become one read of a range. -/
namespace OperandFlow.Term
open Text

/-- Stands between the owner of a read and its index. -/
def readOpening : List Char := "_calldata[".toList

/-- Where a single read takes place: `offset` bytes behind a base that may be symbolic. -/
structure Place where
  base : List Char
  offset : Nat
deriving DecidableEq

namespace Place

def render (p : Place) : List Char :=
  if p.base.isEmpty then decimal p.offset
  else if p.offset = 0 then p.base
  else p.base ++ '+' :: decimal p.offset

/-- The place right behind `p`. -/
def next (p : Place) : Place :=
  { p with offset := p.offset + 1 }

end Place

/-- A colon outside all brackets, read on at `depth`. -/
def hasColonFrom (depth : Int) : List Char → Bool
  | [] => false
  | c :: cs => (c = ':' && depth = 0) || hasColonFrom (depth + nesting c) cs

/-- Splits at the last plus sign. -/
def lastSum? (cs : List Char) : Option (List Char × List Char) :=
  (breakOn ['+'] cs.reverse).map fun (after, before) => (before.reverse, after.reverse)

/-- A base in front of a constant offset. -/
def baseFirst? (index : List Char) : Option Place := do
  let (base, offset) ← lastSum? index
  guard (isLine base)
  return ⟨base, ← (digits? 10 offset).filter (· < wordBound)⟩

/-- A base behind a constant offset. -/
def baseLast? (index : List Char) : Option Place := do
  let (offset, base) ← breakOn ['+'] index
  guard (isLine base)
  return ⟨base, ← (digits? 10 offset).filter (· < wordBound)⟩

/-- The place an index denotes, unless it is a range already. -/
def place? (index : List Char) : Option Place :=
  if hasColonFrom 0 index then none
  else
    ((numeral? 10 wordBound index).map (⟨[], ·⟩)
      <|> baseFirst? index
      <|> baseLast? index
      <|> some ⟨index, 0⟩)

/-- One read of the calldata of `owner`. -/
structure Read where
  owner : List Char
  index : List Char

namespace Read

/-- The second read starts where the first one ends. -/
def precedes (r s : Read) : Bool :=
  r.owner = s.owner &&
    match place? r.index, place? s.index with
    | some p, some q => p.next = q
    | _, _ => false

def renderAt (r : Read) (index : List Char) : List Char :=
  r.owner ++ readOpening ++ index ++ [']']

end Read

/-- Adjacent reads, from the first to the last, behind the text `gap`. -/
structure Run where
  gap : List Char
  first : Read
  last : Option Read

namespace Run

def render (r : Run) : List Char :=
  r.gap ++ match r.last with
    | none => r.first.renderAt r.first.index
    | some last =>
      let bound (read : Read) := ((place? read.index).map Place.render).getD read.index
      r.first.renderAt (bound r.first ++ ':' :: bound last)

end Run

/-- A text as its reads, each behind the text that separates it from the one before. -/
structure Reads where
  reads : List (List Char × Read)
  tail : List Char

namespace Reads

def prepend (cs : List Char) : Reads → Reads
  | ⟨[], tail⟩ => ⟨[], cs ++ tail⟩
  | ⟨(gap, r) :: rest, tail⟩ => ⟨(cs ++ gap, r) :: rest, tail⟩

/-- Joins the reads that follow each other across a single comma. -/
def runs : List (List Char × Read) → List Run
  | [] => []
  | (gap, r) :: rest =>
    match runs rest with
    | [] => [⟨gap, r, none⟩]
    | next :: more =>
      if next.gap = [','] && r.precedes next.first then
        ⟨gap, r, some (next.last.getD next.first)⟩ :: more
      else ⟨gap, r, none⟩ :: next :: more

def render (s : Reads) : List Char :=
  (runs s.reads).flatMap Run.render ++ s.tail

/-- The letters and digits at the end of a text, and what stands before them. -/
def splitOwner (cs : List Char) : List Char × List Char :=
  let back := cs.reverse
  ((back.dropWhile Char.isAlphanum).reverse, (back.takeWhile Char.isAlphanum).reverse)

theorem length_after_read {text before after : List Char}
    (h : breakOn readOpening text = some (before, after)) : after.length < text.length := by
  have hlen := length_of_breakOn h
  have hmark : readOpening.length = 10 := rfl
  omega

/-- The reads of a text, with those inside their indices merged. -/
def scan (text : List Char) : Reads :=
  match h : breakOn readOpening text with
  | none => ⟨[], text⟩
  | some (before, after) =>
    have := length_after_read h
    let (gap, owner) := splitOwner before
    match owner.isEmpty, g : group? ']' after with
    | false, some (inside, rest) =>
      have := length_of_group? g
      let tail := scan rest
      ⟨(gap, ⟨owner, (scan inside).render⟩) :: tail.reads, tail.tail⟩
    | _, _ => (scan after).prepend (before ++ readOpening)
termination_by text.length

end Reads

/-- Merges runs of single reads at adjacent offsets into reads of a range. -/
def mergeReads (text : List Char) : List Char :=
  (Reads.scan text).render

/-- Drops the zeros that pad the front of a concatenation. -/
def dropPadding : List Char → List Char
  | '0' :: ',' :: cs => dropPadding cs
  | cs => cs

end OperandFlow.Term
