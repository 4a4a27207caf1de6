import OperandFlow.Text.Search

/-! Bracket groups of a rendered term. Round and square brackets nest; a bracket without a partner
is plain text. -/
namespace OperandFlow.Term
open Text

/-- The bracket that closes the group which `c` opens. -/
def closer? : Char → Option Char
  | '(' => some ')'
  | '[' => some ']'
  | _ => none

def isCloser (c : Char) : Bool :=
  c = ')' || c = ']'

/-- Reads on inside the groups whose closers are `awaited`, innermost first. The result is what
stands before and after the bracket that closes the outermost one. -/
def closeFrom (awaited seen : List Char) : List Char → Option (List Char × List Char)
  | [] => none
  | c :: cs =>
    match closer? c with
    | some d => closeFrom (d :: awaited) (c :: seen) cs
    | none =>
      if isCloser c then
        match awaited with
        | [] => none
        | [d] => if c = d then some (seen.reverse, cs) else none
        | d :: outer => if c = d then closeFrom outer (c :: seen) cs else none
      else closeFrom awaited (c :: seen) cs

/-- The inside of a group and what follows it, where `text` stands behind its opening bracket. -/
def group? (closing : Char) (text : List Char) : Option (List Char × List Char) :=
  closeFrom [closing] [] text

/-- Byte offset of the bracket that closes the one at byte `offset`. -/
def closeIndex? (text : List Char) (offset : Nat) : Option Nat := do
  match ← suffixAt? offset text with
  | [] => none
  | c :: rest =>
    let (inside, _) ← group? (← closer? c) rest
    some (offset + c.utf8Size + byteLength inside)

/-- How a character changes the nesting depth. -/
def nesting (c : Char) : Int :=
  if (closer? c).isSome then 1 else if isCloser c then -1 else 0

/-- Reads on at `depth` with the part so far in reverse. -/
def splitFrom (depth : Int) (part : List Char) : List Char → List (List Char)
  | [] => [part.reverse]
  | c :: cs =>
    if c = ',' ∧ depth = 0 then part.reverse :: splitFrom 0 [] cs
    else splitFrom (depth + nesting c) (c :: part) cs

/-- The parts between the commas that stand outside all brackets. -/
def splitArgs (text : List Char) : List (List Char) :=
  splitFrom 0 [] text

theorem eq_append_of_closeFrom {awaited seen text inside rest : List Char}
    (h : closeFrom awaited seen text = some (inside, rest)) :
    ∃ c, seen.reverse ++ text = inside ++ c :: rest := by
  fun_induction closeFrom awaited seen text <;> simp_all

theorem length_of_group? {closing : Char} {text inside rest : List Char}
    (h : group? closing text = some (inside, rest)) :
    inside.length + rest.length < text.length := by
  obtain ⟨c, hc⟩ := eq_append_of_closeFrom h
  have := congrArg List.length hc
  simp at this
  omega

end OperandFlow.Term
