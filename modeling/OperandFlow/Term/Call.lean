import OperandFlow.Term.Group

/-! Calls in a rendered term, and replacing them from the inside out. -/
namespace OperandFlow.Term
open Text

/-- The name of a call, which is never empty. -/
structure Callee where
  chars : List Char
  nonempty : chars ≠ []

namespace Callee

/-- The name together with its opening bracket. -/
def opening (callee : Callee) : List Char :=
  callee.chars ++ ['(']

def withArgs (callee : Callee) (args : List Char) : List Char :=
  callee.opening ++ args ++ [')']

end Callee

/-- Letters, digits and the underscore make up names. -/
def isNameChar (c : Char) : Bool :=
  c.isAlphanum || c = '_'

/-- Replaces the calls of `text`, where `last` is the character in front of it. Each call is offered
to `ask` with its arguments, and `ask` may remember what it was offered. -/
def replaceWith {σ : Type} (callee : Callee)
    (ask : List (List Char) → StateM σ (Option (List Char))) (last : Option Char)
    (text : List Char) : StateM σ (List Char) :=
  match h : breakOn callee.opening text with
  | none => pure text
  | some (before, after) =>
    have hlen := length_of_breakOn h
    have hopen : callee.opening.length = callee.chars.length + 1 := by simp [Callee.opening]
    have hpos := List.length_pos_iff.2 callee.nonempty
    match (before.getLast?.or last).any isNameChar, g : group? ')' after with
    | false, some (inside, rest) => do
      have hgroup := length_of_group? g
      let inner ← replaceWith callee ask none inside
      let answer ← ask (splitArgs inner)
      let tail ← replaceWith callee ask (some ')') rest
      return before ++ answer.getD (callee.withArgs inner) ++ tail
    | _, _ => do
      let tail ← replaceWith callee ask callee.chars.getLast? ('(' :: after)
      return before ++ callee.chars ++ tail
termination_by text.length

/-- A text with its calls replaced, and the arguments of every call that was offered a replacement,
in order. -/
structure Replaced where
  text : List Char
  offered : List (List (List Char))

/-- Answers with `replace` and remembers the arguments, the latest ones first. -/
def recording (replace : List (List Char) → Option (List Char)) (args : List (List Char)) :
    StateM (List (List (List Char))) (Option (List Char)) := do
  modify (args :: ·)
  return replace args

/-- Replaces the calls of `text` by what `replace` gives for their arguments, where `last` is the
character in front of it. -/
def replaceFrom (callee : Callee) (replace : List (List Char) → Option (List Char))
    (last : Option Char) (text : List Char) : Replaced :=
  let (text, offered) := (replaceWith callee (recording replace) last text).run []
  ⟨text, offered.reverse⟩

/-- Replaces every call of `callee`, those in its arguments first. A call keeps its new arguments
where `replace` gives nothing, and is copied as it stands if its brackets do not match or its name
continues a longer one. -/
def mapCalls (callee : Callee) (replace : List (List Char) → Option (List Char))
    (text : List Char) : List Char :=
  (replaceFrom callee replace none text).text

end OperandFlow.Term
