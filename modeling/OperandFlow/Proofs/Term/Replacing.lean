import OperandFlow.Proofs.Text.Search
import OperandFlow.Term.Call

/-! Replacing calls: what happens to a text at the first place where the name stands, and that a
record of the offered calls does not bear on what they become. -/
namespace OperandFlow.Term
open Text

section Asking

variable {σ : Type} {callee : Callee} {ask : List (List Char) → StateM σ (Option (List Char))}
  {last : Option Char} {text : List Char}

/-! ### The three cases of replacing -/

theorem replaceWith_of_none (h : breakOn callee.opening text = none) :
    replaceWith callee ask last text = pure text := by
  rw [replaceWith]
  split
  · rfl
  · next hsome =>
    rw [h] at hsome
    cases hsome

/-- What a call with the arguments `inside` becomes. -/
def askedCall (callee : Callee) (ask : List (List Char) → StateM σ (Option (List Char)))
    (inside : List Char) : StateM σ (List Char) := do
  let inner ← replaceWith callee ask none inside
  let answer ← ask (splitArgs inner)
  return answer.getD (callee.withArgs inner)

theorem replaceWith_of_call {before after inside rest : List Char}
    (h : breakOn callee.opening text = some (before, after))
    (hlast : (before.getLast?.or last).any isNameChar = false)
    (hgroup : group? ')' after = some (inside, rest)) :
    replaceWith callee ask last text = (do
      let call ← askedCall callee ask inside
      let tail ← replaceWith callee ask (some ')') rest
      return before ++ (call ++ tail)) := by
  rw [replaceWith]
  split
  · next hnone =>
    rw [h] at hnone
    cases hnone
  · next b a hsome =>
    obtain ⟨rfl, rfl⟩ := Prod.mk.inj (Option.some.inj (h.symm.trans hsome))
    split
    · next i r _ hsome' =>
      obtain ⟨rfl, rfl⟩ := Prod.mk.inj (Option.some.inj (hgroup.symm.trans hsome'))
      simp [askedCall]
    · next hne => exact absurd hgroup (hne _ _ hlast)

/-- A name that continues a longer one, or whose brackets do not match, is passed over. -/
theorem replaceWith_of_skip {before after : List Char}
    (h : breakOn callee.opening text = some (before, after))
    (hskip : (before.getLast?.or last).any isNameChar = true ∨ group? ')' after = none) :
    replaceWith callee ask last text =
      (before ++ callee.chars ++ ·) <$>
        replaceWith callee ask callee.chars.getLast? ('(' :: after) := by
  rw [replaceWith]
  split
  · next hnone =>
    rw [h] at hnone
    cases hnone
  · next b a hsome =>
    obtain ⟨rfl, rfl⟩ := Prod.mk.inj (Option.some.inj (h.symm.trans hsome))
    split
    · next hlast hsome' =>
      rcases hskip with hskip | hskip
      · rw [hlast] at hskip
        cases hskip
      · rw [hsome'] at hskip
        cases hskip
    · exact bind_pure_comp _ _

/-- The name is passed over if it does not stand for a call. -/
theorem skip_of_not_call {before after : List Char}
    (h : ∀ inside rest, (before.getLast?.or last).any isNameChar = false →
      group? ')' after = some (inside, rest) → False) :
    (before.getLast?.or last).any isNameChar = true ∨ group? ')' after = none := by
  cases hlast : (before.getLast?.or last).any isNameChar with
  | true => exact .inl rfl
  | false =>
    cases hgroup : group? ')' after with
    | none => exact .inr rfl
    | some parts => exact (h parts.1 parts.2 hlast hgroup).elim

/-! ### Replacing character by character -/

theorem exists_opening_eq_cons (callee : Callee) :
    ∃ first more, callee.chars = first :: more ∧ callee.opening = first :: (more ++ ['(']) := by
  obtain ⟨first, more, h⟩ := List.exists_cons_of_ne_nil callee.nonempty
  exact ⟨first, more, h, by rw [Callee.opening, h, List.cons_append]⟩

theorem Callee.withArgs_append (callee : Callee) (inside rest : List Char) :
    callee.withArgs inside ++ rest = callee.opening ++ (inside ++ ')' :: rest) := by
  simp [withArgs]

theorem replaceWith_nil : replaceWith callee ask last [] = pure [] := by
  obtain ⟨first, more, -, hopening⟩ := exists_opening_eq_cons callee
  exact replaceWith_of_none (by rw [hopening]; rfl)

/-- A character that no call starts with is copied. -/
theorem replaceWith_cons {c : Char} {cs : List Char}
    (h : stripFront? callee.opening (c :: cs) = none) :
    replaceWith callee ask last (c :: cs) = (c :: ·) <$> replaceWith callee ask (some c) cs := by
  have hbreak := breakOn_cons h
  cases hrest : breakOn callee.opening cs with
  | none =>
    rw [hrest] at hbreak
    rw [replaceWith_of_none hbreak, replaceWith_of_none hrest, map_pure]
  | some parts =>
    obtain ⟨before, after⟩ := parts
    rw [hrest] at hbreak
    have hlast : (c :: before).getLast?.or last = before.getLast?.or (some c) := by
      cases hb : before.getLast? <;> simp [List.getLast?_cons, hb]
    cases hany : (before.getLast?.or (some c)).any isNameChar with
    | true =>
      rw [replaceWith_of_skip hbreak (.inl (hlast ▸ hany)), replaceWith_of_skip hrest (.inl hany),
        Functor.map_map]
      rfl
    | false =>
      cases hgroup : group? ')' after with
      | none =>
        rw [replaceWith_of_skip hbreak (.inr hgroup), replaceWith_of_skip hrest (.inr hgroup),
          Functor.map_map]
        rfl
      | some parts =>
        rw [replaceWith_of_call hbreak (hlast ▸ hany) hgroup,
          replaceWith_of_call hrest hany hgroup]
        simp

theorem breakOn_opening (callee : Callee) (after : List Char) :
    breakOn callee.opening (callee.opening ++ after) = some ([], after) := by
  obtain ⟨first, more, -, hopening⟩ := exists_opening_eq_cons callee
  rw [hopening]
  exact breakOn_front _ after

/-- The end of a longer name is no call. -/
theorem replaceWith_opening_of_continued (hlast : last.any isNameChar = true)
    (after : List Char) :
    replaceWith callee ask last (callee.opening ++ after) =
      (callee.chars ++ ·) <$> replaceWith callee ask callee.chars.getLast? ('(' :: after) :=
  replaceWith_of_skip (breakOn_opening callee after) (.inl (by simpa using hlast))

/-- Of what stands before a text only matters whether a name may continue there. -/
theorem replaceWith_congr_last {last' : Option Char}
    (h : last.any isNameChar = last'.any isNameChar) (text : List Char) :
    replaceWith callee ask last text = replaceWith callee ask last' text := by
  cases hbreak : breakOn callee.opening text with
  | none => rw [replaceWith_of_none hbreak, replaceWith_of_none hbreak]
  | some parts =>
    obtain ⟨before, after⟩ := parts
    have hany : (before.getLast?.or last).any isNameChar =
        (before.getLast?.or last').any isNameChar := by
      cases before.getLast? with
      | none => exact h
      | some c => rfl
    cases hcontinued : (before.getLast?.or last).any isNameChar with
    | true =>
      rw [replaceWith_of_skip hbreak (.inl hcontinued),
        replaceWith_of_skip hbreak (.inl (hany ▸ hcontinued))]
    | false =>
      cases hgroup : group? ')' after with
      | none =>
        rw [replaceWith_of_skip hbreak (.inr hgroup), replaceWith_of_skip hbreak (.inr hgroup)]
      | some parts =>
        rw [replaceWith_of_call hbreak hcontinued hgroup,
          replaceWith_of_call hbreak (hany ▸ hcontinued) hgroup]

theorem replaceWith_eq_none (h : last.any isNameChar = false) (text : List Char) :
    replaceWith callee ask last text = replaceWith callee ask none text :=
  replaceWith_congr_last h text

end Asking

/-! ### Records -/

/-- A computation that only adds to the record, whatever stands in it already. -/
def Records {α : Type} (x : StateM (List (List (List Char))) α) : Prop :=
  ∀ log, x.run log = ((x.run []).1, (x.run []).2 ++ log)

namespace Records

variable {α β : Type}

theorem pure (a : α) : Records (Pure.pure a) := fun _ => rfl

theorem bind {x : StateM (List (List (List Char))) α}
    {f : α → StateM (List (List (List Char))) β} (hx : Records x) (hf : ∀ a, Records (f a)) :
    Records (x >>= f) := by
  intro log
  change (f (x.run log).1).run (x.run log).2 =
    (((f (x.run []).1).run (x.run []).2).1, ((f (x.run []).1).run (x.run []).2).2 ++ log)
  rw [hx log]
  dsimp only
  rw [hf _ ((x.run []).2 ++ log), hf _ (x.run []).2, List.append_assoc]

end Records

section Recording

variable {callee : Callee} {replace : List (List Char) → Option (List Char)}
  {last : Option Char} {text : List Char}

theorem records_recording (args : List (List Char)) : Records (recording replace args) :=
  fun _ => rfl

theorem records_replaceWith (last : Option Char) (text : List Char) :
    Records (replaceWith callee (recording replace) last text) := by
  induction last, text using replaceWith.induct callee with
  | case1 last text hnone =>
    rw [replaceWith_of_none hnone]
    exact .pure _
  | case2 last text before after hbreak _ _ _ inside rest hgroup hlast _ ihInside ihRest =>
    have hcall : Records (askedCall callee (recording replace) inside) :=
      ihInside.bind fun _ => (records_recording _).bind fun _ => .pure _
    rw [replaceWith_of_call hbreak hlast hgroup]
    exact hcall.bind fun _ => ihRest.bind fun _ => .pure _
  | case3 last text before after hbreak _ _ _ hskip ihTail =>
    rw [replaceWith_of_skip hbreak (skip_of_not_call hskip), map_eq_pure_bind]
    exact ihTail.bind fun _ => .pure _

theorem run_replaceWith (last : Option Char) (text : List Char) (log : List (List (List Char))) :
    (replaceWith callee (recording replace) last text).run log =
      ((replaceFrom callee replace last text).text,
        (replaceFrom callee replace last text).offered.reverse ++ log) := by
  have heq : replaceFrom callee replace last text =
      ⟨((replaceWith callee (recording replace) last text).run []).1,
        ((replaceWith callee (recording replace) last text).run []).2.reverse⟩ := rfl
  rw [records_replaceWith last text log, heq, List.reverse_reverse]

end Recording

namespace Replaced

def prepend (cs : List Char) (r : Replaced) : Replaced := ⟨cs ++ r.text, r.offered⟩

def append (r s : Replaced) : Replaced := ⟨r.text ++ s.text, r.offered ++ s.offered⟩

@[simp] theorem text_prepend (cs : List Char) (r : Replaced) :
    (r.prepend cs).text = cs ++ r.text := rfl

@[simp] theorem text_append (r s : Replaced) : (r.append s).text = r.text ++ s.text := rfl

theorem prepend_append (cs : List Char) (r s : Replaced) :
    (r.prepend cs).append s = (r.append s).prepend cs := by
  simp [prepend, append]

theorem append_assoc (r s t : Replaced) : (r.append s).append t = r.append (s.append t) := by
  simp [append]

end Replaced

/-! ### Replacing by a function -/

section Calls

variable {callee : Callee} {replace : List (List Char) → Option (List Char)}
  {last : Option Char} {text : List Char}

theorem replaceFrom_of_eq {last' : Option Char} {text' : List Char}
    (h : replaceWith callee (recording replace) last text =
      replaceWith callee (recording replace) last' text') :
    replaceFrom callee replace last text = replaceFrom callee replace last' text' := by
  rw [replaceFrom, h]
  rfl

theorem replaceFrom_of_map {last' : Option Char} {text' before : List Char}
    (h : replaceWith callee (recording replace) last text =
      (before ++ ·) <$> replaceWith callee (recording replace) last' text') :
    replaceFrom callee replace last text =
      (replaceFrom callee replace last' text').prepend before := by
  rw [replaceFrom, h]
  rfl

theorem replaceFrom_of_none (h : breakOn callee.opening text = none) :
    replaceFrom callee replace last text = ⟨text, []⟩ := by
  rw [replaceFrom, replaceWith_of_none h]
  rfl

/-- What a call with the arguments `inside` becomes, in front of `tail`. -/
def replacedCall (callee : Callee) (replace : List (List Char) → Option (List Char))
    (inside : List Char) (tail : Replaced) : Replaced :=
  let inner := replaceFrom callee replace none inside
  let args := splitArgs inner.text
  ⟨(replace args).getD (callee.withArgs inner.text) ++ tail.text,
    inner.offered ++ args :: tail.offered⟩

theorem replaceFrom_of_call {before after inside rest : List Char}
    (h : breakOn callee.opening text = some (before, after))
    (hlast : (before.getLast?.or last).any isNameChar = false)
    (hgroup : group? ')' after = some (inside, rest)) :
    replaceFrom callee replace last text =
      (replacedCall callee replace inside
        (replaceFrom callee replace (some ')') rest)).prepend before := by
  have hrun : (do
      let call ← askedCall callee (recording replace) inside
      let tail ← replaceWith callee (recording replace) (some ')') rest
      return before ++ (call ++ tail)).run [] =
        let inner := (replaceWith callee (recording replace) none inside).run []
        let args := splitArgs inner.1
        let tail := (replaceWith callee (recording replace) (some ')') rest).run (args :: inner.2)
        (before ++ ((replace args).getD (callee.withArgs inner.1) ++ tail.1), tail.2) := rfl
  rw [replaceFrom, replaceWith_of_call h hlast hgroup, hrun, run_replaceWith none inside]
  dsimp only
  rw [run_replaceWith (some ')') rest]
  simp [replacedCall, Replaced.prepend]

theorem replaceFrom_of_skip {before after : List Char}
    (h : breakOn callee.opening text = some (before, after))
    (hskip : (before.getLast?.or last).any isNameChar = true ∨ group? ')' after = none) :
    replaceFrom callee replace last text =
      (replaceFrom callee replace callee.chars.getLast? ('(' :: after)).prepend
        (before ++ callee.chars) :=
  replaceFrom_of_map (replaceWith_of_skip h hskip)

theorem replaceFrom_nil : replaceFrom callee replace last [] = ⟨[], []⟩ := by
  rw [replaceFrom, replaceWith_nil]
  rfl

theorem replaceFrom_cons {c : Char} {cs : List Char}
    (h : stripFront? callee.opening (c :: cs) = none) :
    replaceFrom callee replace last (c :: cs) =
      (replaceFrom callee replace (some c) cs).prepend [c] :=
  replaceFrom_of_map (replaceWith_cons h)

theorem replaceFrom_opening_of_continued (hlast : last.any isNameChar = true)
    (after : List Char) :
    replaceFrom callee replace last (callee.opening ++ after) =
      (replaceFrom callee replace callee.chars.getLast? ('(' :: after)).prepend callee.chars :=
  replaceFrom_of_map (replaceWith_opening_of_continued hlast after)

theorem replaceFrom_eq_none (h : last.any isNameChar = false) (text : List Char) :
    replaceFrom callee replace last text = replaceFrom callee replace none text :=
  replaceFrom_of_eq (replaceWith_eq_none h text)

end Calls

end OperandFlow.Term
