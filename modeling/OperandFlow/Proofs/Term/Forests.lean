import Mathlib.Data.List.DropRight
import OperandFlow.Proofs.Term.Calls

/-! Replacing calls is rewriting a tree from its leaves. A text whose brackets match is the rendering
of exactly one forest, and scanning the text for calls does what going through the forest does: the
same questions in the same order, and the same text in the end. -/
namespace OperandFlow.Term
open Text

inductive Bracket where
  | round
  | square
deriving DecidableEq

namespace Bracket

def opener : Bracket → Char
  | round => '('
  | square => '['

def closer : Bracket → Char
  | round => ')'
  | square => ']'

theorem closer?_opener (kind : Bracket) : closer? kind.opener = some kind.closer := by
  cases kind <;> rfl

theorem exists_of_closer? {c d : Char} (h : closer? c = some d) :
    ∃ kind : Bracket, kind.opener = c ∧ kind.closer = d := by
  unfold closer? at h
  split at h
  · cases h; exact ⟨round, rfl, rfl⟩
  · cases h; exact ⟨square, rfl, rfl⟩
  · cases h

theorem opener_injective : Function.Injective opener := by
  intro kind kind' h
  cases kind <;> cases kind' <;> simp [opener] at h ⊢

end Bracket

/-- A row of characters and groups, where a group holds a forest of its own. -/
inductive Forest where
  | nil
  | plain (c : Char) (hopen : closer? c = none) (hclose : isCloser c = false) (rest : Forest)
  | group (kind : Bracket) (inside rest : Forest)

namespace Forest

def render : Forest → List Char
  | nil => []
  | plain c _ _ rest => c :: rest.render
  | group kind inside rest => kind.opener :: inside.render ++ kind.closer :: rest.render

/-! ### Forests and nested texts -/

theorem nested_render (forest : Forest) : Nested (fun _ => True) forest.render := by
  induction forest with
  | nil => exact .nil
  | plain c hopen hclose rest ih => exact .plain hopen hclose trivial ih
  | group kind inside rest ihInside ihRest => exact .group kind.closer?_opener ihInside ihRest

theorem exists_render_eq {p : Char → Prop} {text : List Char} (h : Nested p text) :
    ∃ forest : Forest, forest.render = text := by
  induction h with
  | nil => exact ⟨nil, rfl⟩
  | @plain p c cs hopen hclose _ _ ih =>
    obtain ⟨rest, rfl⟩ := ih
    exact ⟨plain c hopen hclose rest, rfl⟩
  | group hopen _ _ ihInside ihRest =>
    obtain ⟨kind, rfl, rfl⟩ := Bracket.exists_of_closer? hopen
    obtain ⟨inside, rfl⟩ := ihInside
    obtain ⟨rest, rfl⟩ := ihRest
    exact ⟨group kind inside rest, rfl⟩

theorem render_injective : Function.Injective render := by
  intro forest forest' h
  induction forest generalizing forest' with
  | nil =>
    cases forest' with
    | nil => rfl
    | plain | group => cases h
  | plain c hopen hclose rest ih =>
    cases forest' with
    | nil => cases h
    | plain c' hopen' hclose' rest' =>
      obtain ⟨rfl, hrest⟩ := List.cons.inj h
      rw [ih hrest]
    | group kind' inside' rest' =>
      obtain ⟨rfl, -⟩ := List.cons.inj h
      rw [kind'.closer?_opener] at hopen
      cases hopen
  | group kind inside rest ihInside ihRest =>
    cases forest' with
    | nil => cases h
    | plain c' hopen' hclose' rest' =>
      obtain ⟨rfl, -⟩ := List.cons.inj h
      rw [kind.closer?_opener] at hopen'
      cases hopen'
    | group kind' inside' rest' =>
      obtain ⟨hopener, htail⟩ := List.cons.inj h
      obtain rfl := Bracket.opener_injective hopener
      -- Both groups end at the bracket that closes the one in front.
      have hcloser := (isCloser_of_closer? kind.closer?_opener).2
      have hgroup := inside.nested_render.group?_append kind.closer hcloser rest.render
      rw [List.append_eq, List.append_eq] at htail
      rw [htail, inside'.nested_render.group?_append kind.closer hcloser] at hgroup
      obtain ⟨hinside, hrest⟩ := Prod.mk.inj (Option.some.inj hgroup)
      rw [ihInside hinside.symm, ihRest hrest.symm]

theorem existsUnique_render {p : Char → Prop} {text : List Char} (h : Nested p text) :
    ∃! forest : Forest, forest.render = text := by
  obtain ⟨forest, hforest⟩ := exists_render_eq h
  exact ⟨forest, hforest, fun other hother => render_injective (hother.trans hforest.symm)⟩

/-! ### Rewriting a forest -/

/-- A group behind the characters `front` is a call if it is round and the whole word that `front`
ends with is the name. -/
def IsCall (callee : Callee) (kind : Bracket) (front : List Char) : Prop :=
  kind = .round ∧ front.rtakeWhile isNameChar = callee.chars

instance (callee : Callee) (kind : Bracket) (front : List Char) :
    Decidable (IsCall callee kind front) :=
  inferInstanceAs (Decidable (_ ∧ _))

/-- Rewrites the forest behind the characters `front`, which stand in its row since the last group.
What a group holds comes first, then the group itself, then what follows it. -/
def rewrite {σ : Type} (callee : Callee) (ask : List (List Char) → StateM σ (Option (List Char)))
    (front : List Char) : Forest → StateM σ (List Char)
  | nil => pure front
  | plain c _ _ rest => rest.rewrite callee ask (front ++ [c])
  | group kind inside rest => do
    let inner ← inside.rewrite callee ask []
    let shown ← if IsCall callee kind front then do
        let answer ← ask (splitArgs inner)
        pure (front.rdropWhile isNameChar ++ answer.getD (callee.withArgs inner))
      else pure (front ++ kind.opener :: inner ++ [kind.closer])
    let tail ← rest.rewrite callee ask []
    return shown ++ tail

/-- What the calls of the forest hold, each call behind those inside of it. -/
def calls (callee : Callee) (front : List Char) : Forest → List Forest
  | nil => []
  | plain c _ _ rest => rest.calls callee (front ++ [c])
  | group kind inside rest =>
    inside.calls callee [] ++ (if IsCall callee kind front then [inside] else []) ++
      rest.calls callee []

end Forest

section Asking

variable {σ : Type} {callee : Callee} {ask : List (List Char) → StateM σ (Option (List Char))}
  {last : Option Char}

theorem replaceWith_withArgs {p : Char → Prop} {inside : List Char} (hinside : Nested p inside)
    (hlast : last.any isNameChar = false) (rest : List Char) :
    replaceWith callee ask last (callee.withArgs inside ++ rest) = (do
      let call ← askedCall callee ask inside
      let tail ← replaceWith callee ask none rest
      return call ++ tail) := by
  rw [callee.withArgs_append, replaceWith_of_call (breakOn_opening callee _) (by simpa using hlast)
    (hinside.group?_append ')' rfl rest),
    replaceWith_eq_none (show (some ')').any isNameChar = false from rfl)]
  rfl

/-- If every call is declined, then the text stays, whether its brackets match or not. -/
theorem replaceWith_of_declined (hask : ∀ args s, ((ask args).run s).1 = none)
    (last : Option Char) (text : List Char) (s : σ) :
    ((replaceWith callee ask last text).run s).1 = text := by
  induction last, text using replaceWith.induct callee generalizing s with
  | case1 last text hnone =>
    rw [replaceWith_of_none hnone]
    rfl
  | case2 last text before after hbreak _ _ _ inside rest hgroup hlast _ ihInside ihRest =>
    have hcall : ∀ s, ((askedCall callee ask inside).run s).1 = callee.withArgs inside := by
      intro s
      change (((ask _).run _).1).getD (callee.withArgs
        ((replaceWith callee ask none inside).run s).1) = _
      rw [hask, ihInside]
      rfl
    rw [replaceWith_of_call hbreak hlast hgroup]
    change before ++ (((askedCall callee ask inside).run s).1 ++
      ((replaceWith callee ask (some ')') rest).run _).1) = text
    rw [hcall, ihRest, eq_append_of_breakOn hbreak, eq_append_of_group? hgroup]
    simp [Callee.withArgs]
  | case3 last text before after hbreak _ _ _ hskip ihTail =>
    rw [replaceWith_of_skip hbreak (skip_of_not_call hskip)]
    change before ++ callee.chars ++
      ((replaceWith callee ask callee.chars.getLast? ('(' :: after)).run s).1 = text
    rw [ihTail, eq_append_of_breakOn hbreak]
    simp [Callee.opening]

section Rows

variable (hname : ∀ c ∈ callee.chars, isNameChar c = true)
include hname

/-! ### Scanning a row -/

/-- Characters without an opening bracket are copied, up to one that ends a name and opens no
call. -/
theorem replaceWith_plain_append {front rest : List Char} (hfront : '(' ∉ front)
    (hrest : ∀ c ∈ rest.head?, isNameChar c = false ∧ c ≠ '(') :
    replaceWith callee ask last (front ++ rest) =
      (front ++ ·) <$> replaceWith callee ask none rest := by
  induction front generalizing last with
  | nil =>
    cases rest with
    | nil => simp [replaceWith_nil]
    | cons c rest =>
      obtain ⟨hc, -⟩ := hrest c rfl
      rw [List.nil_append, replaceWith_cons_of_not_name hname hc,
        replaceWith_cons_of_not_name hname hc]
      simp
  | cons c front ih =>
    have hstrip : stripFront? callee.opening (c :: front) = none := by
      cases hfound : stripFront? callee.opening (c :: front) with
      | none => rfl
      | some after =>
        rw [eq_append_of_stripFront? hfound] at hfront
        simp [Callee.opening] at hfront
    have hstrip' : stripFront? callee.opening (c :: (front ++ rest)) = none := by
      cases rest with
      | nil => rwa [List.append_nil]
      | cons d rest =>
        obtain ⟨hd, hopen⟩ := hrest d rfl
        rw [← List.cons_append, stripFront?_append_cons (not_mem_opening hname hd hopen), hstrip]
        rfl
    rw [List.cons_append, replaceWith_cons hstrip', ih (List.not_mem_of_not_mem_cons hfront),
      Functor.map_map]
    rfl

/-- What stands before the last word of a row is copied. -/
theorem replaceWith_rdropWhile_append {front : List Char} (hfront : '(' ∉ front)
    (hlast : last.any isNameChar = false) (rest : List Char) :
    replaceWith callee ask last (front.rdropWhile isNameChar ++ rest) =
      (front.rdropWhile isNameChar ++ ·) <$> replaceWith callee ask none rest := by
  rcases List.eq_nil_or_concat' (front.rdropWhile isNameChar) with hnil | ⟨before, c, hbefore⟩
  · rw [hnil, List.nil_append, replaceWith_eq_none hlast]
    simp
  · have hmem : '(' ∉ before ++ [c] := fun h =>
      hfront ((List.rdropWhile_prefix isNameChar front).subset (hbefore ▸ h))
    have hc : isNameChar c = false := by
      have hne : front.rdropWhile isNameChar ≠ [] := by simp [hbefore]
      simpa [hbefore] using List.rdropWhile_last_not isNameChar front hne
    have hopen : c ≠ '(' := by
      rintro rfl
      simp at hmem
    rw [hbefore, List.append_assoc, List.singleton_append,
      replaceWith_plain_append hname (fun h => hmem (List.mem_append_left _ h))
        (by simpa using ⟨hc, hopen⟩),
      replaceWith_cons_of_not_name hname hc, Functor.map_map]
    simp

/-- A bracket that opens no call is copied with the row in front of it. -/
theorem replaceWith_opener {kind : Bracket} {front : List Char} (hfront : '(' ∉ front)
    (hlast : last.any isNameChar = false) (hcall : ¬ Forest.IsCall callee kind front)
    (rest : List Char) :
    replaceWith callee ask last (front ++ kind.opener :: rest) =
      (front ++ kind.opener :: ·) <$> replaceWith callee ask none rest := by
  cases kind with
  | square =>
    rw [replaceWith_plain_append hname hfront (by rintro c ⟨⟩; exact ⟨rfl, by decide⟩),
      replaceWith_cons_of_not_name hname rfl, Functor.map_map]
  | round =>
    have hword : ∀ c ∈ front.rtakeWhile isNameChar, isNameChar c = true := fun c hc =>
      List.mem_rtakeWhile_imp hc
    have hne : front.rtakeWhile isNameChar ≠ callee.chars := fun h => hcall ⟨rfl, h⟩
    have hsplit : front.rdropWhile isNameChar ++ front.rtakeWhile isNameChar = front :=
      List.rdropWhile_append_rtakeWhile
    calc replaceWith callee ask last (front ++ '(' :: rest)
        = replaceWith callee ask last (front.rdropWhile isNameChar ++
            (front.rtakeWhile isNameChar ++ '(' :: rest)) := by
          rw [← List.append_assoc, hsplit]
      _ = (front.rdropWhile isNameChar ++ ·) <$>
            (front.rtakeWhile isNameChar ++ ['('] ++ ·) <$> replaceWith callee ask none rest := by
          rw [replaceWith_rdropWhile_append hname hfront hlast,
            replaceWith_word hname hword (.inr hne)]
      _ = (front ++ '(' :: ·) <$> replaceWith callee ask none rest := by
          rw [Functor.map_map]
          congr 1
          funext tail
          rw [← List.append_assoc, ← List.append_assoc, hsplit, List.append_assoc]
          rfl

/-! ### Scanning the rendering of a forest -/

/-- Scanning a rendering asks what rewriting the forest asks and then goes on behind it. The
induction is on the forest, for all rows `front` before it, as a call reaches back into its row. -/
theorem replaceWith_render_append (forest : Forest) (last : Option Char) (front rest : List Char)
    (hfront : '(' ∉ front) (hlast : last.any isNameChar = false)
    (hrest : ∀ c ∈ rest.head?, isNameChar c = false ∧ c ≠ '(') :
    replaceWith callee ask last (front ++ (forest.render ++ rest)) = (do
      let shown ← forest.rewrite callee ask front
      let tail ← replaceWith callee ask none rest
      return shown ++ tail) := by
  induction forest generalizing front rest last with
  | nil =>
    rw [Forest.render, List.nil_append, replaceWith_plain_append hname hfront hrest]
    simp [Forest.rewrite]
  | plain c hopen hclose more ih =>
    have hrow : '(' ∉ front ++ [c] := by
      rw [List.mem_append, List.mem_singleton]
      rintro (hmem | rfl)
      · exact hfront hmem
      · cases hopen
    have htext : front ++ ((Forest.plain c hopen hclose more).render ++ rest) =
        front ++ [c] ++ (more.render ++ rest) := by simp [Forest.render]
    rw [htext, ih last _ rest hrow hlast hrest, Forest.rewrite]
  | group kind inside more ihInside ihMore =>
    obtain ⟨-, hcloser, hopen⟩ := not_isNameChar_of_closer? kind.closer?_opener
    have hmore := ihMore none [] rest List.not_mem_nil rfl hrest
    rw [List.nil_append] at hmore
    by_cases hcall : Forest.IsCall callee kind front
    · obtain ⟨rfl, hword⟩ := hcall
      have hinner : replaceWith callee ask none inside.render =
          inside.rewrite callee ask [] := by
        simpa [replaceWith_nil] using ihInside none [] [] List.not_mem_nil rfl (by simp)
      have htext : front ++ ((Forest.group .round inside more).render ++ rest) =
          front.rdropWhile isNameChar ++ (callee.withArgs inside.render ++ (more.render ++ rest)) := by
        have hsplit : front.rdropWhile isNameChar ++ callee.chars = front := by
          rw [← hword, List.rdropWhile_append_rtakeWhile]
        nth_rewrite 1 [← hsplit]
        simp [Forest.render, Callee.withArgs, Callee.opening, Bracket.opener, Bracket.closer]
      rw [htext, replaceWith_rdropWhile_append hname hfront hlast,
        replaceWith_withArgs inside.nested_render rfl, hmore, askedCall, hinner]
      have hshown : Forest.IsCall callee .round front := ⟨rfl, hword⟩
      simp only [Forest.rewrite, if_pos hshown, map_eq_pure_bind, bind_assoc, pure_bind,
        List.append_assoc]
    · have hinside := ihInside none [] (kind.closer :: (more.render ++ rest)) List.not_mem_nil rfl
        (by simpa using ⟨hcloser, hopen⟩)
      have htext : front ++ ((Forest.group kind inside more).render ++ rest) =
          front ++ kind.opener :: (inside.render ++ kind.closer :: (more.render ++ rest)) := by
        simp [Forest.render]
      rw [List.nil_append] at hinside
      rw [htext, replaceWith_opener hname hfront hlast hcall, hinside,
        replaceWith_cons_of_not_name hname hcloser, hmore]
      simp only [Forest.rewrite, if_neg hcall, map_eq_pure_bind, bind_assoc, pure_bind,
        List.append_assoc, List.cons_append, List.nil_append]

theorem replaceWith_render (forest : Forest) :
    replaceWith callee ask none forest.render = forest.rewrite callee ask [] := by
  simpa [replaceWith_nil] using
    replaceWith_render_append hname forest none [] [] List.not_mem_nil rfl (by simp)

end Rows

end Asking

/-! ### The calls that are offered -/

section Recording

variable {callee : Callee} {replace : List (List Char) → Option (List Char)}
  (hname : ∀ c ∈ callee.chars, isNameChar c = true)
include hname

/-- The arguments of a call are read when the calls inside of it have been replaced. -/
theorem snd_run_rewrite (forest : Forest) (front : List Char) (log : List (List (List Char))) :
    ((forest.rewrite callee (recording replace) front).run log).2 =
      ((forest.calls callee front).map fun inside =>
        splitArgs (mapCalls callee replace inside.render)).reverse ++ log := by
  induction forest generalizing front log with
  | nil => rfl
  | plain c hopen hclose more ih => exact ih (front ++ [c]) log
  | group kind inside more ihInside ihMore =>
    have hinner : ((inside.rewrite callee (recording replace) []).run log).1 =
        mapCalls callee replace inside.render := by
      rw [← replaceWith_render hname, run_replaceWith]
      rfl
    by_cases hcall : Forest.IsCall callee kind front
    · simp only [Forest.rewrite, if_pos hcall]
      change ((more.rewrite callee (recording replace) []).run
        (splitArgs ((inside.rewrite callee (recording replace) []).run log).1 ::
          ((inside.rewrite callee (recording replace) []).run log).2)).2 = _
      rw [ihMore, hinner, ihInside]
      simp [Forest.calls, hcall]
    · simp only [Forest.rewrite, if_neg hcall]
      change ((more.rewrite callee (recording replace) []).run
        ((inside.rewrite callee (recording replace) []).run log).2).2 = _
      rw [ihMore, ihInside]
      simp [Forest.calls, hcall]

theorem offered_replaceFrom_render (forest : Forest) :
    (replaceFrom callee replace none forest.render).offered =
      (forest.calls callee []).map fun inside =>
        splitArgs (mapCalls callee replace inside.render) := by
  have hlog : ((forest.rewrite callee (recording replace) []).run []).2 = _ :=
    snd_run_rewrite hname forest [] []
  rw [← replaceWith_render hname, run_replaceWith] at hlog
  simpa using hlog

end Recording

/-- Replacing calls refines rewriting forests from the inside out. A text whose brackets match is
one forest; scanning it is going through that forest, whatever the answers depend on; a function is
offered each call once, behind the calls inside of it and from left to right. A text of any shape
stays as it is if all its calls are declined. -/
theorem replaceWith_refines_rewrite (callee : Callee)
    (hname : ∀ c ∈ callee.chars, isNameChar c = true) :
    (∀ text, Nested (fun _ => True) text → ∃! forest : Forest, forest.render = text) ∧
    (∀ (σ : Type) (ask : List (List Char) → StateM σ (Option (List Char))) (forest : Forest),
      replaceWith callee ask none forest.render = forest.rewrite callee ask []) ∧
    (∀ (replace : List (List Char) → Option (List Char)) (forest : Forest),
      (replaceFrom callee replace none forest.render).offered =
        (forest.calls callee []).map fun inside =>
          splitArgs (mapCalls callee replace inside.render)) ∧
    ∀ (σ : Type) (ask : List (List Char) → StateM σ (Option (List Char))),
      (∀ args s, ((ask args).run s).1 = none) →
        ∀ text s, ((replaceWith callee ask none text).run s).1 = text :=
  ⟨fun _ htext => Forest.existsUnique_render htext,
    fun _ _ forest => replaceWith_render hname forest,
    fun _ forest => offered_replaceFrom_render hname forest,
    fun _ _ hask text s => replaceWith_of_declined hask none text s⟩

/-- The forest of `F(a,F(b))xF(F(c))`, where the name also ends a longer one. -/
def sampleForest : Forest :=
  .plain 'F' rfl rfl <| .group .round
    (.plain 'a' rfl rfl <| .plain ',' rfl rfl <| .plain 'F' rfl rfl <|
      .group .round (.plain 'b' rfl rfl .nil) .nil) <|
  .plain 'x' rfl rfl <| .plain 'F' rfl rfl <| .group .round
    (.plain 'F' rfl rfl <| .group .round (.plain 'c' rfl rfl .nil) .nil) .nil

/-- Answers a call of one argument with the number of calls before it, and declines others. -/
def numbered (args : List (List Char)) : StateM Nat (Option (List Char)) := do
  let count ← get
  set (count + 1)
  return if args.length = 1 then some (Nat.toDigits 10 count) else none

theorem replaceWith_refines_rewrite_numbered :
    (∀ c ∈ ['F'], isNameChar c = true) ∧
    sampleForest.render = "F(a,F(b))xF(F(c))".toList ∧
    (replaceWith ⟨['F'], by decide⟩ numbered none "F(a,F(b))xF(F(c))".toList).run 0 =
      ("F(a,0)xF(2)".toList, 3) := by
  have hname : ∀ c ∈ ['F'], isNameChar c = true := by
    intro c hc
    rw [List.mem_singleton.mp hc]
    rfl
  have hrender : sampleForest.render = "F(a,F(b))xF(F(c))".toList := rfl
  refine ⟨hname, hrender, ?_⟩
  rw [← hrender, (replaceWith_refines_rewrite ⟨['F'], by decide⟩ hname).2.1]
  rfl

end OperandFlow.Term
