import OperandFlow.Proofs.Term.Nesting
import OperandFlow.Proofs.Term.Shortening

/-! Calls are replaced part by part: a part of a text whose brackets match becomes what it becomes
alone, whatever stands around it. From this follow the rules for a call of the name itself, for a
call of another name and for a row of arguments. -/
namespace OperandFlow.Term
open Text

theorem plain_of_isNameChar {c : Char} (h : isNameChar c = true) :
    closer? c = none ∧ isCloser c = false ∧ c ≠ ',' := by
  have hround : c ≠ '(' := by rintro rfl; cases h
  have hround' : c ≠ ')' := by rintro rfl; cases h
  have hsquare : c ≠ '[' := by rintro rfl; cases h
  have hsquare' : c ≠ ']' := by rintro rfl; cases h
  refine ⟨?_, by simp [isCloser, hround', hsquare'], by rintro rfl; cases h⟩
  unfold closer?
  split
  · exact absurd rfl hround
  · exact absurd rfl hsquare
  · rfl

/-- A bracket is no part of a name. -/
theorem not_isNameChar_of_closer? {c d : Char} (h : closer? c = some d) :
    isNameChar c = false ∧ isNameChar d = false ∧ d ≠ '(' := by
  unfold closer? at h
  split at h
  · cases h; decide
  · cases h; decide
  · cases h

theorem takeWhile_word {word : List Char} (hword : ∀ c ∈ word, isNameChar c = true) {d : Char}
    (hd : isNameChar d = false) {rest : List Char} :
    (word ++ d :: rest).takeWhile isNameChar = word := by
  rw [List.takeWhile_append_of_pos hword, List.takeWhile_cons_of_neg (by simp [hd]),
    List.append_nil]

namespace Nested

variable {p : Char → Prop} {cs : List Char}

theorem of_cons_plain {c : Char} (hc : closer? c = none) (h : Nested p (c :: cs)) :
    p c ∧ Nested p cs := by
  generalize htext : c :: cs = text at h
  cases h with
  | nil => cases htext
  | plain _ _ hp hrest =>
    obtain ⟨rfl, rfl⟩ := List.cons.inj htext
    exact ⟨hp, hrest⟩
  | group hopen =>
    obtain ⟨rfl, -⟩ := List.cons.inj htext
    rw [hc] at hopen
    cases hopen

/-- The front of a nested text, up to its first bracket, can be taken off. -/
theorem of_word_append {word : List Char} (hword : ∀ c ∈ word, isNameChar c = true)
    (h : Nested p (word ++ cs)) : Nested p word ∧ Nested p cs := by
  induction word with
  | nil => exact ⟨.nil, h⟩
  | cons c word ih =>
    obtain ⟨hopen, hclose, -⟩ := plain_of_isNameChar (hword c List.mem_cons_self)
    obtain ⟨hp, hrest⟩ := of_cons_plain hopen h
    obtain ⟨hw, hcs⟩ := ih (fun x hx => hword x (List.mem_cons_of_mem _ hx)) hrest
    exact ⟨.plain hopen hclose hp hw, hcs⟩

theorem of_cons_opener {c d : Char} (hc : closer? c = some d) (h : Nested p (c :: cs)) :
    ∃ inside rest, cs = inside ++ d :: rest ∧ Nested (fun _ => True) inside ∧ Nested p rest := by
  generalize htext : c :: cs = text at h
  cases h with
  | nil => cases htext
  | plain hopen =>
    obtain ⟨rfl, -⟩ := List.cons.inj htext
    rw [hopen] at hc
    cases hc
  | group hopen hinside hrest =>
    obtain ⟨rfl, rfl⟩ := List.cons.inj htext
    rw [hopen] at hc
    cases hc
    exact ⟨_, _, rfl, hinside, hrest⟩

/-- Plain characters at the end of a nested text can be taken off. -/
theorem of_append_plain {back : List Char} (hback : ∀ c ∈ back, isCloser c = false)
    (h : Nested p (cs ++ back)) : Nested p cs := by
  generalize htext : cs ++ back = text at h
  induction h generalizing cs with
  | nil =>
    obtain ⟨rfl, -⟩ := List.append_eq_nil_iff.mp htext
    exact .nil
  | plain hopen hclose hp _ ih =>
    cases cs with
    | nil => exact .nil
    | cons c cs =>
      obtain ⟨rfl, hrest⟩ := List.cons.inj htext
      exact .plain hopen hclose hp (ih hrest)
  | @group p c d inside rest hopen hinside _ _ ih =>
    have hd : d ∉ back := by
      intro hmem
      have hcloser := (isCloser_of_closer? hopen).2
      rw [hback d hmem] at hcloser
      cases hcloser
    obtain ⟨more, -, hmore⟩ | ⟨more, rfl, hmore⟩ := List.append_eq_append_iff.mp htext
    · exact absurd (by simp [hmore]) hd
    · cases more with
      | nil => exact absurd (by simp [← show d :: rest = back from hmore]) hd
      | cons x more =>
        obtain ⟨rfl, hrest⟩ := List.cons.inj hmore
        exact .group hopen hinside (ih hrest.symm)

theorem isArg_of_mem_splitFrom (h : Nested p cs) {part : List Char} (hpart : IsArg part.reverse) :
    ∀ a ∈ splitFrom 0 part cs, IsArg a := by
  induction h generalizing part with
  | nil =>
    intro a ha
    rw [splitFrom, List.mem_singleton] at ha
    exact ha ▸ hpart
  | @plain p c cs hopen hclose _ _ ih =>
    have hnesting : nesting c = 0 := by simp [nesting, hopen, hclose]
    rw [splitFrom]
    split
    · intro a ha
      rcases List.mem_cons.mp ha with rfl | ha
      · exact hpart
      · exact ih .nil a ha
    · next hsplit =>
      have hc : c ≠ ',' := fun heq => hsplit ⟨heq, rfl⟩
      rw [hnesting]
      apply ih
      simpa using hpart.append (.plain hopen hclose hc .nil)
  | @group p c d inside cs hopen hinside _ _ ih =>
    have hgroup : IsArg (c :: inside ++ d :: []) := .group hopen hinside .nil
    have hsplit := hgroup.splitFrom_append (Int.le_refl 0) (by simp) part cs
    have htext : c :: inside ++ d :: [] ++ cs = c :: inside ++ d :: cs := by simp
    rw [htext] at hsplit
    rw [hsplit]
    apply ih
    simpa using hpart.append hgroup

/-- A name is nested, and no comma stands in it. -/
theorem of_word {word : List Char} (hword : ∀ c ∈ word, isNameChar c = true) : IsArg word := by
  induction word with
  | nil => exact .nil
  | cons c word ih =>
    obtain ⟨hopen, hclose, hc⟩ := plain_of_isNameChar (hword c List.mem_cons_self)
    exact .plain hopen hclose hc (ih fun x hx => hword x (List.mem_cons_of_mem c hx))

/-- The arguments of a nested text are nested, and no comma stands outside their brackets. -/
theorem isArg_of_mem_splitArgs (h : Nested p cs) : ∀ a ∈ splitArgs cs, IsArg a :=
  h.isArg_of_mem_splitFrom .nil

end Nested

theorem nested_joined {args : List (List Char)} (h : ∀ a ∈ args, IsArg a) :
    Nested (fun _ => True) (joined args) := by
  induction args with
  | nil => exact .nil
  | cons a args ih =>
    have ha : Nested (fun _ => True) a := (h a List.mem_cons_self).mono fun _ _ => trivial
    by_cases hargs : args = []
    · simpa [hargs, joined, List.intercalate] using ha
    · rw [joined_cons hargs]
      exact ha.append (.plain rfl rfl trivial (ih fun b hb => h b (List.mem_cons_of_mem a hb)))

/-- Arguments that are joined can be told apart again. -/
theorem splitArgs_joined {args : List (List Char)} (hne : args ≠ []) (h : ∀ a ∈ args, IsArg a) :
    splitArgs (joined args) = args := by
  induction args with
  | nil => exact absurd rfl hne
  | cons a args ih =>
    have ha := h a List.mem_cons_self
    by_cases hargs : args = []
    · simpa [hargs, joined, List.intercalate] using ha.splitArgs
    · rw [joined_cons hargs, ha.splitArgs_cons,
        ih hargs fun b hb => h b (List.mem_cons_of_mem a hb)]

section Calls

variable {callee : Callee} {replace : List (List Char) → Option (List Char)}
  {last : Option Char} {text : List Char}

/-! ### A call at the front of a text -/

theorem replaceFrom_withArgs {p : Char → Prop} {inside : List Char} (hinside : Nested p inside)
    (hlast : last.any isNameChar = false) (rest : List Char) :
    replaceFrom callee replace last (callee.withArgs inside ++ rest) =
      replacedCall callee replace inside (replaceFrom callee replace (some ')') rest) := by
  rw [callee.withArgs_append, replaceFrom_of_call (breakOn_opening callee _) (by simpa using hlast)
    (hinside.group?_append ')' rfl rest)]
  rfl

theorem mapCalls_withArgs {p : Char → Prop} {inside : List Char} (hinside : Nested p inside) :
    mapCalls callee replace (callee.withArgs inside) =
      (replace (splitArgs (mapCalls callee replace inside))).getD
        (callee.withArgs (mapCalls callee replace inside)) := by
  have htext : callee.withArgs inside = callee.withArgs inside ++ [] := (List.append_nil _).symm
  rw [mapCalls, htext, replaceFrom_withArgs hinside rfl, replaceFrom_nil]
  simp [replacedCall, mapCalls]

/-! ### Nested texts, as replacing goes through them -/

section Induction

variable (hname : ∀ c ∈ callee.chars, isNameChar c = true)
include hname

theorem not_mem_opening {c : Char} (hc : isNameChar c = false) (hopen : c ≠ '(') :
    c ∉ callee.opening := by
  intro hmem
  rcases List.mem_append.mp hmem with hmem | hmem
  · rw [hname c hmem] at hc
    cases hc
  · exact hopen (List.mem_singleton.mp hmem)

/-- No call starts with a character that is not part of a name. -/
theorem stripFront?_opening_cons {c : Char} (hc : isNameChar c = false) (cs : List Char) :
    stripFront? callee.opening (c :: cs) = none := by
  obtain ⟨first, more, hchars, hopening⟩ := exists_opening_eq_cons callee
  have hfirst : first ≠ c := by
    rintro rfl
    rw [hname first (by simp [hchars])] at hc
    cases hc
  rw [hopening, stripFront?, if_neg hfirst]

/-- A nested text is read from its front: a plain character, a group, a call, or the end of a
longer name in front of a group. The induction is on the length of the text. -/
theorem Nested.callInduction {motive : (Char → Prop) → Option Char → List Char → Prop}
    (nil : ∀ p last, motive p last [])
    (plain : ∀ p last c cs, closer? c = none → isCloser c = false → p c →
      stripFront? callee.opening (c :: cs) = none → Nested p cs →
      motive p (some c) cs → motive p last (c :: cs))
    (group : ∀ p last c d inside cs, closer? c = some d → Nested (fun _ => True) inside →
      Nested p cs → motive (fun _ => True) (some c) inside → motive p (some d) cs →
      motive p last (c :: inside ++ d :: cs))
    (call : ∀ p last inside cs, last.any isNameChar = false → Nested p callee.chars →
      Nested (fun _ => True) inside → Nested p cs → motive (fun _ => True) none inside →
      motive p (some ')') cs → motive p last (callee.withArgs inside ++ cs))
    (skip : ∀ p last after, last.any isNameChar = true → Nested p callee.chars →
      Nested p ('(' :: after) → motive p callee.chars.getLast? ('(' :: after) →
      motive p last (callee.opening ++ after))
    {p : Char → Prop} {cs : List Char} (h : Nested p cs) (last : Option Char) :
    motive p last cs := by
  generalize hlength : cs.length = n
  induction n using Nat.strongRecOn generalizing p cs last with
  | _ n ih =>
    subst hlength
    cases h with
    | nil => exact nil p last
    | @plain p c cs hopen hclose hp hcs =>
      cases hstrip : stripFront? callee.opening (c :: cs) with
      | none =>
        exact plain p last c cs hopen hclose hp hstrip hcs
          (ih cs.length (by simp) hcs (some c) rfl)
      | some after =>
        have htext := eq_append_of_stripFront? hstrip
        have hnested : Nested p (callee.chars ++ '(' :: after) := by
          have hall : Nested p (c :: cs) := .plain hopen hclose hp hcs
          rw [htext] at hall
          simpa [Callee.opening] using hall
        obtain ⟨hchars, hgroup⟩ := hnested.of_word_append hname
        have hpos := List.length_pos_iff.mpr callee.nonempty
        have hlength := congrArg List.length htext
        simp only [Callee.opening, List.length_append, List.length_cons, List.length_nil]
          at hlength
        rw [htext] at ih ⊢
        cases hlast : last.any isNameChar with
        | true =>
          refine skip p last after hlast hchars hgroup (ih _ ?_ hgroup _ rfl)
          simp only [Callee.opening, List.length_append, List.length_cons, List.length_nil]
          omega
        | false =>
          obtain ⟨inside, rest, rfl, hinside, hrest⟩ := hgroup.of_cons_opener rfl
          rw [← callee.withArgs_append] at ih ⊢
          refine call p last inside rest hlast hchars hinside hrest
            (ih _ ?_ hinside _ rfl) (ih _ ?_ hrest _ rfl)
          all_goals
            simp only [Callee.withArgs, Callee.opening, List.length_append, List.length_cons,
              List.length_nil]
            omega
    | @group p c d inside cs hopen hinside hcs =>
      refine group p last c d inside cs hopen hinside hcs
        (ih _ ?_ hinside _ rfl) (ih _ ?_ hcs _ rfl)
      all_goals
        simp only [List.length_append, List.length_cons]
        omega

/-- A nested text is rewritten by itself, up to a character that no call holds in its name or
brackets. -/
theorem replaceFrom_append_cons {p : Char → Prop} {a : List Char} (ha : Nested p a)
    (last : Option Char) {c : Char} (hc : isNameChar c = false) (hopen : c ≠ '(')
    (b : List Char) :
    replaceFrom callee replace last (a ++ c :: b) =
      (replaceFrom callee replace last a).append
        ((replaceFrom callee replace (some c) b).prepend [c]) := by
  refine Nested.callInduction hname (motive := fun _ last a =>
    ∀ c, isNameChar c = false → c ≠ '(' → ∀ b,
      replaceFrom callee replace last (a ++ c :: b) =
        (replaceFrom callee replace last a).append
          ((replaceFrom callee replace (some c) b).prepend [c]))
    ?nil ?plain ?group ?call ?skip ha last c hc hopen b
  case nil =>
    intro p last c hc hopen b
    rw [List.nil_append, replaceFrom_nil,
      replaceFrom_cons (stripFront?_opening_cons hname hc b)]
    simp [Replaced.append, Replaced.prepend]
  case plain =>
    intro p last x cs _ _ _ hstrip _ ih c hc hopen b
    have hstrip' : stripFront? callee.opening (x :: (cs ++ c :: b)) = none := by
      rw [← List.cons_append, stripFront?_append_cons (not_mem_opening hname hc hopen), hstrip]
      rfl
    rw [List.cons_append, replaceFrom_cons hstrip', replaceFrom_cons hstrip,
      ih c hc hopen b, Replaced.prepend_append]
  case group =>
    intro p last x d inside cs hgroup _ _ ihInside ihRest c hc hopen b
    obtain ⟨hx, hd, hd'⟩ := not_isNameChar_of_closer? hgroup
    simp only [List.cons_append, List.append_assoc]
    rw [replaceFrom_cons (stripFront?_opening_cons hname hx _),
      replaceFrom_cons (stripFront?_opening_cons hname hx _), ihInside d hd hd',
      ihInside d hd hd', ihRest c hc hopen b, Replaced.prepend_append, Replaced.append_assoc,
      Replaced.prepend_append]
  case call =>
    intro p last inside cs hlast _ hinside _ _ ihRest c hc hopen b
    rw [List.append_assoc, replaceFrom_withArgs hinside hlast, replaceFrom_withArgs hinside hlast,
      ihRest c hc hopen b]
    simp [replacedCall, Replaced.append, Replaced.prepend]
  case skip =>
    intro p last after hlast _ _ ih c hc hopen b
    rw [List.append_assoc, replaceFrom_opening_of_continued hlast,
      replaceFrom_opening_of_continued hlast, ← List.cons_append, ih c hc hopen b,
      Replaced.prepend_append]

/-- The inside of a group is rewritten by itself. -/
theorem replaceFrom_group {p : Char → Prop} {c d : Char} {inside : List Char}
    (hgroup : closer? c = some d) (hinside : Nested p inside) (last : Option Char)
    (rest : List Char) :
    replaceFrom callee replace last (c :: inside ++ d :: rest) =
      ((replaceFrom callee replace none inside).prepend [c]).append
        ((replaceFrom callee replace (some d) rest).prepend [d]) := by
  obtain ⟨hc, hd, hd'⟩ := not_isNameChar_of_closer? hgroup
  rw [List.cons_append, replaceFrom_cons (stripFront?_opening_cons hname hc _),
    replaceFrom_append_cons hname hinside _ hd hd', Replaced.prepend_append,
    replaceFrom_eq_none (by simpa using hc)]

theorem replaceWith_cons_of_not_name {σ : Type}
    {ask : List (List Char) → StateM σ (Option (List Char))} {c : Char}
    (hc : isNameChar c = false) (rest : List Char) :
    replaceWith callee ask last (c :: rest) = (c :: ·) <$> replaceWith callee ask none rest := by
  have hlast : (some c).any isNameChar = false := hc
  rw [replaceWith_cons (stripFront?_opening_cons hname hc rest), replaceWith_eq_none hlast]

/-- A word before a bracket is copied if it is not the name, or continues a longer word. -/
theorem replaceWith_word {σ : Type} {ask : List (List Char) → StateM σ (Option (List Char))}
    {word : List Char} (hword : ∀ c ∈ word, isNameChar c = true)
    (h : last.any isNameChar = true ∨ word ≠ callee.chars) (after : List Char) :
    replaceWith callee ask last (word ++ '(' :: after) =
      (word ++ ['('] ++ ·) <$> replaceWith callee ask none after := by
  induction word generalizing last with
  | nil => exact replaceWith_cons_of_not_name hname rfl after
  | cons c word ih =>
    have hrest : ∀ x ∈ word, isNameChar x = true := fun x hx => hword x (List.mem_cons_of_mem _ hx)
    cases hstrip : stripFront? callee.opening (c :: word ++ '(' :: after) with
    | none =>
      have hc : (some c).any isNameChar = true := hword c List.mem_cons_self
      rw [List.cons_append] at hstrip ⊢
      rw [replaceWith_cons hstrip, ih hrest (.inl hc), Functor.map_map]
      rfl
    | some tail =>
      -- The name is found, so that it is the whole word.
      have htext := eq_append_of_stripFront? hstrip
      have hsplit : c :: word ++ '(' :: after = callee.chars ++ '(' :: tail := by
        simpa [Callee.opening] using htext
      have hchars : c :: word = callee.chars := by
        have hwords := congrArg (List.takeWhile isNameChar) hsplit
        rwa [takeWhile_word hword rfl, takeWhile_word hname rfl] at hwords
      obtain rfl : after = tail := by simpa [hchars] using hsplit
      have hlast := h.resolve_right fun hne => hne hchars
      rw [htext, replaceWith_opening_of_continued hlast,
        replaceWith_cons_of_not_name hname rfl, Functor.map_map, hchars]
      simp

theorem replaceFrom_word {word : List Char} (hword : ∀ c ∈ word, isNameChar c = true)
    (h : last.any isNameChar = true ∨ word ≠ callee.chars) (after : List Char) :
    replaceFrom callee replace last (word ++ '(' :: after) =
      (replaceFrom callee replace none after).prepend (word ++ ['(']) :=
  replaceFrom_of_map (replaceWith_word hname hword h after)

/-! ### Rules for whole texts -/

theorem mapCalls_append_cons {p : Char → Prop} {a : List Char} (ha : Nested p a) {c : Char}
    (hc : isNameChar c = false) (hopen : c ≠ '(') (b : List Char) :
    mapCalls callee replace (a ++ c :: b) =
      mapCalls callee replace a ++ c :: mapCalls callee replace b := by
  have hlast : (some c).any isNameChar = false := hc
  rw [mapCalls, replaceFrom_append_cons hname ha _ hc hopen, replaceFrom_eq_none hlast]
  rfl

/-- A call of another name keeps it, and its arguments are rewritten. -/
theorem mapCalls_other {other : Callee} (hother : ∀ c ∈ other.chars, isNameChar c = true)
    (hne : other.chars ≠ callee.chars) {p : Char → Prop} {inside : List Char}
    (hinside : Nested p inside) :
    mapCalls callee replace (other.withArgs inside) =
      other.withArgs (mapCalls callee replace inside) := by
  have htext : other.withArgs inside = other.chars ++ '(' :: (inside ++ ')' :: []) := by
    simp [Callee.withArgs, Callee.opening]
  rw [mapCalls, htext, replaceFrom_word hname hother (.inr hne),
    replaceFrom_append_cons hname hinside none rfl (by decide), replaceFrom_nil]
  simp [Callee.withArgs, Callee.opening, mapCalls]

/-- Arguments are rewritten one by one. -/
theorem mapCalls_joined {args : List (List Char)} (h : ∀ a ∈ args, IsArg a) :
    mapCalls callee replace (joined args) = joined (args.map (mapCalls callee replace)) := by
  induction args with
  | nil => exact congrArg Replaced.text replaceFrom_nil
  | cons a args ih =>
    by_cases hargs : args = []
    · simp [hargs, joined, List.intercalate]
    · rw [joined_cons hargs, List.map_cons, joined_cons (by simpa using hargs),
        mapCalls_append_cons hname (h a List.mem_cons_self) rfl (by decide),
        ih fun b hb => h b (List.mem_cons_of_mem a hb)]

/-- Texts stay nested if a call is replaced by the text of an argument. -/
theorem nested_replaceFrom
    (hreplace : ∀ args out, (∀ a ∈ args, IsArg a) → replace args = some out → IsArg out)
    {p : Char → Prop} (hp : ∀ c, c ≠ ',' → p c) (h : Nested p text) (last : Option Char) :
    Nested p (replaceFrom callee replace last text).text := by
  refine Nested.callInduction hname (motive := fun p last text => (∀ c, c ≠ ',' → p c) →
    Nested p (replaceFrom callee replace last text).text)
    ?nil ?plain ?group ?call ?skip h last hp
  case nil =>
    intro p last _
    rw [replaceFrom_nil]
    exact .nil
  case plain =>
    intro p last c cs hopen hclose hc hstrip _ ih hp
    rw [replaceFrom_cons hstrip]
    exact .plain hopen hclose hc (ih hp)
  case group =>
    intro p last c d inside cs hgroup hinside _ ihInside ihRest hp
    obtain ⟨hc, -, -⟩ := not_isNameChar_of_closer? hgroup
    have hin := ihInside fun _ _ => trivial
    rw [replaceFrom_eq_none (by simpa using hc)] at hin
    rw [replaceFrom_group hname hgroup hinside]
    simpa using Nested.group hgroup hin (ihRest hp)
  case call =>
    intro p last inside cs hlast hchars hinside _ ihInside ihRest hp
    have hin := ihInside fun _ _ => trivial
    have hcall : Nested p ((replace (splitArgs (mapCalls callee replace inside))).getD
        (callee.withArgs (mapCalls callee replace inside))) := by
      cases hout : replace (splitArgs (mapCalls callee replace inside)) with
      | none => exact .withArgs hchars hin
      | some out => exact (hreplace _ out hin.isArg_of_mem_splitArgs hout).mono hp
    rw [replaceFrom_withArgs hinside hlast]
    exact hcall.append (ihRest hp)
  case skip =>
    intro p last after hlast hchars _ ih hp
    rw [replaceFrom_opening_of_continued hlast]
    exact hchars.append (ih hp)

theorem isArg_mapCalls
    (hreplace : ∀ args out, (∀ a ∈ args, IsArg a) → replace args = some out → IsArg out)
    (h : IsArg text) : IsArg (mapCalls callee replace text) :=
  nested_replaceFrom hname hreplace (fun _ hc => hc) h none

theorem isArg_of_mem_map_mapCalls
    (hreplace : ∀ args out, (∀ a ∈ args, IsArg a) → replace args = some out → IsArg out)
    {args : List (List Char)} (h : ∀ a ∈ args, IsArg a) :
    ∀ a ∈ args.map (mapCalls callee replace), IsArg a := by
  intro a ha
  obtain ⟨b, hb, rfl⟩ := List.mem_map.mp ha
  exact isArg_mapCalls hname hreplace (h b hb)

theorem mapCalls_other_joined {other : Callee} (hother : ∀ c ∈ other.chars, isNameChar c = true)
    (hne : other.chars ≠ callee.chars) {args : List (List Char)} (h : ∀ a ∈ args, IsArg a) :
    mapCalls callee replace (other.withArgs (joined args)) =
      other.withArgs (joined (args.map (mapCalls callee replace))) := by
  rw [mapCalls_other hname hother hne (nested_joined h), mapCalls_joined hname h]

/-- A call is offered for replacement with its arguments rewritten. -/
theorem mapCalls_withArgs_joined {args : List (List Char)} (hne : args ≠ [])
    (h : ∀ a ∈ args, IsArg a) (hmapped : ∀ a ∈ args.map (mapCalls callee replace), IsArg a) :
    mapCalls callee replace (callee.withArgs (joined args)) =
      (replace (args.map (mapCalls callee replace))).getD
        (callee.withArgs (joined (args.map (mapCalls callee replace)))) := by
  rw [mapCalls_withArgs (nested_joined h), mapCalls_joined hname h,
    splitArgs_joined (by simpa using hne) hmapped]

end Induction

/-! ### Texts without calls -/

/-- Wherever the name stands before a bracket, it is the end of a longer name. -/
def CallFree (callee : Callee) (text : List Char) : Prop :=
  ∀ before after, text = before ++ callee.opening ++ after →
    before.getLast?.any isNameChar = true

theorem callFree_of_absent {c : Char} (hc : c ∈ callee.opening) (h : c ∉ text) :
    CallFree callee text := by
  rintro before after rfl
  simp [hc] at h

theorem replaceFrom_of_free (h : ∀ before after, text = before ++ callee.opening ++ after →
    (before.getLast?.or last).any isNameChar = true) :
    replaceFrom callee replace last text = ⟨text, []⟩ := by
  induction last, text using replaceWith.induct callee with
  | case1 last text hnone => exact replaceFrom_of_none hnone
  | case2 last text before after hbreak _ _ _ inside rest hgroup hlast =>
    rw [h before after (eq_append_of_breakOn hbreak)] at hlast
    cases hlast
  | case3 last text before after hbreak _ _ _ hskip ih =>
    have htext : text = before ++ callee.chars ++ '(' :: after := by
      rw [eq_append_of_breakOn hbreak]
      simp [Callee.opening]
    have htail : replaceFrom callee replace callee.chars.getLast? ('(' :: after) =
        ⟨'(' :: after, []⟩ := by
      refine ih fun before' after' hafter => ?_
      have hall := h (before ++ callee.chars ++ before') after' (by rw [htext, hafter]; simp)
      rw [List.getLast?_append, List.getLast?_append] at hall
      cases hb : before'.getLast? with
      | some c => simpa [hb] using hall
      | none =>
        obtain ⟨c, hc⟩ := Option.ne_none_iff_exists'.mp
          (fun hnone => callee.nonempty (List.getLast?_eq_none_iff.mp hnone))
        simpa [hb, hc] using hall
    rw [replaceFrom_of_skip hbreak (skip_of_not_call hskip), htail, htext]
    rfl

theorem mapCalls_of_callFree (h : CallFree callee text) : mapCalls callee replace text = text := by
  rw [mapCalls, replaceFrom_of_free]
  intro before after htext
  rw [Option.or_none]
  exact h before after htext

end Calls

end OperandFlow.Term
