import OperandFlow.Proofs.Term.Forests
import OperandFlow.Proofs.Text.Bytes

/-! Brackets, as they are read and as a grammar has them. The bracket that closes another one is
found exactly if what stands between the two is nested, in the characters and in the bytes of a text.
What is nested can be replaced by anything nested, and a text whose brackets match is a row of
arguments in one way. -/
namespace OperandFlow

namespace Text

theorem suffixAt?_append (before rest : List Char) :
    suffixAt? (byteLength before) (before ++ rest) = some rest := by
  induction before with
  | nil => cases rest <;> rfl
  | cons c before ih =>
    have hpos := c.utf8Size_pos
    have hbehind : c.utf8Size + byteLength before - c.utf8Size = byteLength before := by omega
    rw [List.cons_append, suffixAt?, byteLength_cons, if_neg (by omega), if_pos (by omega),
      hbehind, ih]

theorem eq_append_of_suffixAt? {offset : Nat} {cs rest : List Char}
    (h : suffixAt? offset cs = some rest) :
    ∃ before, cs = before ++ rest ∧ byteLength before = offset := by
  fun_induction suffixAt? offset cs with
  | case1 | case3 =>
    obtain rfl := Option.some.inj h
    exact ⟨[], rfl, rfl⟩
  | case2 | case5 => cases h
  | case4 offset c cs hzero hle ih =>
    obtain ⟨before, rfl, hlength⟩ := ih h
    refine ⟨c :: before, rfl, ?_⟩
    rw [byteLength_cons]
    omega

end Text

namespace Term
open Text

/-! ### Reading on to the closing bracket -/

/-- What stands before the last of the brackets `awaited`: nested texts, with the other brackets
between them. -/
inductive Closes : List Char → List Char → Prop where
  | last {d : Char} {text : List Char} : Nested (fun _ => True) text → Closes [d] text
  | next {d : Char} {outer text rest : List Char} :
    Nested (fun _ => True) text → Closes outer rest → Closes (d :: outer) (text ++ d :: rest)

/-- A nested text in front changes nothing. -/
theorem Closes.prepend {awaited cs text : List Char} (hcs : Nested (fun _ => True) cs)
    (h : Closes awaited text) : Closes awaited (cs ++ text) := by
  cases h with
  | last htext => exact .last (hcs.append htext)
  | next htext hrest =>
    rw [← List.append_assoc]
    exact .next (hcs.append htext) hrest

/-- The stack is what the text before the closing bracket still has to close. -/
theorem closes_of_closeFrom {awaited seen text inside rest : List Char} (hawaited : awaited ≠ [])
    (h : closeFrom awaited seen text = some (inside, rest)) :
    ∃ between, inside = seen.reverse ++ between ∧ Closes awaited between := by
  fun_induction closeFrom awaited seen text with
  | case1 | case3 | case5 | case7 => cases h
  | case2 awaited seen c cs d hopen ih =>
    obtain ⟨between, rfl, hcloses⟩ := ih (List.cons_ne_nil d awaited) h
    refine ⟨c :: between, by simp, ?_⟩
    cases hcloses with
    | last => exact absurd rfl hawaited
    | @next _ _ text rest htext hrest =>
      have hgroup : Nested (fun _ => True) (c :: text ++ d :: []) := .group hopen htext .nil
      simpa using hrest.prepend hgroup
  | case4 seen cs d =>
    obtain ⟨rfl, -⟩ := Prod.mk.inj (Option.some.inj h)
    exact ⟨[], (List.append_nil _).symm, .last .nil⟩
  | case6 seen cs d outer houter hopen hclose ih =>
    obtain ⟨between, rfl, hcloses⟩ := ih houter h
    exact ⟨d :: between, by simp, .next .nil hcloses⟩
  | case8 awaited seen c cs hopen hclose ih =>
    obtain ⟨between, rfl, hcloses⟩ := ih hawaited h
    have hplain : Nested (fun _ => True) [c] := .plain hopen (by simpa using hclose) trivial .nil
    exact ⟨c :: between, by simp, hcloses.prepend hplain⟩

/-- A group is found exactly if its inside is nested. -/
theorem group?_eq_some_iff {closing : Char} (hclosing : isCloser closing = true)
    {text inside rest : List Char} :
    group? closing text = some (inside, rest) ↔
      text = inside ++ closing :: rest ∧ Nested (fun _ => True) inside := by
  constructor
  · intro h
    obtain ⟨between, rfl, hcloses⟩ := closes_of_closeFrom (List.cons_ne_nil closing []) h
    refine ⟨eq_append_of_group? h, ?_⟩
    cases hcloses with
    | last hnested => exact hnested
    | next _ hrest => cases hrest
  · rintro ⟨rfl, hnested⟩
    exact hnested.group?_append closing hclosing rest

theorem group?_append_of_some {closing : Char} (hclosing : isCloser closing = true)
    {text inside rest : List Char} (h : group? closing text = some (inside, rest))
    (more : List Char) : group? closing (text ++ more) = some (inside, rest ++ more) := by
  obtain ⟨rfl, hinside⟩ := (group?_eq_some_iff hclosing).mp h
  rw [List.append_assoc, List.cons_append, hinside.group?_append closing hclosing]

/-- A text whose brackets match is closed by a bracket behind it, and by none of its own. -/
theorem nested_iff_group? {cs : List Char} :
    Nested (fun _ => True) cs ↔ group? ')' cs = none ∧ (group? ')' (cs ++ [')'])).isSome := by
  constructor
  · intro h
    refine ⟨?_, by rw [h.group?_append ')' rfl]; rfl⟩
    cases hgroup : group? ')' cs with
    | none => rfl
    | some parts =>
      -- The group would end inside `cs`, and also at its end.
      obtain ⟨htext, hinside⟩ := (group?_eq_some_iff rfl).mp hgroup
      have hend := h.group?_append ')' rfl []
      rw [htext, List.append_assoc, List.cons_append, hinside.group?_append ')' rfl] at hend
      have hlength := congrArg List.length (Prod.mk.inj (Option.some.inj hend)).2
      simp at hlength
  · rintro ⟨hopen, hsome⟩
    obtain ⟨⟨inside, rest⟩, hgroup⟩ := Option.isSome_iff_exists.mp hsome
    obtain ⟨htext, hinside⟩ := (group?_eq_some_iff rfl).mp hgroup
    rcases List.eq_nil_or_concat rest with rfl | ⟨front, c, rfl⟩
    · obtain rfl := List.append_cancel_right htext
      exact hinside
    · have hcs : cs = inside ++ ')' :: front := by
        rw [List.concat_eq_append, ← List.cons_append, ← List.append_assoc] at htext
        exact List.append_inj_left' htext rfl
      rw [hcs, hinside.group?_append ')' rfl] at hopen
      cases hopen

instance (cs : List Char) : Decidable (Nested (fun _ => True) cs) :=
  decidable_of_iff _ nested_iff_group?.symm

/-! ### Texts with the same brackets -/

/-- In front of the same text, both find the closing bracket or both do not. -/
def SameBrackets (a b : List Char) : Prop :=
  ∀ awaited rest, awaited ≠ [] →
    (closeFrom awaited [] (a ++ rest)).isSome = (closeFrom awaited [] (b ++ rest)).isSome

/-- What was seen on the way does not matter. -/
theorem isSome_closeFrom (awaited seen seen' text : List Char) :
    (closeFrom awaited seen text).isSome = (closeFrom awaited seen' text).isSome := by
  fun_induction closeFrom awaited seen text generalizing seen' with
  | case2 awaited seen c cs d hopen ih => simpa [closeFrom, hopen] using ih (c :: seen')
  | case6 seen cs d outer houter hopen hclose ih =>
    simpa [closeFrom, hopen, hclose, houter] using ih (d :: seen')
  | case8 awaited seen c cs hopen hclose ih =>
    simpa [closeFrom, hopen, hclose] using ih (c :: seen')
  | _ => simp_all [closeFrom]

namespace SameBrackets

variable {a b a' b' : List Char}

theorem refl (a : List Char) : SameBrackets a a := fun _ _ _ => rfl

theorem trans {c : List Char} (h : SameBrackets a b) (h' : SameBrackets b c) : SameBrackets a c :=
  fun awaited rest hne => (h awaited rest hne).trans (h' awaited rest hne)

theorem cons (c : Char) (h : SameBrackets a b) : SameBrackets (c :: a) (c :: b) := by
  have hnext : ∀ awaited rest, awaited ≠ [] → (closeFrom awaited [c] (a ++ rest)).isSome =
      (closeFrom awaited [c] (b ++ rest)).isSome := by
    intro awaited rest hne
    rw [isSome_closeFrom _ _ [], h awaited rest hne, isSome_closeFrom _ _ [c]]
  intro awaited rest hne
  obtain ⟨d, outer, rfl⟩ := List.exists_cons_of_ne_nil hne
  cases hopen : closer? c with
  | some e => simpa [closeFrom, hopen] using hnext (e :: d :: outer) rest (by simp)
  | none =>
    cases hclose : isCloser c with
    | false => simpa [closeFrom, hopen, hclose] using hnext (d :: outer) rest hne
    | true =>
      by_cases hd : c = d
      · subst hd
        cases outer with
        | nil => simp [closeFrom, hopen, hclose]
        | cons e outer => simpa [closeFrom, hopen, hclose] using hnext (e :: outer) rest (by simp)
      · cases outer <;> simp [closeFrom, hopen, hclose, hd]

theorem append (h : SameBrackets a b) (h' : SameBrackets a' b') :
    SameBrackets (a ++ a') (b ++ b') := by
  have hfront : SameBrackets (b ++ a') (b ++ b') := by
    clear h
    induction b with
    | nil => exact h'
    | cons c b ih => exact ih.cons c
  have hback : SameBrackets (a ++ a') (b ++ a') := by
    intro awaited rest hne
    rw [List.append_assoc, List.append_assoc]
    exact h awaited (a' ++ rest) hne
  exact hback.trans hfront

theorem of_nested {p q : Char → Prop} (ha : Nested p a) (hb : Nested q b) : SameBrackets a b := by
  intro awaited rest hne
  rw [ha.closeFrom_append hne, hb.closeFrom_append hne]
  exact isSome_closeFrom _ _ _ _

theorem group?_eq_none (h : SameBrackets a b) {closing : Char} :
    group? closing a = none ↔ group? closing b = none := by
  have hsome := h [closing] [] (by simp)
  rw [List.append_nil, List.append_nil] at hsome
  rw [← Option.isNone_iff_eq_none, ← Option.isNone_iff_eq_none, ← Option.not_isSome,
    ← Option.not_isSome]
  exact hsome ▸ Iff.rfl

theorem nested (h : SameBrackets a b) (ha : Nested (fun _ => True) a) :
    Nested (fun _ => True) b := by
  rw [nested_iff_group?] at ha ⊢
  exact ⟨h.group?_eq_none.mp ha.1, (h [')'] [')'] (by simp)).symm.trans ha.2⟩

end SameBrackets

namespace Bracket

theorem isCloser_closer (kind : Bracket) : isCloser kind.closer = true :=
  (isCloser_of_closer? kind.closer?_opener).2

theorem exists_of_isCloser {c : Char} (h : isCloser c = true) :
    ∃ kind : Bracket, kind.closer = c := by
  simp only [isCloser, Bool.or_eq_true, decide_eq_true_eq] at h
  rcases h with rfl | rfl
  · exact ⟨round, rfl⟩
  · exact ⟨square, rfl⟩

end Bracket

/-- The pair of brackets in a text, with what stands around them. -/
theorem closeIndex?_eq_some_iff_exists {text : List Char} {o c : Nat} :
    closeIndex? text o = some c ↔
      ∃ (kind : Bracket) (before inside after : List Char),
        text = before ++ kind.opener :: (inside ++ kind.closer :: after) ∧
          Nested (fun _ => True) inside ∧ byteLength before = o ∧
          o + 1 + byteLength inside = c := by
  have hsize : ∀ kind : Bracket, kind.opener.utf8Size = 1 := fun kind => by cases kind <;> rfl
  constructor
  · intro h
    simp only [closeIndex?, Option.bind_eq_bind, Option.bind_eq_some_iff] at h
    obtain ⟨suffix, hsuffix, h⟩ := h
    obtain ⟨before, rfl, hbefore⟩ := eq_append_of_suffixAt? hsuffix
    split at h
    · cases h
    · next x rest =>
      simp only [Option.bind_eq_some_iff] at h
      obtain ⟨d, hopen, ⟨inside, after⟩, hgroup, hc⟩ := h
      obtain ⟨kind, rfl, rfl⟩ := Bracket.exists_of_closer? hopen
      obtain ⟨rfl, hinside⟩ := (group?_eq_some_iff kind.isCloser_closer).mp hgroup
      refine ⟨kind, before, inside, after, rfl, hinside, hbefore, ?_⟩
      rw [← hsize kind]
      exact Option.some.inj hc
  · rintro ⟨kind, before, inside, after, rfl, hinside, rfl, rfl⟩
    rw [closeIndex?, suffixAt?_append]
    simp [kind.closer?_opener, hinside.group?_append kind.closer kind.isCloser_closer, hsize]

/-! ### Bytes -/

namespace Bracket

def openByte (kind : Bracket) : UInt8 := kind.opener.toUInt8

def closeByte (kind : Bracket) : UInt8 := kind.closer.toUInt8

end Bracket

/-- Bytes whose brackets match: each bracket is closed by one of its own kind, and all other bytes
may stand anywhere. -/
inductive WellNested : List UInt8 → Prop where
  | nil : WellNested []
  | other {b : UInt8} {bs : List UInt8} :
    (∀ kind : Bracket, b ≠ kind.openByte ∧ b ≠ kind.closeByte) → WellNested bs →
      WellNested (b :: bs)
  | group (kind : Bracket) {inside bs : List UInt8} : WellNested inside → WellNested bs →
      WellNested (kind.openByte :: inside ++ kind.closeByte :: bs)

/-- The bytes at `o` and `c` are a pair of brackets, with well-nested bytes between them. -/
def IsPair (bs : List UInt8) (o c : Nat) : Prop :=
  o < c ∧ ∃ kind : Bracket, bs[o]? = some kind.openByte ∧ bs[c]? = some kind.closeByte ∧
    WellNested ((bs.take c).drop (o + 1))

theorem isPair_iff_exists {bs : List UInt8} {o c : Nat} :
    IsPair bs o c ↔
      ∃ (kind : Bracket) (before inside after : List UInt8),
        bs = before ++ kind.openByte :: (inside ++ kind.closeByte :: after) ∧ WellNested inside ∧
          before.length = o ∧ o + 1 + inside.length = c := by
  constructor
  · rintro ⟨hlt, kind, hopen, hclose, hinside⟩
    obtain ⟨ho, hopen⟩ := List.getElem?_eq_some_iff.mp hopen
    obtain ⟨hc, hclose⟩ := List.getElem?_eq_some_iff.mp hclose
    refine ⟨kind, bs.take o, (bs.take c).drop (o + 1), bs.drop (c + 1), ?_, hinside, ?_, ?_⟩
    · have hbehind : bs.drop (o + 1) = (bs.take c).drop (o + 1) ++ bs.drop c := by
        rw [← List.drop_append_of_le_length (by simp; omega), List.take_append_drop]
      rw [← hopen, ← hclose, ← List.drop_eq_getElem_cons, ← hbehind, ← List.drop_eq_getElem_cons,
        List.take_append_drop]
    · rw [List.length_take]
      omega
    · rw [List.length_drop, List.length_take]
      omega
  · rintro ⟨kind, before, inside, after, rfl, hinside, rfl, rfl⟩
    have hfront : before ++ kind.openByte :: (inside ++ kind.closeByte :: after) =
        (before ++ kind.openByte :: inside) ++ kind.closeByte :: after := by simp
    have hlength : before.length + 1 + inside.length =
        (before ++ kind.openByte :: inside).length := by
      simp only [List.length_append, List.length_cons]
      omega
    refine ⟨by omega, kind, by simp, ?_, ?_⟩
    · rw [hfront, hlength]
      simp
    · rw [hfront, hlength, List.take_left]
      simpa using hinside

/-! ### Characters and their bytes -/

namespace Bracket

variable (kind : Bracket)

theorem utf8EncodeChar_opener : String.utf8EncodeChar kind.opener = [kind.openByte] := by
  cases kind <;> rfl

theorem utf8EncodeChar_closer : String.utf8EncodeChar kind.closer = [kind.closeByte] := by
  cases kind <;> rfl

theorem openByte_lt : kind.openByte.toNat < 128 := by
  cases kind <;> decide

theorem closeByte_lt : kind.closeByte.toNat < 128 := by
  cases kind <;> decide

theorem ofNat_openByte : Char.ofNat kind.openByte.toNat = kind.opener := by
  cases kind <;> rfl

theorem ofNat_closeByte : Char.ofNat kind.closeByte.toNat = kind.closer := by
  cases kind <;> rfl

theorem closeByte_ne_openByte (kind' : Bracket) : kind.closeByte ≠ kind'.openByte := by
  cases kind <;> cases kind' <;> decide

theorem openByte_injective : Function.Injective openByte := by
  intro kind kind' h
  refine opener_injective ?_
  rw [← ofNat_openByte, h, ofNat_openByte]

end Bracket

/-- The bytes of a character that is no bracket are no brackets either. -/
theorem ne_of_mem_utf8EncodeChar {c : Char} {b : UInt8} (hopen : closer? c = none)
    (hclose : isCloser c = false) (hb : b ∈ String.utf8EncodeChar c) (kind : Bracket) :
    b ≠ kind.openByte ∧ b ≠ kind.closeByte := by
  constructor
  · rintro rfl
    have hc := toNat_of_mem_utf8EncodeChar kind.openByte_lt hb
    rw [← Char.ofNat_toNat c, hc, kind.ofNat_openByte, kind.closer?_opener] at hopen
    cases hopen
  · rintro rfl
    have hc := toNat_of_mem_utf8EncodeChar kind.closeByte_lt hb
    rw [← Char.ofNat_toNat c, hc, kind.ofNat_closeByte, kind.isCloser_closer] at hclose
    cases hclose

namespace WellNested

variable {front bs : List UInt8}

theorem of_cons {b : UInt8} (hb : ∀ kind : Bracket, b ≠ kind.openByte) (h : WellNested (b :: bs)) :
    (∀ kind : Bracket, b ≠ kind.closeByte) ∧ WellNested bs := by
  generalize htext : b :: bs = text at h
  cases h with
  | nil => cases htext
  | other hother hrest =>
    obtain ⟨rfl, rfl⟩ := List.cons.inj htext
    exact ⟨fun kind => (hother kind).2, hrest⟩
  | group kind =>
    obtain ⟨rfl, -⟩ := List.cons.inj htext
    exact absurd rfl (hb kind)

theorem of_cons_openByte {kind : Bracket} (h : WellNested (kind.openByte :: bs)) :
    ∃ inside rest, bs = inside ++ kind.closeByte :: rest ∧ WellNested inside ∧ WellNested rest := by
  generalize htext : kind.openByte :: bs = text at h
  cases h with
  | nil => cases htext
  | other hother =>
    obtain ⟨rfl, -⟩ := List.cons.inj htext
    exact absurd rfl (hother kind).1
  | group kind' hinside hrest =>
    obtain ⟨hkind, rfl⟩ := List.cons.inj htext
    obtain rfl := Bracket.openByte_injective hkind
    exact ⟨_, _, rfl, hinside, hrest⟩

theorem append_iff
    (hfront : ∀ b ∈ front, ∀ kind : Bracket, b ≠ kind.openByte ∧ b ≠ kind.closeByte) :
    WellNested (front ++ bs) ↔ WellNested bs := by
  induction front with
  | nil => exact Iff.rfl
  | cons b front ih =>
    have hb := hfront b List.mem_cons_self
    rw [← ih fun x hx => hfront x (List.mem_cons_of_mem b hx), List.cons_append]
    exact ⟨fun h => (h.of_cons fun kind => (hb kind).1).2, .other hb⟩

end WellNested

theorem Nested.wellNested {p : Char → Prop} {cs : List Char} (h : Nested p cs) :
    WellNested (utf8 cs) := by
  induction h with
  | nil => exact .nil
  | plain hopen hclose _ _ ih =>
    rw [utf8_cons, WellNested.append_iff fun b hb => ne_of_mem_utf8EncodeChar hopen hclose hb]
    exact ih
  | group hopen _ _ ihInside ihRest =>
    obtain ⟨kind, rfl, rfl⟩ := Bracket.exists_of_closer? hopen
    simpa [kind.utf8EncodeChar_opener, kind.utf8EncodeChar_closer] using
      WellNested.group kind ihInside ihRest

/-- Bytes are well-nested only if the characters are. The induction is on the number of these. -/
theorem nested_of_wellNested {cs : List Char} (h : WellNested (utf8 cs)) :
    Nested (fun _ => True) cs := by
  generalize hlength : cs.length = n
  induction n using Nat.strongRecOn generalizing cs with
  | _ n ih =>
    subst hlength
    cases cs with
    | nil => exact .nil
    | cons c cs =>
      rw [utf8_cons] at h
      cases hopen : closer? c with
      | some d =>
        obtain ⟨kind, rfl, rfl⟩ := Bracket.exists_of_closer? hopen
        rw [kind.utf8EncodeChar_opener] at h
        obtain ⟨inside, rest, hcs, hinside, hrest⟩ := h.of_cons_openByte
        obtain ⟨before, after, rfl, rfl, rfl⟩ := exists_append_of_utf8_eq kind.closeByte_lt hcs
        rw [kind.ofNat_closeByte] at ih ⊢
        refine .group hopen (ih _ ?_ hinside rfl) (ih _ ?_ hrest rfl)
        all_goals
          simp only [List.length_append, List.length_cons]
          omega
      | none =>
        cases hclose : isCloser c with
        | true =>
          obtain ⟨kind, rfl⟩ := Bracket.exists_of_isCloser hclose
          rw [kind.utf8EncodeChar_closer] at h
          exact absurd rfl ((h.of_cons kind.closeByte_ne_openByte).1 kind)
        | false =>
          rw [WellNested.append_iff fun b hb => ne_of_mem_utf8EncodeChar hopen hclose hb] at h
          exact .plain hopen hclose trivial (ih cs.length (by simp) h rfl)

theorem closeIndex?_eq_some_iff_isPair {text : String} {o c : Nat} :
    closeIndex? text.toList o = some c ↔ IsPair (bytes text) o c := by
  rw [closeIndex?_eq_some_iff_exists, isPair_iff_exists, bytes_eq_utf8]
  constructor
  · rintro ⟨kind, before, inside, after, htext, hinside, rfl, rfl⟩
    refine ⟨kind, utf8 before, utf8 inside, utf8 after, ?_, hinside.wellNested,
      length_utf8 before, ?_⟩
    · simp [htext, kind.utf8EncodeChar_opener, kind.utf8EncodeChar_closer]
    · rw [length_utf8]
  · rintro ⟨kind, before, inside, after, htext, hinside, rfl, rfl⟩
    obtain ⟨front, behind, hcs, rfl, hbehind⟩ := exists_append_of_utf8_eq kind.openByte_lt htext
    obtain ⟨middle, back, rfl, rfl, rfl⟩ := exists_append_of_utf8_eq kind.closeByte_lt hbehind
    rw [kind.ofNat_openByte, kind.ofNat_closeByte] at hcs
    refine ⟨kind, front, middle, back, hcs, nested_of_wellNested hinside, ?_, ?_⟩
    · rw [length_utf8]
    · rw [length_utf8, length_utf8]

/-- The closing bracket of a pair is found from every byte, and only there; and it is the only
one. -/
theorem closeIndex?_finds_pair (text : String) (o : Nat) :
    (∀ c, closeIndex? text.toList o = some c ↔ IsPair (bytes text) o c) ∧
      ∀ c c', IsPair (bytes text) o c → IsPair (bytes text) o c' → c = c' := by
  refine ⟨fun c => closeIndex?_eq_some_iff_isPair, ?_⟩
  intro c c' h h'
  rw [← closeIndex?_eq_some_iff_isPair] at h h'
  exact Option.some.inj (h.symm.trans h')

/-- A pair with groups of both kinds inside, behind a character of two bytes. No pair starts at the
second of these. -/
theorem closeIndex?_finds_pair_behind_wide :
    IsPair (bytes "é(a[1],(b))]") 2 11 ∧ (∀ c, IsPair (bytes "é(a[1],(b))]") 2 c → c = 11) ∧
      ∀ c, ¬ IsPair (bytes "é(a[1],(b))]") 1 c := by
  have hfound : closeIndex? "é(a[1],(b))]".toList 2 = some 11 := by decide
  have hinside : closeIndex? "é(a[1],(b))]".toList 1 = none := by decide
  obtain ⟨hiff, hunique⟩ := closeIndex?_finds_pair "é(a[1],(b))]" 2
  have hpair := (hiff 11).mp hfound
  refine ⟨hpair, fun c hc => hunique c 11 hc hpair, ?_⟩
  intro c hc
  rw [← (closeIndex?_finds_pair "é(a[1],(b))]" 1).1 c, hinside] at hc
  cases hc

/-! ### Rows of arguments -/

theorem isArg_iff_splitArgs {cs : List Char} :
    IsArg cs ↔ Nested (fun _ => True) cs ∧ splitArgs cs = [cs] := by
  constructor
  · intro h
    exact ⟨h.mono fun _ _ => trivial, h.splitArgs⟩
  · rintro ⟨hnested, hsplit⟩
    exact hnested.isArg_of_mem_splitArgs cs (by simp [hsplit])

instance (cs : List Char) : Decidable (IsArg cs) :=
  decidable_of_iff _ isArg_iff_splitArgs.symm

theorem nested_iff_forall_isArg {text : List Char} :
    Nested (fun _ => True) text ↔ ∀ a ∈ splitArgs text, IsArg a := by
  constructor
  · intro h
    exact h.isArg_of_mem_splitArgs
  · intro h
    have hjoined := nested_joined h
    rwa [joined_splitArgs] at hjoined

/-- Splitting a text into its arguments and joining them again are inverse: joining gives every text
back, and splitting every row of arguments. What is split off a text is a row of arguments exactly
if the brackets of the text match. -/
theorem splitArgs_joined_inverse :
    (∀ text, joined (splitArgs text) = text) ∧
      (∀ args : List (List Char), args ≠ [] → (∀ a ∈ args, IsArg a) →
        splitArgs (joined args) = args) ∧
      ∀ text, Nested (fun _ => True) text ↔ ∀ a ∈ splitArgs text, IsArg a :=
  ⟨joined_splitArgs, fun _ => splitArgs_joined, fun _ => nested_iff_forall_isArg⟩

/-- A text in which the depth goes below zero, a row with commas inside brackets of both kinds and
an empty argument, and the text of that row. -/
theorem splitArgs_joined_inverse_mixed :
    joined (splitArgs "a),b,(c".toList) = "a),b,(c".toList ∧
      splitArgs (joined ["f(a,b)".toList, [], "d[1,(2,3)]".toList]) =
        ["f(a,b)".toList, [], "d[1,(2,3)]".toList] ∧
      ∀ a ∈ splitArgs "f(a,b),,d[1,(2,3)]".toList, IsArg a := by
  obtain ⟨hjoined, hsplit, hnested⟩ := splitArgs_joined_inverse
  have hargs : ∀ a ∈ ["f(a,b)".toList, [], "d[1,(2,3)]".toList], IsArg a := by decide
  have htext : Nested (fun _ => True) "f(a,b),,d[1,(2,3)]".toList := by decide
  exact ⟨hjoined _, hsplit _ (by simp) hargs, (hnested _).mp htext⟩

end Term
end OperandFlow
