import OperandFlow.Json.Reader
import OperandFlow.Proofs.Json.Scan

/-! Printed values read back. -/
namespace OperandFlow.Json
open Text

/-- Values that are printed as they read: the numbers are words, and the keys are marked as escaped
that are printed with escapes. -/
inductive Plain : Json → Prop where
  | null : Plain .null
  | bool (b : Bool) : Plain (.bool b)
  | nat {n : Nat} (h : n < wordBound) : Plain (.nat n)
  | str (s : String) : Plain (.str s)
  | arr {items : List Json} (h : ∀ j ∈ items, Plain j) : Plain (.arr items)
  | obj {members : List (Key × Json)} (hkeys : ∀ m ∈ members, m.1.escaped = needsEscape m.1.text)
      (h : ∀ m ∈ members, Plain m.2) : Plain (.obj members)

theorem Plain.of_members {members : List (Key × Json)}
    (h : ∀ m ∈ members, m.1.escaped = needsEscape m.1.text ∧ m.2.Plain) : (Json.obj members).Plain :=
  .obj (fun m hm => (h m hm).1) fun m hm => (h m hm).2

mutual

/-- The tokens of a printed value. -/
def tokens : Json → List Token
  | .str s => [textToken s]
  | .arr items => .mark '[' :: itemTokens items ++ [.mark ']']
  | .obj members => .mark '\x7b' :: memberTokens members ++ [.mark '\x7d']
  | j => [.scalar j]

def itemTokens : List Json → List Token
  | [] => []
  | [j] => j.tokens
  | j :: rest => j.tokens ++ .mark ',' :: itemTokens rest

def memberTokens : List (Key × Json) → List Token
  | [] => []
  | [(key, j)] => textToken key.text :: .mark ':' :: j.tokens
  | (key, j) :: rest => textToken key.text :: .mark ':' :: j.tokens ++ .mark ',' :: memberTokens rest

end

theorem scans_itemChars {items : List Json}
    (h : ∀ j ∈ items, ∀ before, Scans before j.chars (j.tokens.reverse ++ before))
    (before : List Token) :
    Scans before (itemChars items) ((itemTokens items).reverse ++ before) := by
  induction items generalizing before with
  | nil => exact .refl before
  | cons j rest ih =>
    cases rest with
    | nil => simpa [itemChars, itemTokens] using h j List.mem_cons_self before
    | cons k rest =>
      have hrest := ih (fun i hi => h i (List.mem_cons_of_mem j hi))
        (.mark ',' :: (j.tokens.reverse ++ before))
      have := (h j List.mem_cons_self before).mark (c := ',') rfl hrest
      simpa [itemChars, itemTokens] using this

theorem scans_memberChars {members : List (Key × Json)}
    (h : ∀ m ∈ members, ∀ before, Scans before m.2.chars (m.2.tokens.reverse ++ before))
    (before : List Token) :
    Scans before (memberChars members) ((memberTokens members).reverse ++ before) := by
  induction members generalizing before with
  | nil => exact .refl before
  | cons m rest ih =>
    obtain ⟨key, j⟩ := m
    have hvalue := h (key, j) List.mem_cons_self (.mark ':' :: textToken key.text :: before)
    have hmember := (scans_quote key.text before).mark (c := ':') rfl hvalue
    cases rest with
    | nil => simpa [memberChars, memberTokens] using hmember
    | cons k rest =>
      have hrest := ih (fun i hi => h i (List.mem_cons_of_mem _ hi))
        (.mark ',' :: (j.tokens.reverse ++ .mark ':' :: textToken key.text :: before))
      have := hmember.mark (c := ',') rfl hrest
      simpa [memberChars, memberTokens] using this

theorem Plain.scans {j : Json} (h : j.Plain) (before : List Token) :
    Scans before j.chars (j.tokens.reverse ++ before) := by
  induction h generalizing before with
  | null => exact scans_lexeme (List.all_eq_true.mp rfl) (List.cons_ne_nil _ _) rfl before
  | bool b =>
    cases b <;> exact scans_lexeme (List.all_eq_true.mp rfl) (List.cons_ne_nil _ _) rfl before
  | nat hn => exact scans_decimal hn before
  | str s => exact scans_quote s before
  | arr h ih =>
    have hitems := scans_itemChars ih (.mark '[' :: before)
    have hclosed := hitems.mark (c := ']') rfl (.refl _)
    have := (Scans.refl before).mark (c := '[') rfl hclosed
    simpa [chars, tokens] using this
  | obj hkeys h ih =>
    have hmembers := scans_memberChars ih (.mark '\x7b' :: before)
    have hclosed := hmembers.mark (c := '\x7d') rfl (.refl _)
    have := (Scans.refl before).mark (c := '\x7b') rfl hclosed
    simpa [chars, tokens] using this

theorem Plain.tokens?_chars {j : Json} (h : j.Plain) : tokens? j.chars = some j.tokens := by
  obtain ⟨s, hs, hclosed⟩ := h.scans []
  rw [tokens?, hs, Option.bind_eq_bind, Option.bind_some, Scanner.finish_eq, hclosed]
  simp

/-- The tokens lead the reader from `r` to `r'`. -/
def Reads (r : Reader) (tokens : List Token) (r' : Reader) : Prop :=
  tokens.foldlM Reader.step r = some r'

namespace Reads

variable {r r₁ r₂ : Reader} {t : Token} {ts us : List Token}

theorem nil (r : Reader) : Reads r [] r := rfl

theorem cons (hstep : r.step t = some r₁) (h : Reads r₁ ts r₂) : Reads r (t :: ts) r₂ := by
  unfold Reads at h ⊢
  rw [List.foldlM_cons, hstep, Option.bind_eq_bind, Option.bind_some, h]

theorem append (h : Reads r ts r₁) (h' : Reads r₁ us r₂) : Reads r (ts ++ us) r₂ := by
  unfold Reads at h h' ⊢
  rw [List.foldlM_append, h, Option.bind_eq_bind, Option.bind_some, h']

/-- Where the array may also end, an item is read as everywhere. -/
theorem itemOrClose {stack : List Frame} {j : Json} {r' : Reader}
    (h : Reads ⟨stack, .value⟩ (j.tokens ++ ts) r') :
    Reads ⟨stack, .itemOrClose⟩ (j.tokens ++ ts) r' := by
  cases j <;> exact h

end Reads

theorem reads_items {j : Json} {rest : List Json}
    (h : ∀ i ∈ j :: rest, ∀ stack, Reads ⟨stack, .value⟩ i.tokens ⟨stack, .after i⟩)
    (done : List Json) (stack : List Frame) :
    Reads ⟨.items done :: stack, .value⟩ (itemTokens (j :: rest) ++ [.mark ']'])
      ⟨stack, .after (.arr (done.reverse ++ j :: rest))⟩ := by
  induction rest generalizing j done with
  | nil =>
    have hclose : Reader.step ⟨.items done :: stack, .after j⟩ (.mark ']') =
        some ⟨stack, .after (.arr (done.reverse ++ [j]))⟩ := by
      simp [Reader.step]
    exact (h j List.mem_cons_self _).append (.cons hclose (.nil _))
  | cons k rest ih =>
    have hrest := ih (fun i hi => h i (List.mem_cons_of_mem j hi)) (j :: done)
    rw [List.reverse_cons, List.append_assoc, List.singleton_append] at hrest
    rw [itemTokens, List.append_assoc]
    · exact (h j List.mem_cons_self _).append (.cons rfl hrest)
    · simp

theorem ofMembers_some (members : List (Key × Json)) :
    ofMembers (members.map fun m => (some m.1, m.2)) = .obj members := by
  have hall : (members.map fun m => (some m.1, m.2)).mapM
      (fun m : Option Key × Json => m.1.map (·, m.2)) = some members := by
    induction members with
    | nil => rfl
    | cons m members ih => simp [ih]
  unfold ofMembers
  split
  · next found hfound =>
    have heq : some found = some members := hfound.symm.trans hall
    cases heq
    rfl
  · next hfound =>
    have heq : none = some members := hfound.symm.trans hall
    cases heq

/-- A member up to its value. -/
theorem reads_member {m : Key × Json} (hkey : m.1.escaped = needsEscape m.1.text)
    (h : ∀ stack, Reads ⟨stack, .value⟩ m.2.tokens ⟨stack, .after m.2⟩)
    (done : List (Option Key × Json)) (stack : List Frame) :
    Reads ⟨.members done :: stack, .key⟩ (textToken m.1.text :: .mark ':' :: m.2.tokens)
      ⟨.member done (some m.1) :: stack, .after m.2⟩ := by
  have htoken : textToken m.1.text = .text (some m.1) := by
    unfold textToken
    rw [← hkey]
  rw [htoken]
  exact .cons rfl (.cons rfl (h _))

theorem reads_members {m : Key × Json} {rest : List (Key × Json)}
    (hkeys : ∀ k ∈ m :: rest, k.1.escaped = needsEscape k.1.text)
    (h : ∀ k ∈ m :: rest, ∀ stack, Reads ⟨stack, .value⟩ k.2.tokens ⟨stack, .after k.2⟩)
    (done : List (Key × Json)) (stack : List Frame) :
    Reads ⟨.members (done.map fun k => (some k.1, k.2)) :: stack, .key⟩
      (memberTokens (m :: rest) ++ [.mark '\x7d'])
      ⟨stack, .after (.obj (done.reverse ++ m :: rest))⟩ := by
  have hmember := fun done => reads_member (hkeys m List.mem_cons_self) (h m List.mem_cons_self) done
    stack
  induction rest generalizing m done with
  | nil =>
    have hclose : Reader.step ⟨.member (done.map fun k => (some k.1, k.2)) (some m.1) :: stack,
        .after m.2⟩ (.mark '\x7d') = some ⟨stack, .after (.obj (done.reverse ++ [m]))⟩ := by
      rw [← ofMembers_some]
      simp [Reader.step]
    exact (hmember _).append (.cons hclose (.nil _))
  | cons k rest ih =>
    have hrest := ih (fun i hi => hkeys i (List.mem_cons_of_mem m hi))
      (fun i hi => h i (List.mem_cons_of_mem m hi)) (m :: done)
      (fun done => reads_member (hkeys k (by simp)) (h k (by simp)) done stack)
    rw [List.reverse_cons, List.append_assoc, List.singleton_append, List.map_cons] at hrest
    have hcomma : Reader.step ⟨.member (done.map fun k => (some k.1, k.2)) (some m.1) :: stack,
        .after m.2⟩ (.mark ',') =
          some ⟨.members ((some m.1, m.2) :: done.map fun k => (some k.1, k.2)) :: stack, .key⟩ :=
      rfl
    have hall := (hmember _).append (.cons hcomma hrest)
    simpa [memberTokens] using hall

theorem Plain.reads {j : Json} (h : j.Plain) (stack : List Frame) :
    Reads ⟨stack, .value⟩ j.tokens ⟨stack, .after j⟩ := by
  induction h generalizing stack with
  | null => rfl
  | bool b => rfl
  | nat h => rfl
  | str s => rfl
  | @arr items h ih =>
    cases items with
    | nil => rfl
    | cons j rest =>
      have hitems := reads_items ih [] stack
      obtain ⟨tail, htail⟩ : ∃ tail, itemTokens (j :: rest) ++ [.mark ']'] = j.tokens ++ tail := by
        cases rest <;> simp [itemTokens]
      rw [htail] at hitems
      rw [tokens, List.cons_append, htail]
      exact .cons rfl hitems.itemOrClose
  | @obj members hkeys h ih =>
    cases members with
    | nil => rfl
    | cons m rest =>
      have hmembers := reads_members hkeys ih [] stack
      cases rest <;> exact .cons rfl hmembers

/-- A printed value reads back. -/
theorem Plain.read?_render {j : Json} (h : j.Plain) : read? j.render = some j := by
  have hreads : j.tokens.foldlM Reader.step ⟨[], .value⟩ = some ⟨[], .after j⟩ := h.reads []
  rw [read?, render, String.toList_ofList, h.tokens?_chars]
  simp only [Option.bind_eq_bind, Option.bind_some, hreads]
  rfl

theorem Plain.readable {j : Json} (h : j.Plain) : j.readable = true := by
  have hitems : ∀ items : List Json, (∀ j ∈ items, j.readable = true) →
      itemsReadable items = true := by
    intro items hall
    induction items with
    | nil => rfl
    | cons j items ih => simp_all [itemsReadable]
  have hmembers : ∀ members : List (Key × Json), (∀ m ∈ members, m.2.readable = true) →
      membersReadable members = true := by
    intro members hall
    induction members with
    | nil => rfl
    | cons m members ih => simp_all [membersReadable]
  induction h with
  | null => rfl
  | bool b => rfl
  | nat h => rfl
  | str s => rfl
  | arr h ih => exact hitems _ ih
  | obj hkeys h ih => exact hmembers _ ih

theorem depth_arr_le {items : List Json} {d : Nat} (h : ∀ j ∈ items, j.depth ≤ d) :
    (Json.arr items).depth ≤ d + 1 := by
  rw [depth]
  apply Nat.succ_le_succ
  induction items with
  | nil => exact Nat.zero_le d
  | cons j items ih =>
    rw [itemsDepth]
    exact Nat.max_le.mpr ⟨h j List.mem_cons_self, ih fun i hi => h i (List.mem_cons_of_mem j hi)⟩

theorem depth_obj_le {members : List (Key × Json)} {d : Nat} (h : ∀ m ∈ members, m.2.depth ≤ d) :
    (Json.obj members).depth ≤ d + 1 := by
  rw [depth]
  apply Nat.succ_le_succ
  induction members with
  | nil => exact Nat.zero_le d
  | cons m members ih =>
    rw [membersDepth]
    exact Nat.max_le.mpr ⟨h m List.mem_cons_self, ih fun i hi => h i (List.mem_cons_of_mem m hi)⟩

/-- The text holds no control characters. -/
def IsVisible (cs : List Char) : Prop := ∀ c ∈ cs, 0x20 ≤ c.toNat

theorem isVisible_append {cs ds : List Char} :
    IsVisible (cs ++ ds) ↔ IsVisible cs ∧ IsVisible ds :=
  List.forall_mem_append

theorem isVisible_cons {c : Char} {cs : List Char} :
    IsVisible (c :: cs) ↔ 0x20 ≤ c.toNat ∧ IsVisible cs :=
  List.forall_mem_cons

theorem isVisible_nil : IsVisible [] := List.forall_mem_nil _

theorem isVisible_escape (c : Char) : IsVisible (escape c) := by
  have hhex : ∀ n, 0x20 ≤ (hexDigit n).toNat := by
    have hall : ∀ k < 16, 0x20 ≤ ((Nat.toDigits 16 k).headD '0').toNat := by decide
    exact fun n => hall (n % 16) (Nat.mod_lt n (by decide))
  unfold escape
  split_ifs with _ _ _ _ _ _ _ hcontrol
  all_goals simp only [isVisible_cons, isVisible_nil, and_true]
  any_goals decide
  · exact ⟨by decide, by decide, by decide, by decide, hhex _, hhex _⟩
  · exact Nat.le_of_not_lt hcontrol

theorem isVisible_quote (s : String) : IsVisible (quote s) := by
  rw [quote, isVisible_append, isVisible_cons, isVisible_cons]
  refine ⟨⟨by decide, ?_⟩, by decide, isVisible_nil⟩
  intro c hc
  obtain ⟨d, -, hd⟩ := List.mem_flatMap.mp hc
  exact isVisible_escape d c hd

theorem isVisible_itemChars {items : List Json} (h : ∀ j ∈ items, IsVisible j.chars) :
    IsVisible (itemChars items) := by
  induction items with
  | nil => exact isVisible_nil
  | cons j rest ih =>
    have hj := h j List.mem_cons_self
    cases rest with
    | nil => exact hj
    | cons k rest =>
      have hrest := ih fun i hi => h i (List.mem_cons_of_mem j hi)
      simp only [itemChars, isVisible_append, isVisible_cons]
      exact ⟨hj, by decide, hrest⟩

theorem isVisible_memberChars {members : List (Key × Json)}
    (h : ∀ m ∈ members, IsVisible m.2.chars) : IsVisible (memberChars members) := by
  induction members with
  | nil => exact isVisible_nil
  | cons m rest ih =>
    obtain ⟨key, j⟩ := m
    have hj := h (key, j) List.mem_cons_self
    cases rest with
    | nil =>
      simp only [memberChars, isVisible_append, isVisible_cons]
      exact ⟨isVisible_quote _, by decide, hj⟩
    | cons k rest =>
      have hrest := ih fun i hi => h i (List.mem_cons_of_mem _ hi)
      simp only [memberChars, isVisible_append, isVisible_cons]
      exact ⟨⟨isVisible_quote _, by decide, hj⟩, by decide, hrest⟩

/-- A printed value holds no control characters. -/
theorem Plain.isVisible {j : Json} (h : j.Plain) : IsVisible j.chars := by
  induction h with
  | null => simp [chars, isVisible_cons, isVisible_nil]
  | bool b => cases b <;> simp [chars, isVisible_cons, isVisible_nil]
  | nat hn =>
    intro c hc
    have hval : 48 ≤ c.val ∧ c.val ≤ 57 := by
      simpa [Char.isDigit] using isDigit_of_mem_decimal hc
    exact Nat.le_trans (by decide) (show 48 ≤ c.toNat from hval.1)
  | str s => exact isVisible_quote s
  | arr h ih =>
    simp only [chars, isVisible_append, isVisible_cons]
    exact ⟨⟨by decide, isVisible_itemChars ih⟩, by decide, isVisible_nil⟩
  | obj hkeys h ih =>
    simp only [chars, isVisible_append, isVisible_cons]
    exact ⟨⟨by decide, isVisible_memberChars ih⟩, by decide, isVisible_nil⟩

end OperandFlow.Json
