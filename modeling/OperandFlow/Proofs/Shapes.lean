import Mathlib.Data.List.Induction
import OperandFlow.Graph.Shape
import OperandFlow.Proofs.Json.Delimiting
import OperandFlow.Proofs.Json.RoundTrip

/-! The text of a shape: it reads back as that shape, and no other shape has it. -/
namespace OperandFlow

namespace Ordered

variable {α : Type} {lt : α → α → Bool}

/-- An element stays unless one of its rank is inserted. -/
theorem mem_insert_of_pairwise (hlt : IsRanking lt) {a x : α} {as : List α}
    (h : as.Pairwise (lt · ·)) :
    x ∈ insert lt a as ↔ x = a ∨ x ∈ as ∧ (lt a x = true ∨ lt x a = true) := by
  induction as with
  | nil => simp [insert]
  | cons b bs ih =>
    obtain ⟨hb, hbs⟩ := List.pairwise_cons.mp h
    simp only [insert]
    split_ifs with hab hba
    · have hall : ∀ y ∈ b :: bs, lt a y = true := List.forall_mem_cons.mpr
        ⟨hab, fun y hy => hlt.trans a b y hab (hb y hy)⟩
      rw [List.mem_cons]
      exact or_congr_right ⟨fun hx => ⟨hx, Or.inl (hall x hx)⟩, fun hx => hx.1⟩
    · rw [List.mem_cons, ih hbs, List.mem_cons]
      grind
    · have hall : ∀ y ∈ bs, lt a y = true := fun y hy =>
        hlt.transLeft a b y (by simpa using hab) (by simpa using hba) (hb y hy)
      rw [List.mem_cons, List.mem_cons]
      grind

/-- Of the elements of one rank the last one stays. -/
theorem mem_ofList_iff (hlt : IsRanking lt) {x : α} (as : List α) :
    x ∈ ofList lt as ↔ ∃ front back, as = front ++ x :: back ∧
      ∀ y ∈ back, lt y x = true ∨ lt x y = true := by
  induction as using List.reverseRecOn with
  | nil => simp [ofList]
  | append_singleton as a ih =>
    have hsnoc : ofList lt (as ++ [a]) = insert lt a (ofList lt as) := by
      simp [ofList, List.foldl_append]
    rw [hsnoc, mem_insert_of_pairwise hlt (pairwise_ofList hlt as), ih]
    constructor
    · rintro (rfl | ⟨⟨front, back, rfl, hback⟩, ha⟩)
      · exact ⟨as, [], rfl, by simp⟩
      · refine ⟨front, back ++ [a], by simp, ?_⟩
        intro y hy
        rcases List.mem_append.mp hy with hy | hy
        · exact hback y hy
        · rw [List.mem_singleton.mp hy]
          exact ha
    · rintro ⟨front, back, heq, hback⟩
      rcases List.eq_nil_or_concat back with rfl | ⟨rest, b, rfl⟩
      · exact Or.inl (List.singleton_inj.mp (List.append_inj' heq rfl).2).symm
      · rw [List.concat_eq_append] at heq hback
        rw [← List.cons_append, ← List.append_assoc] at heq
        obtain ⟨rfl, hlast⟩ := List.append_inj' heq rfl
        cases hlast
        exact Or.inr ⟨⟨front, rest, rfl, fun y hy => hback y (by simp [hy])⟩,
          hback a (by simp)⟩

theorem mem_of_mem_ofList (hlt : IsRanking lt) {x : α} {as : List α} (h : x ∈ ofList lt as) :
    x ∈ as := by
  obtain ⟨front, back, rfl, -⟩ := (mem_ofList_iff hlt as).mp h
  simp

variable (hlt : ∀ a b, lt a b = true → lt b a = false)
include hlt

/-- What ranks last goes to the end. -/
theorem insert_last {a : α} {as : List α} (h : ∀ b ∈ as, lt b a = true) :
    insert lt a as = as ++ [a] := by
  induction as with
  | nil => rfl
  | cons b bs ih =>
    have hb := h b List.mem_cons_self
    simp [insert, hb, hlt b a hb, ih fun c hc => h c (List.mem_cons_of_mem b hc)]

theorem ofList_eq_self {as : List α} (h : as.Pairwise (lt · ·)) : ofList lt as = as := by
  have general : ∀ as bs : List α, (bs ++ as).Pairwise (lt · ·) →
      as.foldl (fun bs a => insert lt a bs) bs = bs ++ as := by
    intro as
    induction as with
    | nil => intro bs _; simp
    | cons a as ih =>
      intro bs hpair
      have hlast : ∀ b ∈ bs, lt b a = true := fun b hb =>
        (List.pairwise_append.mp hpair).2.2 b hb a List.mem_cons_self
      rw [List.foldl_cons, insert_last hlt hlast, ih _ (by simpa using hpair)]
      simp
  exact general as [] h

end Ordered

/-- What is read from a list is read from its members. -/
theorem forall_of_mapM {α β : Type} {f : α → Option β} {P : β → Prop}
    (hf : ∀ a b, f a = some b → P b) {as : List α} {bs : List β} (h : as.mapM f = some bs) :
    ∀ b ∈ bs, P b := by
  induction as generalizing bs with
  | nil =>
    cases h
    exact nofun
  | cons a as ih =>
    rw [List.mapM_cons] at h
    obtain ⟨b, hb, h⟩ := Option.bind_eq_some_iff.mp h
    obtain ⟨rest, hrest, h⟩ := Option.bind_eq_some_iff.mp h
    cases h
    exact List.forall_mem_cons.mpr ⟨hf a b hb, ih hrest⟩

theorem mapM_map_eq_some {α β : Type} {f : β → Option α} {print : α → β} {as : List α}
    (h : ∀ a ∈ as, f (print a) = some a) : (as.map print).mapM f = some as := by
  induction as with
  | nil => rfl
  | cons a as ih =>
    rw [List.map_cons, List.mapM_cons, h a List.mem_cons_self,
      ih fun b hb => h b (List.mem_cons_of_mem a hb)]
    rfl

theorem Json.piece_of_isDigit {c : Char} (h : c.isDigit = true) : piece c = .char c := by
  have hval : 48 ≤ c.val ∧ c.val ≤ 57 := by simpa [Char.isDigit] using h
  have hlow : 48 ≤ c.toNat := hval.1
  have hshort : c ∉ ['"', '\\', '\x08', '\x0c', '\n', '\r', '\t'] := by
    intro hc
    have hall : (['"', '\\', '\x08', '\x0c', '\n', '\r', '\t'].all fun d => !d.isDigit) = true := by
      decide
    simpa [h] using List.all_eq_true.mp hall c hc
  rw [piece, if_neg hshort, if_neg (by omega)]

namespace Shape

/-- The shape that a text spells, in any of its spellings. -/
def read? (text : String) : Option Shape :=
  (Json.read? text).bind ofJson?

/-- The numbers are words. -/
def Fit (labels : List (Nat × String)) (edges : List (Nat × Nat)) : Prop :=
  (∀ l ∈ labels, l.1 < Text.wordBound) ∧
    ∀ e ∈ edges, e.1 < Text.wordBound ∧ e.2 < Text.wordBound

theorem eq_of_lists {s t : Shape} (hlabels : s.labels = t.labels) (hedges : s.edges = t.edges) :
    s = t := by
  cases s
  cases t
  cases hlabels
  cases hedges
  rfl

theorem ofLists_self (s : Shape) : ofLists s.labels s.edges = s := by
  apply eq_of_lists
  · refine Ordered.ofList_eq_self ?_ s.labels_sorted
    intro a b
    simp only [labelBefore, decide_eq_true_eq, decide_eq_false_iff_not]
    omega
  · refine Ordered.ofList_eq_self ?_ s.edges_sorted
    intro a b
    simp only [edgeBefore, Bool.or_eq_true, Bool.and_eq_true, decide_eq_true_eq,
      Bool.or_eq_false_iff, Bool.and_eq_false_iff, decide_eq_false_iff_not]
    omega

theorem fit_ofLists {labels : List (Nat × String)} {edges : List (Nat × Nat)}
    (h : Fit labels edges) : Fit (ofLists labels edges).labels (ofLists labels edges).edges :=
  ⟨fun l hl => h.1 l (Ordered.mem_of_mem_ofList isRanking_labelBefore hl),
    fun e he => h.2 e (Ordered.mem_of_mem_ofList isRanking_edgeBefore he)⟩

/-- Of the labels with one number the last one stays. -/
theorem mem_labels_ofLists {labels : List (Nat × String)} {edges : List (Nat × Nat)}
    {l : Nat × String} : l ∈ (ofLists labels edges).labels ↔
      ∃ front back, labels = front ++ l :: back ∧ ∀ k ∈ back, k.1 ≠ l.1 := by
  rw [ofLists, Ordered.mem_ofList_iff isRanking_labelBefore]
  simp only [labelBefore, decide_eq_true_eq, Nat.lt_or_gt, ne_eq]

theorem mem_edges_ofLists {labels : List (Nat × String)} {edges : List (Nat × Nat)}
    {e : Nat × Nat} : e ∈ (ofLists labels edges).edges ↔ e ∈ edges := by
  constructor
  · exact Ordered.mem_of_mem_ofList isRanking_edgeBefore
  · intro he
    obtain ⟨back, front, heq, hlast⟩ := List.eq_append_cons_of_mem (List.mem_reverse.mpr he)
    refine (Ordered.mem_ofList_iff isRanking_edgeBefore edges).mpr ⟨front.reverse, back.reverse, ?_, ?_⟩
    · rw [← List.reverse_reverse edges, heq]
      simp
    · intro k hk
      have hne : k ≠ e := fun h => hlast (h ▸ List.mem_reverse.mp hk)
      have hne : k.1 ≠ e.1 ∨ k.2 ≠ e.2 := by
        by_contra hsame
        push Not at hsame
        exact hne (Prod.ext hsame.1 hsame.2)
      simp only [edgeBefore, Bool.or_eq_true, Bool.and_eq_true, decide_eq_true_eq]
      omega

/-- The labels as they are written, in any order. -/
def nodesJson (labels : List (Nat × String)) : Json :=
  .obj (labels.map labelJson)

def edgesJson (edges : List (Nat × Nat)) : Json :=
  .arr (edges.map edgeJson)

/-- As a record. -/
def recordJson (labels : List (Nat × String)) (edges : List (Nat × Nat)) : Json :=
  .obj [("nodes", nodesJson labels), ("edges", edgesJson edges)]

/-- As an array of the fields of the record. -/
def arrayJson (labels : List (Nat × String)) (edges : List (Nat × Nat)) : Json :=
  .arr [nodesJson labels, edgesJson edges]

section Reading

variable {labels : List (Nat × String)} {edges : List (Nat × Nat)}

theorem number?_decimal {n : Nat} (h : n < Text.wordBound) :
    number? (String.ofList (Text.decimal n)) = some n := by
  have hread := Text.digits?_decimal n
  unfold number?
  rw [String.toList_ofList]
  cases hdigits : Text.decimal n with
  | nil => exact absurd hdigits Nat.toDigits_ne_nil
  | cons c cs =>
    by_cases hc : c = '0'
    · subst hc
      have hn : n = 0 := Text.head?_decimal (by rw [hdigits]; rfl)
      subst hn
      cases hdigits
      rfl
    · rw [hdigits] at hread
      simp [hc, hread, h]

theorem number?_lt {key : Key} {n : Nat} (h : number? key = some n) : n < Text.wordBound := by
  unfold number? at h
  split at h
  · cases h
    decide
  · split_ifs at h
    simpa using (Option.filter_eq_some_iff.mp h).2
  · cases h

theorem natBelow?_lt {j : Json} {bound n : Nat} (h : j.natBelow? bound = some n) : n < bound := by
  unfold Json.natBelow? at h
  split at h
  · split_ifs at h with hlt
    cases h
    exact hlt
  · cases h

theorem labels?_nodesJson (h : ∀ l ∈ labels, l.1 < Text.wordBound) :
    labels? (nodesJson labels) = some labels := by
  apply mapM_map_eq_some
  intro l hl
  simp [label?, labelJson, number?_decimal (h l hl), Json.str?]

theorem edges?_edgesJson (h : ∀ e ∈ edges, e.1 < Text.wordBound ∧ e.2 < Text.wordBound) :
    edges? (edgesJson edges) = some edges := by
  apply mapM_map_eq_some
  intro e he
  simp [edge?, edgeJson, Json.nat, Json.natBelow?, h e he]

theorem plain_nodesJson (labels : List (Nat × String)) : (nodesJson labels).Plain := by
  apply Json.Plain.of_members
  intro m hm
  obtain ⟨l, -, rfl⟩ := List.mem_map.mp hm
  refine ⟨?_, .str l.2⟩
  -- Digits are written as they are.
  symm
  unfold labelJson Json.needsEscape
  rw [String.toList_ofList, List.any_eq_false]
  intro c hc
  rw [Json.piece_of_isDigit (Text.isDigit_of_mem_decimal hc)]
  simp [Json.isEscape]

theorem plain_edgesJson (h : ∀ e ∈ edges, e.1 < Text.wordBound ∧ e.2 < Text.wordBound) :
    (edgesJson edges).Plain := by
  refine .arr ?_
  intro j hj
  obtain ⟨e, he, rfl⟩ := List.mem_map.mp hj
  refine .arr ?_
  simpa using ⟨.nat (h e he).1, .nat (h e he).2⟩

theorem read?_recordJson (h : Fit labels edges) :
    read? (recordJson labels edges).render = some (ofLists labels edges) := by
  have hplain : (recordJson labels edges).Plain := by
    apply Json.Plain.of_members
    simp only [List.forall_mem_cons, List.not_mem_nil, false_implies, implies_true, and_true]
    exact ⟨⟨by decide, plain_nodesJson labels⟩, by decide, plain_edgesJson h.2⟩
  rw [read?, hplain.read?_render, Option.bind_some]
  simp [recordJson, ofJson?, Json.fields?, labels?_nodesJson h.1, edges?_edgesJson h.2]

theorem read?_arrayJson (h : Fit labels edges) :
    read? (arrayJson labels edges).render = some (ofLists labels edges) := by
  have hplain : (arrayJson labels edges).Plain := by
    refine .arr ?_
    simpa using ⟨plain_nodesJson labels, plain_edgesJson h.2⟩
  rw [read?, hplain.read?_render, Option.bind_some]
  simp [arrayJson, ofJson?, Json.fields?, labels?_nodesJson h.1, edges?_edgesJson h.2]

theorem read?_render {s : Shape} (h : Fit s.labels s.edges) : read? s.render = some s :=
  (read?_recordJson h).trans (congrArg some s.ofLists_self)

theorem fit_of_ofJson? {j : Json} {s : Shape} (h : ofJson? j = some s) : Fit s.labels s.edges := by
  unfold ofJson? at h
  obtain ⟨fields, -, h⟩ := Option.bind_eq_some_iff.mp h
  split at h
  · rename_i nodes edges
    obtain ⟨labels, hlabels, h⟩ := Option.bind_eq_some_iff.mp h
    obtain ⟨pairs, hpairs, h⟩ := Option.bind_eq_some_iff.mp h
    cases h
    apply fit_ofLists
    refine ⟨?_, ?_⟩
    · unfold labels? at hlabels
      split at hlabels
      · refine forall_of_mapM ?_ hlabels
        intro m l hl
        obtain ⟨n, hn, hl⟩ := Option.bind_eq_some_iff.mp hl
        obtain ⟨text, -, hl⟩ := Option.bind_eq_some_iff.mp hl
        cases hl
        exact number?_lt hn
      · cases hlabels
    · unfold edges? at hpairs
      split at hpairs
      · refine forall_of_mapM ?_ hpairs
        intro j e he
        unfold edge? at he
        split at he
        · obtain ⟨a, ha, he⟩ := Option.bind_eq_some_iff.mp he
          obtain ⟨b, hb, he⟩ := Option.bind_eq_some_iff.mp he
          cases he
          exact ⟨natBelow?_lt ha, natBelow?_lt hb⟩
        · cases he
      · cases hpairs
  · cases h

end Reading

section Writing

theorem delimits_label :
    Json.Delimits fun l : Nat × String =>
      Json.quote (labelJson l).1.text ++ ':' :: Json.quote l.2 := by
  have hnumber : Json.Delimits fun n => Json.quote (String.ofList (Text.decimal n)) :=
    Json.delimits_quote.comap fun heq => Json.decimal_injective (String.ofList_injective heq)
  have hlabel := hnumber.append (Json.delimits_quote.cons ':')
  exact hlabel

theorem delimits_labels : Json.Delimits fun labels : List (Nat × String) =>
    Json.commas (fun l => Json.quote (labelJson l).1.text ++ ':' :: Json.quote l.2) labels ++
      ['\x7d'] :=
  delimits_label.commas (by decide) fun l x y heq => by simp [Json.quote] at heq

theorem chars_edgeJson (e : Nat × Nat) :
    (edgeJson e).chars = '[' :: ((Text.decimal e.1 ++ [',']) ++ (Text.decimal e.2 ++ [']'])) := by
  simp [edgeJson, Json.chars, Json.itemChars, Json.nat, Json.integer]

theorem delimits_edges : Json.Delimits fun edges : List (Nat × Nat) =>
    Json.commas (fun e => (edgeJson e).chars) edges ++ [']'] := by
  have hedge : Json.Delimits fun e => (edgeJson e).chars := by
    simp only [chars_edgeJson]
    exact ((Json.delimits_decimal (c := ',') rfl).append
      (Json.delimits_decimal (c := ']') rfl)).cons '['
  refine hedge.commas (by decide) ?_
  intro e x y heq
  rw [chars_edgeJson] at heq
  cases heq

theorem chars_toJson (s : Shape) :
    s.toJson.chars = ('\x7b' :: Json.quote "nodes" ++ [':', '\x7b']) ++
      ((Json.commas (fun l => Json.quote (labelJson l).1.text ++ ':' :: Json.quote l.2) s.labels ++
        ['\x7d']) ++ ((',' :: Json.quote "edges" ++ [':', '[']) ++
          ((Json.commas (fun e => (edgeJson e).chars) s.edges ++ [']']) ++ ['\x7d']))) := by
  simp [toJson, Json.chars, Json.memberChars, Json.memberChars_map, Json.itemChars_map, labelJson]

/-- No two shapes have one text. -/
theorem render_injective {s t : Shape} (h : s.render = t.render) : s = t := by
  have hchars : s.toJson.chars = t.toJson.chars := String.ofList_injective h
  rw [chars_toJson, chars_toJson] at hchars
  obtain ⟨hlabels, hrest⟩ := delimits_labels (List.append_cancel_left hchars)
  obtain ⟨hedges, -⟩ := delimits_edges (List.append_cancel_left hrest)
  exact eq_of_lists hlabels hedges

end Writing

/-- The text of a shape is faithful. Every shape of words reads back from its text; different
shapes have different texts, so that two functions have the same text exactly if they have the same
shape. Labels and edges may be spelled in any order and more than once, where the last label of a
number counts, in a record or in an array; and whatever spelling a shape is read from, its text
spells it again. -/
theorem text_faithful :
    (∀ s : Shape, Fit s.labels s.edges → read? s.render = some s) ∧
      (∀ s t : Shape, s.render = t.render → s = t) ∧
      (∀ labels edges, Fit labels edges → ∃ s,
        read? (recordJson labels edges).render = some s ∧
          read? (arrayJson labels edges).render = some s ∧
          (∀ l, l ∈ s.labels ↔
            ∃ front back, labels = front ++ l :: back ∧ ∀ k ∈ back, k.1 ≠ l.1) ∧
          ∀ e, e ∈ s.edges ↔ e ∈ edges) ∧
      (∀ text s, read? text = some s →
        read? s.render = some s ∧ (read? s.render).map render = some s.render) ∧
      ∀ (g g' : Graph) (function function' : String),
        (g.shape function).render = (g'.shape function').render ↔
          g.shape function = g'.shape function' := by
  refine ⟨fun s h => read?_render h, fun s t h => render_injective h,
    fun labels edges h => ⟨ofLists labels edges, read?_recordJson h, read?_arrayJson h,
      fun l => mem_labels_ofLists, fun e => mem_edges_ofLists⟩, ?_,
    fun g g' function function' => ⟨render_injective, congrArg render⟩⟩
  intro text s h
  obtain ⟨j, -, hj⟩ := Option.bind_eq_some_iff.mp h
  have hback : read? s.render = some s := read?_render (fit_of_ofJson? hj)
  exact ⟨hback, by rw [hback, Option.map_some]⟩

/-- Labels out of order, one of them twice, and an edge that comes twice. -/
theorem text_faithful_unsorted :
    let labels := [(10, "call:CALL"), (2, "log\n"), (10, "\"")]
    let edges := [(10, 2), (2, 10), (10, 2)]
    Fit labels edges ∧ ∃ s, read? (recordJson labels edges).render = some s ∧
      read? (arrayJson labels edges).render = some s ∧
      (10, "\"") ∈ s.labels ∧ (2, 10) ∈ s.edges ∧ read? s.render = some s ∧
      (read? s.render).map render = some s.render := by
  intro labels edges
  have hfit : Fit labels edges := by
    unfold Fit
    decide
  obtain ⟨s, hrecord, harray, hlabels, hedges⟩ := text_faithful.2.2.1 labels edges hfit
  have hlabel : (10, "\"") ∈ s.labels :=
    (hlabels _).mpr ⟨[(10, "call:CALL"), (2, "log\n")], [], rfl, by simp⟩
  have hedge : (2, 10) ∈ s.edges := (hedges _).mpr (by simp [edges])
  exact ⟨hfit, s, hrecord, harray, hlabel, hedge, text_faithful.2.2.2.1 _ s hrecord⟩

end Shape
end OperandFlow
