/-! Lists in strictly ascending order. -/
namespace OperandFlow.Ordered

variable {α : Type}

/-- Inserts at its place; an element of the same rank gives way. -/
def insert (lt : α → α → Bool) (a : α) : List α → List α
  | [] => [a]
  | b :: bs =>
    if lt a b then a :: b :: bs
    else if lt b a then b :: insert lt a bs
    else a :: bs

def ofList (lt : α → α → Bool) (as : List α) : List α :=
  as.foldl (fun bs a => insert lt a bs) []

/-- Ranks are strictly ordered, and elements with no order between them have the same rank. -/
structure IsRanking (lt : α → α → Bool) : Prop where
  trans : ∀ a b c, lt a b → lt b c → lt a c
  transLeft : ∀ a b c, lt a b = false → lt b a = false → lt b c → lt a c

theorem mem_insert {lt : α → α → Bool} {a x : α} {as : List α} (h : x ∈ insert lt a as) :
    x = a ∨ x ∈ as := by
  induction as with
  | nil => simpa [insert] using h
  | cons b bs ih =>
    simp only [insert] at h
    split at h
    · simpa using h
    · split at h
      · rcases List.mem_cons.1 h with rfl | h
        · simp
        · rcases ih h with rfl | h <;> simp [*]
      · rcases List.mem_cons.1 h with rfl | h <;> simp [*]

theorem pairwise_insert {lt : α → α → Bool} (hlt : IsRanking lt) (a : α) {as : List α}
    (h : as.Pairwise (lt · ·)) : (insert lt a as).Pairwise (lt · ·) := by
  induction as with
  | nil => simp [insert]
  | cons b bs ih =>
    obtain ⟨hb, hbs⟩ := List.pairwise_cons.1 h
    simp only [insert]
    split
    · next hab =>
      refine List.pairwise_cons.2 ⟨fun x hx => ?_, h⟩
      rcases List.mem_cons.1 hx with rfl | hx
      · exact hab
      · exact hlt.trans _ _ _ hab (hb x hx)
    · next hab =>
      split
      · next hba =>
        refine List.pairwise_cons.2 ⟨fun x hx => ?_, ih hbs⟩
        rcases mem_insert hx with rfl | hx
        · exact hba
        · exact hb x hx
      · next hba =>
        refine List.pairwise_cons.2 ⟨fun x hx => ?_, hbs⟩
        exact hlt.transLeft a b x (by simpa using hab) (by simpa using hba) (hb x hx)

theorem pairwise_ofList {lt : α → α → Bool} (hlt : IsRanking lt) (as : List α) :
    (ofList lt as).Pairwise (lt · ·) := by
  have general : ∀ (as bs : List α), bs.Pairwise (lt · ·) →
      (as.foldl (fun bs a => insert lt a bs) bs).Pairwise (lt · ·) := by
    intro as
    induction as with
    | nil => intro bs h; exact h
    | cons a as ih => intro bs h; exact ih _ (pairwise_insert hlt a h)
  exact general as [] List.Pairwise.nil

end OperandFlow.Ordered
