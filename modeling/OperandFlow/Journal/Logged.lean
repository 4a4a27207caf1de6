import OperandFlow.Journal.Event

/-! Results together with the events on the way to them. The events never bear on the result. -/
namespace OperandFlow

structure Logged (α : Type) where
  value : α
  events : List Event

namespace Logged

variable {α β : Type}

instance : Monad Logged where
  pure a := ⟨a, []⟩
  bind x f := ⟨(f x.value).value, x.events ++ (f x.value).events⟩

def emit (e : Event) : Logged Unit := ⟨(), [e]⟩

@[simp] theorem value_pure (a : α) : (pure a : Logged α).value = a := rfl

@[simp] theorem value_bind (x : Logged α) (f : α → Logged β) :
    (x >>= f).value = (f x.value).value := rfl

@[simp] theorem events_pure (a : α) : (pure a : Logged α).events = [] := rfl

@[simp] theorem events_bind (x : Logged α) (f : α → Logged β) :
    (x >>= f).events = x.events ++ (f x.value).events := rfl

/-- The first element with `p`; the ones behind it are not looked at. -/
def find? (p : α → Logged Bool) : List α → Logged (Option α)
  | [] => pure none
  | a :: as => do if ← p a then pure (some a) else find? p as

@[simp] theorem value_find? (p : α → Logged Bool) (as : List α) :
    (find? p as).value = as.find? fun a => (p a).value := by
  induction as with
  | nil => rfl
  | cons a as ih =>
    simp only [find?, value_bind, List.find?_cons]
    cases (p a).value <;> simp [ih]

/-- Some element has `p`; the ones behind it are not looked at. -/
def any (p : α → Logged Bool) (as : List α) : Logged Bool := do
  return (← find? p as).isSome

@[simp] theorem value_any (p : α → Logged Bool) (as : List α) :
    (any p as).value = as.any fun a => (p a).value := by
  rw [Bool.eq_iff_iff]
  simp [any]

/-- Applies `f` to the elements in order. -/
def map (f : α → Logged β) : List α → Logged (List β)
  | [] => pure []
  | a :: as => do
    let b ← f a
    return b :: (← map f as)

@[simp] theorem value_map (f : α → Logged β) (as : List α) :
    (map f as).value = as.map fun a => (f a).value := by
  induction as with
  | nil => rfl
  | cons a as ih => simp [map, ih]

/-- Applies `f` to the elements in order, up to the first that it fails on. -/
def mapOk {ε : Type} (f : α → Logged (Except ε β)) : List α → Logged (Except ε (List β))
  | [] => pure (.ok [])
  | a :: as => do
    match ← f a with
    | .error e => return .error e
    | .ok b => return (← mapOk f as).map (b :: ·)

@[simp] theorem value_mapOk {ε : Type} (f : α → Logged (Except ε β)) (as : List α) :
    (mapOk f as).value = as.mapM fun a => (f a).value := by
  induction as with
  | nil => rfl
  | cons a as ih =>
    simp only [mapOk, value_bind, List.mapM_cons]
    cases (f a).value with
    | error e => rfl
    | ok b =>
      simp only [value_bind, value_pure, ih]
      cases List.mapM (fun a => (f a).value) as <;> rfl

/-- Carries a state through the elements in order. -/
def fold (f : β → α → Logged β) (b : β) : List α → Logged β
  | [] => pure b
  | a :: as => do fold f (← f b a) as

@[simp] theorem value_fold (f : β → α → Logged β) (b : β) (as : List α) :
    (fold f b as).value = as.foldl (fun b a => (f b a).value) b := by
  induction as generalizing b with
  | nil => rfl
  | cons a as ih => simp [fold, ih]

end Logged
end OperandFlow
