import OperandFlow.Proofs.Graph.Search

/-! What is looked at and asked on the way to a decision changes nothing. -/
namespace OperandFlow

namespace Event

/-- A search begins, looks at a rendering or asks the oracle. -/
def isQuestion : Event → Bool
  | edgeSearchStarted .. | consulted _ | oracleAsked .. | oracleFailed .. => true
  | _ => false

end Event

def Asking (es : List Event) : Prop := ∀ e ∈ es, e.isQuestion = true

theorem asking_nil : Asking [] := List.forall_mem_nil _

theorem Asking.append {es es' : List Event} (h : Asking es) (h' : Asking es') :
    Asking (es ++ es') :=
  fun e he => (List.mem_append.mp he).elim (h e) (h' e)

section Loops

variable {α β : Type}

theorem asking_find? {p : α → Logged Bool} (h : ∀ a, Asking (p a).events) (l : List α) :
    Asking (Logged.find? p l).events := by
  induction l with
  | nil => exact asking_nil
  | cons a l ih =>
    refine (h a).append ?_
    cases (p a).value with
    | true => exact asking_nil
    | false => exact ih

theorem asking_map {f : α → Logged β} (h : ∀ a, Asking (f a).events) (l : List α) :
    Asking (Logged.map f l).events := by
  induction l with
  | nil => exact asking_nil
  | cons a l ih => exact (h a).append (ih.append asking_nil)

end Loops

/-- The result is there already, and only questions are asked on the way to it. -/
structure Logged.Idle {α : Type} (x : Logged α) (a : α) : Prop where
  value : x.value = a
  asking : Asking x.events

namespace Logged.Idle

variable {α β : Type} {x : Logged α} {f : α → Logged β} {a : α} {b : β}

theorem stop (a : α) : Idle (pure a : Logged α) a := ⟨rfl, asking_nil⟩

theorem of_asking (h : Asking x.events) : x.Idle x.value := ⟨rfl, h⟩

theorem bind (hx : x.Idle a) (hf : (f a).Idle b) : (x >>= f).Idle b := by
  obtain ⟨rfl, hx⟩ := hx
  exact ⟨hf.value, hx.append hf.asking⟩

end Logged.Idle

namespace Graph

theorem asking_consult (d : Datum) : Asking (consult d).events := by
  simp [consult, Asking, Event.isQuestion]

theorem asking_sameValue (host : Host) (l r : Datum) : Asking (sameValue host l r).events := by
  refine (asking_consult l).append ((asking_consult r).append ?_)
  dsimp only
  split
  · exact asking_nil
  · unfold ask
    cases host.oracle.answer l.value r.value <;> simp [Asking, Event.isQuestion]

theorem asking_produces (host : Host) (d : Datum) (n : Node) :
    Asking (produces host d n).events := by
  unfold produces
  split
  · exact asking_nil
  · split
    · exact asking_sameValue host _ d
    · split
      · exact asking_nil
      · exact (asking_find? (fun s : Slot => asking_sameValue host s.datum d) _).append
          asking_nil

/-- To find a producer, other nodes are only looked at. -/
theorem asking_resolve (host : Host) (candidates : List Node) (s : Slot) :
    Asking (resolve host candidates s).events := by
  unfold resolve
  split_ifs
  · exact asking_nil
  · exact ((asking_find? (asking_produces host s.datum) candidates).append
      asking_nil).append asking_nil
  · exact asking_nil

theorem asking_writesTo (host : Host) (d : Datum) (n : Node) :
    Asking (writesTo host d n).events := by
  unfold writesTo
  split
  · exact asking_sameValue host _ d
  · exact asking_nil

theorem asking_yieldsKey (key : List Char) (n : Node) : Asking (yieldsKey key n).events := by
  unfold yieldsKey
  split
  · exact (asking_consult _).append asking_nil
  · exact asking_nil

/-- Where nothing is found, nothing is linked. -/
theorem idle_linkEach {α : Type} {g : Graph} {uid : NodeId} {found : α → Option NodeId}
    {slot : α → Nat} {l : List α} (h : ∀ a ∈ l, found a = none) :
    (Logged.fold (fun g a => g.linkFound uid (found a) (slot a)) g l).Idle g := by
  induction l with
  | nil => exact .stop g
  | cons a l ih =>
    refine Logged.Idle.bind ?_ (ih fun a ha => h a (List.mem_cons_of_mem _ ha))
    dsimp only
    rw [h a List.mem_cons_self]
    exact .stop g

end Graph
end OperandFlow
