import OperandFlow.Proofs.Arena.Scope

/-! The search for producers in an arena. Nodes are read where they are stored at that time: links
that were made in between change the successors of a candidate only, and these do not bear on what
it produced. -/
namespace OperandFlow

namespace Logged

variable {α : Type}

theorem find?_filter (p : α → Logged Bool) (q : α → Bool) (l : List α) :
    find? p (l.filter q) = find? (fun a => if q a then p a else pure false) l := by
  induction l with
  | nil => rfl
  | cons a l ih =>
    rw [List.filter_cons, find?]
    cases q a with
    | true => rw [if_pos rfl, find?, ih]; rfl
    | false => rw [if_neg Bool.false_ne_true, ih]; rfl

theorem find?_pure (p : α → Bool) (l : List α) :
    find? (fun a => pure (p a)) l = pure (l.find? p) := by
  induction l with
  | nil => rfl
  | cons a l ih =>
    rw [find?, List.find?_cons, ih]
    cases p a <;> rfl

end Logged

namespace Graph

/-- A live instruction whose edges are searched for. -/
structure Sought (g : Graph) (n : Node) : Prop where
  sound : g.Sound
  here : g.node? n.uid = some n
  live : n.isDeleted = false
  bare : n.isSentinel = false

/-- The node is still there as it was, its successors aside. -/
def Stands (g : Graph) (n : Node) : Prop :=
  ∃ m, g.node? n.uid = some m ∧ m.upstream = n.upstream

namespace Sought

variable {g g₁ : Graph} {n m : Node} {limit : Nat}

theorem formed (h : g.Sought n) : Formed g.outlines := h.sound.consistent.causal.formed

theorem instruction (h : g.Sought n) : n.instruction ≠ none :=
  h.formed.instruction_ne_none h.here h.bare

theorem links (h : g.Sought n) (hlinks : g.Links n g₁) : g₁.Sound :=
  h.sound.links h.here h.live h.bare hlinks

theorem mayLink (h : g.Sought n) (limit : Nat) :
    ∀ m ∈ g.candidates limit n, g.MayLink n m.uid :=
  fun _ hm => mayLink_of_mem_candidates h.formed h.here hm

theorem node?_of_mem (h : g.Sought n) (hm : m ∈ g.liveBefore limit n) :
    g.node? m.uid = some m :=
  (mem_liveBefore h.formed hm).1

theorem stands (h : g.Sought n) (hlinks : g.Links n g₁) (hm : m ∈ g.liveBefore limit n) :
    g₁.Stands m := by
  obtain ⟨hnode, hlt, -, htx, hinstr, -⟩ := mem_liveBefore h.formed hm
  have hexit := h.formed.kind_ne_exit hnode (Node.instruction_ne_none_of_tx? htx.symm hinstr)
  obtain ⟨m', hm', -, hsame⟩ :=
    Keeps.links h.formed h.here hinstr hlinks (Nat.ne_of_lt hlt) m hnode
  exact ⟨m', hm', Node.upstream_congr (hsame hexit)⟩

end Sought
end Graph

theorem Item.slots_zipIdx {o : Options} (x : Item) :
    (x.fields.zipIdx.map fun f => f.1.slot o) = (x.node o).slots := by
  rw [slots_node, show (fun f : Field × Nat => f.1.slot o) = (·.slot o) ∘ Prod.fst from rfl,
    ← List.map_map, List.zipIdx_map_fst]

namespace Arena.Meets

variable {host : Host} {g g₁ : Graph} {uid : NodeId} {n m : Node} {target : NodeId × Spot}
  {d : Datum} {ns : List Node}

/-- The first of the elements with a property that takes no look at a rendering. -/
theorem findM?_quiet {α β : Type} {p : β → InPlace Bool} {q : α → Bool} (r : α → β) {l : List α}
    (h : ∀ a ∈ l, Meets host g (p (r a)) (q a) g []) :
    Meets host g ((l.map r).findM? p) ((l.find? q).map r) g [] := by
  have hfind := findM? (q := fun a => Pure.pure (q a)) r h
  rwa [Logged.find?_pure] at hfind

theorem produces (ht : g.node? target.1 = some n) (hd : n.datumAt target.2 = some d)
    (hm : g.node? uid = some m) :
    Answers host g (produces target uid) (Graph.produces host d m) := by
  unfold Graph.produces
  refine item_bind hm fun x hx _ => ?_
  have hidle : (!x.kind.carriesData || x.is .sstore) = (!m.kind.carriesData || m.is .sstore) :=
    hx ▸ rfl
  have hawait : x.awaiting = m.awaiting := hx ▸ rfl
  have hout : m.output = x.output.map (·.datum host.options) := hx ▸ rfl
  rw [hidle, hawait]
  cases !m.kind.carriesData || m.is .sstore with
  | true => exact pure _
  | false =>
    simp only [Bool.false_eq_true, if_false]
    cases hc : x.output with
    | some c =>
      rw [hc, Option.map_some] at hout
      simp only [hout]
      exact sameValue (l := (uid, .output)) hm hout ht hd
    | none =>
      rw [hc, Option.map_none] at hout
      simp only [hout]
      cases m.awaiting with
      | true => exact pure _
      | false =>
        simp only [Bool.false_eq_true, if_false]
        subst hx
        have hpresent : (x.node host.options).slots.filter (fun s => !s.value.isEmpty) =
            (x.fields.zipIdx.filter fun f => !f.1.value.isEmpty).map
              fun f => f.1.slot host.options := by
          rw [← x.slots_zipIdx, List.filter_map]
          rfl
        rw [hpresent]
        refine anyM (q := fun s : Slot => Graph.sameValue host s.datum d)
          (fun f : Field × Nat => f.1.slot host.options) fun f hf => ?_
        have hf := List.mem_zipIdx_iff_getElem?.mp (List.mem_of_mem_filter hf)
        exact sameValue (l := (uid, .operand f.2)) hm (Item.datumAt_operand hf) ht hd

section

variable {p : Item → Bool} {q : Node → Bool} (hp : ∀ x : Item, p x = q (x.node host.options))
  (hq : ∀ m : Node, q m.upstream = q m) (hns : ∀ m ∈ ns, g.Stands m)
include hp hq hns

theorem producer (ht : g.node? target.1 = some n) (hd : n.datumAt target.2 = some d) :
    Answers host g (producer p (ns.map (·.uid)) target)
      (Graph.producer? host (ns.filter q) d) := by
  unfold Graph.producer?
  rw [Logged.find?_filter]
  change Meets host g _ _ g (_ ++ [])
  rw [List.append_nil]
  refine findM? Node.uid fun m hm => ?_
  obtain ⟨m', hm', hsame⟩ := hns m hm
  refine item_bind hm' fun x hx _ => ?_
  have hproduces : Graph.produces host d m = Graph.produces host d m' :=
    (congrArg (Graph.produces host d) hsame.symm :)
  rw [hp, hx, ← hq m', hsame, hq m, hproduces]
  cases q m with
  | true => exact produces ht hd hm'
  | false => exact pure _

theorem resolve {f : Field} {i : Nat} (hn : g.node? uid = some n)
    (hf : n.datumAt (.operand i) = some (f.cell.datum host.options)) :
    Answers host g (resolve p (ns.map (·.uid)) uid f i)
      (Graph.resolve host (ns.filter q) (f.slot host.options)) := by
  unfold Arena.resolve Graph.resolve
  rw [show (f.slot host.options).preds = f.preds from rfl,
    show (f.slot host.options).seeksProducer = f.seeksProducer from rfl]
  cases !f.preds.isEmpty with
  | true => exact pure _
  | false =>
    cases f.seeksProducer with
    | false => exact pure _
    | true =>
      have hproducer : Answers host g (Arena.producer p (ns.map (·.uid)) (uid, .operand i)) _ :=
        producer hp hq hns hn hf
      exact bind hproducer (pure _)

end

end Arena.Meets
end OperandFlow
