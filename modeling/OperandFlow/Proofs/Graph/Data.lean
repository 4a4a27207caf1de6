import OperandFlow.Proofs.Graph.Lifetime

/-! The values at the nodes of a graph. Links come and go, but a value stays what it was when it was
reported. -/
namespace OperandFlow

/-- The values at a node. -/
def Node.data (n : Node) : List Datum :=
  n.slots.map (·.datum) ++ n.output.toList

namespace Node

theorem data_addPred (n : Node) (slot : Nat) (pred : NodeId) :
    (n.addPred slot pred).data = n.data := by
  have hslots : (n.addPred slot pred).slots.map (·.datum) = n.slots.map (·.datum) := by
    apply List.ext_getElem?
    intro i
    simp only [addPred, List.getElem?_map, List.getElem?_modify]
    split_ifs <;> simp [Function.comp_def]
  exact congrArg (· ++ n.output.toList) hslots

theorem data_erasePred (n : Node) (pred : NodeId) : (n.erasePred pred).data = n.data := by
  simp [data, erasePred, Slot.erase]

theorem data_addSuccessor (n : Node) (succ : NodeId) : (n.addSuccessor succ).data = n.data := by
  rw [addSuccessor_eq]
  rfl

theorem data_bury (n : Node) : n.bury.data = n.data := by
  simp [data, bury]

end Node

namespace Graph

/-- A result that arrives is a value of its node. -/
theorem data_supply {o : Options} {opcode : Opcode} {result : Value} {state : Option String}
    {n : Node} {d : Datum} (hd : d ∈ (supply o opcode result state n).data) :
    d ∈ n.data ∨ ∃ place, d = o.datum n.uid place result := by
  rcases List.mem_append.mp hd with hd | hd
  · obtain ⟨t, ht, rfl⟩ := List.mem_map.mp hd
    unfold supply at ht
    dsimp only at ht
    split_ifs at ht
    · obtain ⟨i, hi⟩ := List.mem_iff_getElem?.mp ht
      rw [List.getElem?_modify] at hi
      obtain ⟨s, hs, rfl⟩ := Option.map_eq_some_iff.mp hi
      have hmem : s.datum ∈ n.data :=
        List.mem_append_left _ (List.mem_map_of_mem (List.mem_of_getElem? hs))
      split_ifs
      · exact Or.inr ⟨.loaded, rfl⟩
      · exact Or.inl hmem
      · exact Or.inl hmem
    · exact Or.inl (List.mem_append_left _ (List.mem_map_of_mem ht))
  · exact Or.inr ⟨.result, by simpa [supply] using hd⟩

/-- All values in the graph are such that `Q` holds of them. -/
def AllData (Q : Datum → Prop) (g : Graph) : Prop :=
  ∀ ⦃i : NodeId⦄ ⦃n : Node⦄, g.node? i = some n → ∀ d ∈ n.data, Q d

namespace AllData

variable {Q : Datum → Prop} {g g₁ : Graph} {uid : NodeId}

theorem update {f : Node → Node} (h : g.AllData Q)
    (hf : ∀ n, g.node? uid = some n → ∀ d ∈ (f n).data, d ∈ n.data ∨ Q d) :
    (g.update uid f).AllData Q := by
  intro i n hn d hd
  by_cases hi : i = uid
  · subst hi
    rw [node?_update, if_pos rfl] at hn
    obtain ⟨m, hm, rfl⟩ := Option.map_eq_some_iff.mp hn
    exact (hf m hm d hd).elim (h hm d) id
  · exact h (node?_update_of_ne hi g f ▸ hn) d hd

/-- An update that changes no value. -/
theorem update_quiet {f : Node → Node} (h : g.AllData Q) (hf : ∀ n, (f n).data = n.data) :
    (g.update uid f).AllData Q :=
  h.update fun n _ _ hd => Or.inl (hf n ▸ hd)

theorem connect (h : g.AllData Q) (pred uid : NodeId) (slot : Nat) :
    (g.connect pred uid slot).AllData Q := by
  have hadd : (g.update uid (·.addPred slot pred)).AllData Q :=
    h.update_quiet fun n => n.data_addPred slot pred
  unfold Graph.connect
  dsimp only
  split
  · exact hadd.update_quiet fun n => n.data_addSuccessor uid
  · exact (hadd.update_quiet fun n => (n.eraseSuccessor _).data_addSuccessor uid).update_quiet
      fun n => n.data_erasePred pred

theorem links {n : Node} (h : g.AllData Q) (hlinks : g.Links n g₁) : g₁.AllData Q := by
  obtain ⟨links, -, rfl⟩ := hlinks
  apply linkAll_induction (P := fun g' => g'.AllData Q) h
  intro g' pred slot _ _ h' _ _ _ _ _
  exact h'.connect pred n.uid slot

theorem release (h : g.AllData Q) (exit : Option NodeId) (uid pred : NodeId) :
    (Graph.release exit uid g pred).AllData Q := by
  have herase : (g.update pred (·.eraseSuccessor uid)).AllData Q := h.update_quiet fun _ => rfl
  unfold Graph.release
  dsimp only
  split
  · split_ifs
    · exact (herase.update_quiet fun n => n.data_addSuccessor _).update_quiet
        fun n => n.data_addPred 0 pred
    · exact herase
  · exact herase

theorem detach (h : g.AllData Q) (uid : NodeId) : (g.detach uid).AllData Q := by
  unfold Graph.detach
  split
  · exact h
  · rename_i n hn
    have hreleased : (n.predecessors.foldl
        (Graph.release ((g.boundaries? uid).map (·.exit)) uid) g).AllData Q := by
      apply List.foldlRecOn n.predecessors _ h
      intro g' h' pred _
      exact h'.release _ uid pred
    have hwithdrawn := List.foldlRecOn (motive := fun g' : Graph => g'.AllData Q) n.successors
      (fun g' succ => g'.update succ (·.erasePred uid)) hreleased
      fun g' h' succ _ => h'.update_quiet fun m => m.data_erasePred uid
    exact hwithdrawn.update_quiet Node.data_bury

theorem searched (h : g.AllData Q) (hsearched : g.Searched uid g₁) : g₁.AllData Q := by
  cases hsearched with
  | unchanged => exact h
  | linked hn hlive hsent hlinks => exact h.links hlinks
  | removed hn hlive hsent hlinks => exact (h.links hlinks).detach uid
  | collapsed hn hlive hsent hlinks hm hs hrest hmask =>
    apply (h.links hlinks).update
    intro m' hm' d hd
    rw [hm] at hm'
    cases hm'
    left
    rcases List.mem_append.mp hd with hd | hd
    · rw [List.map_singleton, List.mem_singleton] at hd
      exact List.mem_append_left _ (List.mem_map.mpr ⟨_, List.mem_of_getElem? hs, hd.symm⟩)
    · exact List.mem_append_right _ hd

variable {host : Host}

/-- Values come into the graph as the host reports them. -/
theorem moves (h : g.AllData Q) (hg : g.Consistent)
    (hQ : ∀ uid place value, Q (host.options.datum uid place value)) (hmoves : g.Moves host g₁) :
    g₁.AllData Q := by
  have hslots : ∀ (uid : NodeId) (values : List Value),
      ∀ d ∈ (host.options.slots uid values).map (·.datum), Q d := by
    intro uid values d hd
    simp only [Options.slots, List.map_map, List.mem_map] at hd
    obtain ⟨v, -, rfl⟩ := hd
    exact hQ uid _ _
  have hunpend : ∀ uid, (g.unpend uid).AllData Q := by
    intro uid
    have hupdate : (g.update uid fun n => { n with awaiting := false }).AllData Q :=
      h.update_quiet fun _ => rfl
    exact hupdate
  cases hmoves with
  | search hsearched => exact h.searched hsearched
  | unpend uid => exact hunpend uid
  | supply huid hn ho result state =>
    apply (hunpend _).update
    intro n _ d hd
    rcases data_supply hd with hd | ⟨place, rfl⟩
    · exact Or.inl hd
    · exact Or.inr (hQ n.uid place result)
  | withFunction function =>
    intro i n hn d hd
    rcases node?_withFunction hn with hold | ⟨-, kind, -, rfl⟩
    · exact h hold d hd
    · exact hslots _ _ d (by simpa [Node.data, sentinel] using hd)
  | arrive category hs hfree =>
    obtain ⟨-, -, hx⟩ := hg.causal.formed.of_sentinels? hs
    intro i n hn d hd
    rw [node?_arrive (size_outlines g ▸ (Array.getElem?_eq_some_iff.mp hx).1)] at hn
    split_ifs at hn with hnew hexit
    · cases hn
      exact hslots _ _ d (by simpa [Node.data, nodeOf] using hd)
    · obtain ⟨m, hm, rfl⟩ := Option.map_eq_some_iff.mp hn
      exact h hm d (m.data_addPred 0 _ ▸ hd)
    · exact h hn d hd

end AllData
end Graph
end OperandFlow
