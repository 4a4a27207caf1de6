import OperandFlow.Proofs.Graph.Blocks
import OperandFlow.Proofs.Graph.Stability

/-! Where the producers of a node are looked for, and that later changes leave this alone. -/
namespace OperandFlow

theorem map_filter_eq {α β : Type} (p : α → Bool) (f : α → β) (l : List α) :
    (l.filter p).map f = (l.map fun a => if p a then some (f a) else none).filterMap id := by
  induction l with
  | nil => rfl
  | cons a l ih => cases hp : p a <;> simp [hp, ih]

/-- A node without what uses it. -/
def Node.upstream (n : Node) : Node := { n with successors := [] }

theorem Node.upstream_congr {n m : Node} (h : m = { n with successors := m.successors }) :
    m.upstream = n.upstream := by
  rw [h]
  rfl

section Upstream

variable {l l' : List Node} {p : Node → Bool} (hp : ∀ m, p m.upstream = p m)
  (h : l'.map Node.upstream = l.map Node.upstream)
include hp h

theorem find?_upstream : (l'.find? p).map (·.uid) = (l.find? p).map (·.uid) := by
  have hfind : ∀ l : List Node, (l.find? p).map (·.uid) =
      ((l.map Node.upstream).find? p).map (·.uid) := by
    intro l
    have hcomp : p ∘ Node.upstream = p := funext hp
    rw [List.find?_map, hcomp, Option.map_map]
    rfl
  rw [hfind, hfind l, h]

theorem filter_upstream :
    (l'.filter p).map Node.upstream = (l.filter p).map Node.upstream := by
  have hcomp : p ∘ Node.upstream = p := funext hp
  rw [← hcomp, ← List.filter_map, ← List.filter_map, h]

end Upstream

theorem Node.instruction_ne_none_of_tx? {n m : Node} (h : m.tx? = n.tx?)
    (hn : n.instruction ≠ none) : m.instruction ≠ none := by
  intro hnone
  have htx : n.tx? = none := by rw [← h, Node.tx?, hnone, Option.map_none]
  exact hn (Option.map_eq_none_iff.mp htx)

namespace Graph

theorem getElem?_take_nodes (g : Graph) (i j : NodeId) :
    (g.nodes.toList.take i)[j]? = if j < i then g.node? j else none := by
  rw [List.getElem?_take, Array.getElem?_toList]
  rfl

theorem pairwise_uid {g : Graph} (hg : Formed g.outlines) :
    g.nodes.toList.Pairwise (·.uid < ·.uid) := by
  rw [List.pairwise_iff_getElem]
  intro i j hi hj hij
  have hget : ∀ k (hk : k < g.nodes.toList.length), g.nodes.toList[k].uid = k := by
    intro k hk
    apply hg.uid_node
    rw [node?, ← Array.getElem?_toList, List.getElem?_eq_getElem hk]
  rw [hget i hi, hget j hj]
  exact hij

/-- Candidates are listed from the newest to the oldest. -/
theorem pairwise_candidates {g : Graph} (hg : Formed g.outlines) (limit : Nat) (n : Node) :
    (g.candidates limit n).Pairwise fun m k => k.uid < m.uid := by
  unfold candidates liveBefore traceBefore
  apply List.Pairwise.filter
  apply List.Pairwise.filter
  split_ifs
  · exact List.Pairwise.nil
  · have htaken : (g.nodes.toList.take n.uid).Pairwise (·.uid < ·.uid) := (pairwise_uid hg).take
    exact ((List.pairwise_reverse.mpr htaken).filter _).take

theorem sameTrace_eq {n n' m m' : Node} (h : n'.outline = n.outline) (hm : m'.outline = m.outline) :
    n'.sameTrace m' = n.sameTrace m := by
  have hfun : ∀ {a b : Node}, a.outline = b.outline → a.function = b.function ∧ a.tx? = b.tx? :=
    fun hab => ⟨congrArg Outline.function hab, congrArg Outline.tx? hab⟩
  unfold Node.sameTrace
  rw [(hfun h).1, (hfun h).2, (hfun hm).1, (hfun hm).2]

/-- An instruction comes after the earlier nodes of its call. -/
theorem precedes_of_sameTrace {g : Graph} {i j : NodeId} {n m : Node} (hg : Formed g.outlines)
    (hn : g.node? i = some n) (hinstr : n.instruction ≠ none) (hm : g.node? j = some m) (hlt : j < i)
    (htrace : n.sameTrace m = true) : Precedes g.outlines j i := by
  simp only [Node.sameTrace, Bool.and_eq_true, decide_eq_true_eq] at htrace
  have hm' : m.instruction ≠ none := Node.instruction_ne_none_of_tx? htrace.2.symm hinstr
  have hexit : m.outline.isExit = false := by
    rw [Node.isExit_outline, decide_eq_false_iff_not]
    exact hg.kind_ne_exit hm hm'
  exact ⟨hlt, _, _, outlines_of_node? hm, outlines_of_node? hn, htrace.1.symm, hexit, hinstr,
    Or.inr htrace.2.symm⟩

/-- Earlier nodes of the same call are the same if each of them is kept. -/
theorem traceBefore_congr {g g' : Graph} {i : NodeId} {n n' : Node} (hg : Formed g.outlines)
    (hn : g.node? i = some n) (hout : n'.outline = n.outline)
    (houtlines : ∀ j < i, g'.outlines[j]? = g.outlines[j]?)
    (hkeeps : ∀ j, Precedes g.outlines j i → g.Keeps g' j) (limit : Nat) :
    (g'.traceBefore limit n').map Node.upstream = (g.traceBefore limit n).map Node.upstream := by
  have huid : n.uid = i := hg.uid_node hn
  have huid' : n'.uid = i := (congrArg Outline.uid hout).trans huid
  have hinstr : n'.instruction = n.instruction := congrArg Outline.instruction hout
  unfold traceBefore
  rw [hinstr, huid, huid']
  split_ifs with hnone
  · rfl
  · have hinstr' : n.instruction ≠ none := by simpa using hnone
    -- At each place stands a node of another call, or the same node in both.
    have hplaces : (g'.nodes.toList.take i).map
          (fun m => if n'.sameTrace m then some m.upstream else none) =
        (g.nodes.toList.take i).map fun m => if n.sameTrace m then some m.upstream else none := by
      apply List.ext_getElem?
      intro j
      rw [List.getElem?_map, List.getElem?_map, getElem?_take_nodes, getElem?_take_nodes]
      split_ifs with hlt
      · obtain ⟨m, hm⟩ := exists_node?_of_lt (Nat.lt_trans hlt (lt_size_of_node? hn))
        obtain ⟨m', hm', hmout⟩ :=
          node?_of_outlines ((houtlines j hlt).trans (outlines_of_node? hm))
        rw [hm, hm', Option.map_some, Option.map_some, sameTrace_eq hout hmout]
        split_ifs with htrace
        · have hprec := precedes_of_sameTrace hg hn hinstr' hm hlt htrace
          obtain ⟨k, hk, -, hsame⟩ := hkeeps j hprec m hm
          rw [hm'] at hk
          cases hk
          obtain ⟨-, p, -, hp, -, -, hexit, -⟩ := hprec
          rw [outlines_of_node? hm] at hp
          cases hp
          rw [Node.upstream_congr (hsame (by simpa using hexit))]
        · rfl
      · rfl
    rw [List.filter_reverse, List.filter_reverse, List.map_take, List.map_take, List.map_reverse,
      List.map_reverse, map_filter_eq, map_filter_eq, hplaces]

/-- Producers are looked for among the same nodes if these are the same and were executed. -/
theorem candidates_congr {g g' : Graph} {n n' : Node} {limit : Nat}
    (htrace : (g'.traceBefore limit n').map Node.upstream =
      (g.traceBefore limit n).map Node.upstream)
    (hleaders : n.instruction ≠ none → g'.leadersTo n'.uid = g.leadersTo n.uid) :
    (g'.candidates limit n').map Node.upstream = (g.candidates limit n).map Node.upstream := by
  have hscope : ∀ (g : Graph) (n : Node), (g.candidates limit n).map Node.upstream =
      (((g.traceBefore limit n).map Node.upstream).filter fun m => !m.isDeleted).filter
        fun m => m.leader?.any (g.leadersTo n.uid).contains := by
    intro g n
    unfold candidates liveBefore
    rw [List.filter_map, List.filter_map]
    rfl
  rw [hscope, hscope, htrace]
  by_cases hinstr : n.instruction = none
  · have hnil : g.traceBefore limit n = [] := by
      unfold traceBefore
      rw [hinstr]
      rfl
    rw [hnil]
    rfl
  · rw [hleaders hinstr]

/-- Only the node `uid`, which nothing follows in its call, changes on the way from `g` to `g'`.
Others get other successors at most, and sentinels may be added. -/
structure Touches (g : Graph) (uid : NodeId) (g' : Graph) : Prop where
  outlines : ∀ i < g.outlines.size, g'.outlines[i]? = g.outlines[i]?
  last : ∀ b, ¬ Precedes g.outlines uid b
  keeps : ∀ i, i ≠ uid → g.Keeps g' i
  added : ∀ i, i ≠ uid → ∀ m, g'.node? i = some m → m.instruction ≠ none → i < g.size

namespace Touches

variable {g g' : Graph} {uid i : NodeId} {n n' : Node}

/-- The node is not touched, settled and no exit. -/
def Aside (g : Graph) (uid i : NodeId) : Prop :=
  i ≠ uid ∧ ∃ n, g.node? i = some n ∧ n.awaiting = false ∧ n.kind ≠ .exit

theorem aside_of_precedes (h : g.Touches uid g') (hg : g.Coherent) {a b : NodeId}
    (hprec : Precedes g.outlines a b) : Aside g uid a := by
  refine ⟨?_, hg.settled_of_precedes hprec⟩
  rintro rfl
  exact h.last b hprec

theorem mirrors (h : g.Touches uid g') (hg : g.Coherent) : Mirrors id (Aside g uid) g g' where
  increasing _ _ hij := hij
  node := by
    rintro j ⟨hne, m, hm, -, hkind⟩
    obtain ⟨m', hm', -, hsame⟩ := h.keeps j hne m hm
    refine ⟨m, m', hm, hm', ?_⟩
    rw [hsame hkind]
    exact ⟨rfl, rfl, by rw [Option.map_id]; rfl, by rw [List.map_id]; rfl⟩
  leader := by
    rintro j l m ⟨hne, m', hm', hwait, hkind⟩ hm hl
    obtain ⟨x, hx, rfl⟩ := Option.map_eq_some_iff.mp hl
    rcases hg.causal.formed.leader (outlines_of_node? hm) hx with hself | hprec
    · rw [hself]
      exact ⟨hne, m', hm', hwait, hkind⟩
    · exact h.aside_of_precedes hg hprec
  pred := by
    rintro j p m ⟨-, m', hm', -, hkind⟩ hm hp
    rw [hm] at hm'
    cases hm'
    exact h.aside_of_precedes hg
      (hg.causal.precedes_of_feeds hm hkind ⟨m, hm, Node.fedBy_of_mem_predsAt hp⟩)

theorem outline_eq (h : g.Touches uid g') (hn : g.node? i = some n) (hn' : g'.node? i = some n') :
    n'.outline = n.outline := by
  have hlt : i < g.outlines.size := size_outlines g ▸ lt_size_of_node? hn
  have hout := h.outlines i hlt
  rw [outlines_of_node? hn, outlines_of_node? hn'] at hout
  exact Option.some.inj hout

/-- An earlier node of a call gets other successors at most. -/
theorem node?_of_precedes (h : g.Touches uid g') (hg : g.Coherent) {a b : NodeId}
    (hprec : Precedes g.outlines a b) (hn : g.node? a = some n) :
    ∃ successors, g'.node? a = some { n with successors } := by
  obtain ⟨hne, m, hm, -, hkind⟩ := h.aside_of_precedes hg hprec
  rw [hn] at hm
  cases hm
  obtain ⟨n', hn', -, hsame⟩ := h.keeps a hne n hn
  exact ⟨n'.successors, hsame hkind ▸ hn'⟩

/-- An instruction that is not touched has got other successors at most. -/
theorem exists_node? (h : g.Touches uid g') (hg' : Formed g'.outlines) (hi : i ≠ uid)
    (hn' : g'.node? i = some n') (hinstr : n'.instruction ≠ none) :
    ∃ n successors, g.node? i = some n ∧ n.kind ≠ .exit ∧ n' = { n with successors } := by
  obtain ⟨n, hn⟩ := exists_node?_of_lt (h.added i hi n' hn' hinstr)
  obtain ⟨m, hm, hkind, hsame⟩ := h.keeps i hi n hn
  rw [hn'] at hm
  cases hm
  have hexit : n.kind ≠ .exit := hkind ▸ hg'.kind_ne_exit hn' hinstr
  exact ⟨n, n'.successors, hn, hexit, hsame hexit⟩

/-- Earlier nodes of the same call are the same. -/
theorem traceBefore (h : g.Touches uid g') (hg : g.Coherent) (hn : g.node? i = some n)
    (hn' : g'.node? i = some n') (limit : Nat) :
    (g'.traceBefore limit n').map Node.upstream = (g.traceBefore limit n).map Node.upstream := by
  apply traceBefore_congr hg.causal.formed hn (h.outline_eq hn hn')
  · intro j hj
    exact h.outlines j (size_outlines g ▸ Nat.lt_trans hj (lt_size_of_node? hn))
  · intro j hprec
    exact h.keeps j (h.aside_of_precedes hg hprec).1

theorem boundaries? (h : g.Touches uid g') (hg : Formed g.outlines) (hg' : Formed g'.outlines)
    (hn : g.node? i = some n) (hn' : g'.node? i = some n') :
    g'.boundaries? i = g.boundaries? i := by
  obtain ⟨e, hle, hs, he, -⟩ := hg.boundaries hn
  have hlt : e < g.outlines.size := (Array.getElem?_eq_some_iff.mp he).1
  have hfun : n'.function = n.function := congrArg Outline.function (h.outline_eq hn hn')
  have hs' : g'.sentinels? n.function = some ⟨e, e + 1⟩ :=
    hg'.sentinels?_eq_of_entry ((h.outlines e hlt).trans he)
  unfold Graph.boundaries?
  rw [hn, hn', Option.bind_some, Option.bind_some, hfun, hs, hs']

/-- An instruction that is settled, or does not lead its own block, was reached through the same
blocks as before. -/
theorem leadersTo (h : g.Touches uid g') (hg : g.Coherent) (hg' : Formed g'.outlines)
    (hn : g.node? i = some n) (hn' : g'.node? i = some n') (hinstr : n.instruction ≠ none)
    (hlead : n.leader? = some i → Aside g uid i) : g'.leadersTo i = g.leadersTo i := by
  have hformed := hg.causal.formed
  obtain ⟨x, hx⟩ := Option.ne_none_iff_exists'.mp hinstr
  have hl : n.leader? = some x.leader := by rw [Node.leader?, hx, Option.map_some]
  have hl' : n'.leader? = some x.leader := by
    rw [Node.leader?, show n'.instruction = n.instruction from
      congrArg Outline.instruction (h.outline_eq hn hn'), hx, Option.map_some]
  obtain ⟨s, hs, -, -⟩ := boundaries?_of_instruction hformed hn hinstr
  have huid : n.uid = i := hformed.uid_node hn
  have hentry : Aside g uid s.entry := by
    subst huid
    exact h.aside_of_precedes hg (mayLink_entry hformed hn hinstr hs).1
  have hleader : Aside g uid x.leader := by
    rcases hformed.leader (outlines_of_node? hn) hx with hself | hprec
    · exact hself ▸ hlead (hl.trans (congrArg some hself))
    · exact h.aside_of_precedes hg hprec
  have hmap := ((h.mirrors hg).leadersTo hn hn' hl hl' hleader hentry (by rw [hs]; rfl)
    (by rw [h.boundaries? hformed hg' hn hn', hs]; rfl)).1
  rwa [List.map_id] at hmap

/-- Producers of such an instruction are looked for among the same nodes. -/
theorem candidates (h : g.Touches uid g') (hg : g.Coherent) (hg' : Formed g'.outlines)
    (hn : g.node? i = some n) (hn' : g'.node? i = some n')
    (hlead : n.leader? = some i → Aside g uid i) (limit : Nat) :
    (g'.candidates limit n').map Node.upstream = (g.candidates limit n).map Node.upstream := by
  apply candidates_congr (h.traceBefore hg hn hn' limit)
  intro hinstr
  rw [hg'.uid_node hn', hg.causal.formed.uid_node hn, h.leadersTo hg hg' hn hn' hinstr hlead]

end Touches
end Graph
end OperandFlow
