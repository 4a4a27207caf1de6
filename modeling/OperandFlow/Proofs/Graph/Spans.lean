import Mathlib.Data.List.Dedup
import Mathlib.Order.Bounds.Basic
import OperandFlow.Graph.Execution

/-! The span of a loop along a chain: the lowest and the highest node of the entries to all the
destinations that are entered too often, in whatever order these are looked at. -/
namespace OperandFlow

/-- The lowest and the highest of some nodes, or nothing if there are none. -/
def IsSpan (ids : Set NodeId) : Option (NodeId × NodeId) → Prop
  | none => ids = ∅
  | some (low, high) => IsLeast ids low ∧ IsGreatest ids high

/-- Makes room for one more node. -/
def widen : Option (NodeId × NodeId) → NodeId → Option (NodeId × NodeId)
  | none, uid => some (uid, uid)
  | some (low, high), uid => some (min low uid, max high uid)

namespace IsSpan

variable {ids more : Set NodeId} {r r' : Option (NodeId × NodeId)} {low high : NodeId}

theorem unique (h : IsSpan ids r) (h' : IsSpan ids r') : r = r' := by
  cases r with
  | none =>
    cases r' with
    | none => rfl
    | some span' => exact absurd (h ▸ h'.1.1) (Set.notMem_empty _)
  | some span =>
    cases r' with
    | none => exact absurd (h' ▸ h.1.1) (Set.notMem_empty _)
    | some span' => rw [Prod.ext (h.1.unique h'.1) (h.2.unique h'.2)]

theorem eq_none_iff (h : IsSpan ids r) : r = none ↔ ids = ∅ := by
  constructor
  · rintro rfl
    exact h
  · intro hempty
    have hnone : IsSpan ids none := hempty
    exact h.unique hnone

/-- More nodes have a wider span. -/
theorem wider (h : IsSpan ids (some (low, high))) (hsubset : ids ⊆ more) (h' : IsSpan more r') :
    ∃ low' high', r' = some (low', high') ∧ low' ≤ low ∧ high ≤ high' := by
  have hlow : low ∈ more := hsubset h.1.1
  cases r' with
  | none => exact absurd (h' ▸ hlow) (Set.notMem_empty _)
  | some span' => exact ⟨span'.1, span'.2, rfl, h'.1.2 hlow, h'.2.2 (hsubset h.2.1)⟩

theorem widen (h : IsSpan ids r) (uid : NodeId) : IsSpan (insert uid ids) (widen r uid) := by
  cases r with
  | none =>
    rw [show ids = ∅ from h, insert_empty_eq]
    exact ⟨isLeast_singleton, isGreatest_singleton⟩
  | some span =>
    refine ⟨?_, ?_⟩
    · rw [min_comm]
      exact h.1.insert uid
    · rw [max_comm]
      exact h.2.insert uid

theorem foldl_widen (uids : List NodeId) (h : IsSpan ids r) :
    IsSpan ({i | i ∈ uids} ∪ ids) (uids.foldl OperandFlow.widen r) := by
  induction uids generalizing ids r with
  | nil => simpa using h
  | cons uid uids ih =>
    have hset : {i | i ∈ uid :: uids} ∪ ids = {i | i ∈ uids} ∪ insert uid ids := by
      ext i
      simp only [List.mem_cons, Set.mem_union, Set.mem_ofPred_eq, Set.mem_insert_iff]
      tauto
    rw [hset]
    exact ih (h.widen uid)

end IsSpan

namespace Graph

/-- A conditional jump and the destination at the address behind it. -/
def isEntry (g : Graph) (address : UInt64) (e : NodeId × NodeId) : Bool :=
  (g.node? e.1).any (·.is .jumpi) &&
    (g.node? e.2).any fun n => n.is .jumpdest && n.address = address

/-- The entries of an address: neighbours in the chain by which it is entered. -/
def entriesTo (g : Graph) (chain : List NodeId) (address : UInt64) : List (NodeId × NodeId) :=
  (chain.zip chain.tail).filter (g.isEntry address)

/-- The nodes in the entries of all addresses that have more of them than the threshold. -/
def looping (g : Graph) (threshold : Nat) (chain : List NodeId) : Set NodeId :=
  {i | ∃ address, threshold < (g.entriesTo chain address).length ∧
    ∃ e ∈ g.entriesTo chain address, i = e.1 ∨ i = e.2}

/-- The entries of a chain by their addresses, in any order of the addresses. -/
structure IsGrouping (g : Graph) (chain : List NodeId)
    (groups : List (UInt64 × List (NodeId × NodeId))) : Prop where
  nodup : (groups.map (·.1)).Nodup
  mem_iff : ∀ address entries, (address, entries) ∈ groups ↔
    entries = g.entriesTo chain address ∧ entries ≠ []

/-- All nodes of the groups that are larger than the threshold, group by group. -/
def nodesOfGroups (threshold : Nat) (groups : List (UInt64 × List (NodeId × NodeId))) :
    List NodeId :=
  (groups.filter fun group => threshold < group.2.length).flatMap fun group =>
    group.2.flatMap fun e => [e.1, e.2]

/-- The span that comes of going through the groups in their order. -/
def spanOfGroups (threshold : Nat) (groups : List (UInt64 × List (NodeId × NodeId))) :
    Option (NodeId × NodeId) :=
  (nodesOfGroups threshold groups).foldl widen none

variable {g : Graph} {chain : List NodeId} {entrances : List Entrance} {threshold : Nat}

theorem entriesTo_cons (a b : NodeId) (rest : List NodeId) (address : UInt64) :
    g.entriesTo (a :: b :: rest) address =
      (if g.isEntry address (a, b) then [(a, b)] else []) ++ g.entriesTo (b :: rest) address := by
  by_cases h : g.isEntry address (a, b) = true <;> simp [entriesTo, h]

theorem entriesTo_of_entrances? (h : g.entrances? chain = some entrances) (address : UInt64) :
    g.entriesTo chain address =
      (entrances.filter (·.address = address)).map fun e => (e.jump, e.dest) := by
  fun_induction entrances? g chain generalizing entrances with
  | case1 a b rest ih =>
    simp only [Option.bind_eq_bind, Option.bind_eq_some_iff, Option.pure_def,
      Option.some.injEq] at h
    obtain ⟨jump, hjump, dest, hdest, later, hlater, rfl⟩ := h
    rw [entriesTo_cons, ih hlater, isEntry, hjump, hdest]
    by_cases hentry : (jump.is .jumpi && dest.is .jumpdest) = true
    · by_cases haddress : dest.address = address <;> simp_all
    · grind
  | case2 chain hshort =>
    cases h
    rcases chain with _ | ⟨a, _ | ⟨b, rest⟩⟩
    · rfl
    · rfl
    · exact absurd rfl (hshort a b rest)

theorem length_entriesTo (h : g.entrances? chain = some entrances) (address : UInt64) :
    (g.entriesTo chain address).length = entrances.countP (·.address = address) := by
  rw [entriesTo_of_entrances? h, List.length_map, List.countP_eq_length_filter]

theorem mem_looping_iff (h : g.entrances? chain = some entrances) (i : NodeId) :
    i ∈ g.looping threshold chain ↔
      ∃ e ∈ entrances, threshold < (entrances.countP fun f => f.address = e.address) ∧
        (i = e.jump ∨ i = e.dest) := by
  unfold looping
  simp only [Set.mem_ofPred_eq, length_entriesTo h]
  simp only [entriesTo_of_entrances? h, List.mem_map, List.mem_filter, decide_eq_true_eq]
  constructor
  · rintro ⟨address, hmany, _, ⟨e, ⟨he, rfl⟩, rfl⟩, hi⟩
    exact ⟨e, he, hmany, hi⟩
  · rintro ⟨e, he, hmany, hi⟩
    exact ⟨e.address, hmany, _, ⟨e, ⟨he, rfl⟩, rfl⟩, hi⟩

theorem isSpan_spanOf (h : g.entrances? chain = some entrances) :
    IsSpan (g.looping threshold chain) (spanOf threshold entrances) := by
  have hmem : ∀ i, i ∈ g.looping threshold chain ↔
      i ∈ (entrances.filter fun e =>
        threshold < entrances.countP fun f => f.address = e.address).flatMap
          fun e => [e.jump, e.dest] := by
    intro i
    rw [mem_looping_iff h]
    simp [and_assoc]
  unfold spanOf
  dsimp only
  generalize (entrances.filter _).flatMap _ = uids at hmem
  split
  next low high hlow hhigh =>
    obtain ⟨hmin, hleast⟩ := List.min?_eq_some_iff.mp hlow
    obtain ⟨hmax, hgreatest⟩ := List.max?_eq_some_iff.mp hhigh
    exact ⟨⟨(hmem low).mpr hmin, fun i hi => hleast i ((hmem i).mp hi)⟩,
      ⟨(hmem high).mpr hmax, fun i hi => hgreatest i ((hmem i).mp hi)⟩⟩
  next hnone =>
    cases uids with
    | nil => exact Set.eq_empty_of_forall_notMem fun i hi => List.not_mem_nil ((hmem i).mp hi)
    | cons uid uids => exact absurd rfl (hnone _ _ rfl)

theorem isSpan_loopBounds {r : Option (NodeId × NodeId)}
    (h : g.loopBounds? threshold chain = some r) : IsSpan (g.looping threshold chain) r := by
  obtain ⟨entrances, hentrances, rfl⟩ := Option.map_eq_some_iff.mp h
  exact isSpan_spanOf hentrances

theorem entriesTo_sublist_cons (a : NodeId) (chain : List NodeId) (address : UInt64) :
    (g.entriesTo chain address).Sublist (g.entriesTo (a :: chain) address) := by
  cases chain with
  | nil => exact List.nil_sublist _
  | cons b rest =>
    rw [entriesTo_cons]
    exact List.sublist_append_right _ _

theorem entriesTo_sublist_append (chain after : List NodeId) (address : UInt64) :
    (g.entriesTo chain address).Sublist (g.entriesTo (chain ++ after) address) := by
  induction chain with
  | nil => exact List.nil_sublist _
  | cons a chain ih =>
    cases chain with
    | nil => exact List.nil_sublist _
    | cons b rest =>
      simp only [List.cons_append, entriesTo_cons] at ih ⊢
      exact ih.append_left _

/-- Neighbours stay neighbours in a longer chain. -/
theorem entriesTo_sublist (before chain after : List NodeId) (address : UInt64) :
    (g.entriesTo chain address).Sublist (g.entriesTo (before ++ chain ++ after) address) := by
  refine .trans ?_ (entriesTo_sublist_append (before ++ chain) after address)
  induction before with
  | nil => exact .refl _
  | cons a before ih => exact ih.trans (entriesTo_sublist_cons a (before ++ chain) address)

theorem looping_subset (before chain after : List NodeId) :
    g.looping threshold chain ⊆ g.looping threshold (before ++ chain ++ after) := by
  rintro i ⟨address, hmany, e, he, hi⟩
  have hsublist := g.entriesTo_sublist before chain after address
  exact ⟨address, Nat.lt_of_lt_of_le hmany hsublist.length_le, e, hsublist.subset he, hi⟩

theorem looping_eq_empty_iff :
    g.looping threshold chain = ∅ ↔
      ∀ address, (g.entriesTo chain address).length ≤ threshold := by
  constructor
  · intro h address
    by_contra hmany
    obtain ⟨e, he⟩ := List.exists_mem_of_length_pos (l := g.entriesTo chain address) (by omega)
    have hi : e.1 ∈ g.looping threshold chain := ⟨address, by omega, e, he, .inl rfl⟩
    rw [h] at hi
    exact hi
  · intro h
    refine Set.eq_empty_of_forall_notMem ?_
    rintro i ⟨address, hmany, -⟩
    exact absurd hmany (Nat.not_lt.mpr (h address))

namespace IsGrouping

variable {groups : List (UInt64 × List (NodeId × NodeId))}

theorem mem_looping_iff (h : g.IsGrouping chain groups) (i : NodeId) :
    i ∈ g.looping threshold chain ↔ i ∈ nodesOfGroups threshold groups := by
  simp only [nodesOfGroups, List.mem_flatMap, List.mem_filter, decide_eq_true_eq, Prod.exists]
  constructor
  · rintro ⟨address, hmany, e, he, hi⟩
    have hgroup := (h.mem_iff address _).mpr ⟨rfl, List.ne_nil_of_mem he⟩
    exact ⟨address, _, ⟨hgroup, hmany⟩, e.1, e.2, he, by simpa using hi⟩
  · rintro ⟨address, entries, ⟨hgroup, hmany⟩, jump, dest, he, hi⟩
    obtain ⟨rfl, -⟩ := (h.mem_iff address entries).mp hgroup
    exact ⟨address, hmany, (jump, dest), he, by simpa using hi⟩

theorem isSpan (h : g.IsGrouping chain groups) :
    IsSpan (g.looping threshold chain) (spanOfGroups threshold groups) := by
  have hnone : IsSpan ∅ none := rfl
  have hfold := hnone.foldl_widen (nodesOfGroups threshold groups)
  rw [Set.union_empty] at hfold
  rw [Set.ext h.mem_looping_iff]
  exact hfold

end IsGrouping

theorem exists_grouping (h : g.entrances? chain = some entrances) :
    ∃ groups, g.IsGrouping chain groups := by
  refine ⟨(entrances.map (·.address)).dedup.map fun address =>
    (address, g.entriesTo chain address), ?_, ?_⟩
  · rw [List.map_map]
    simpa [Function.comp_def] using List.nodup_dedup _
  · intro address entries
    simp only [List.mem_map, List.mem_dedup, Prod.mk.injEq]
    constructor
    · rintro ⟨_, ⟨e, he, rfl⟩, rfl, rfl⟩
      refine ⟨rfl, List.ne_nil_of_mem (a := (e.jump, e.dest)) ?_⟩
      rw [entriesTo_of_entrances? h]
      exact List.mem_map.mpr ⟨e, List.mem_filter.mpr ⟨he, by simp⟩, rfl⟩
    · rintro ⟨rfl, hne⟩
      rw [entriesTo_of_entrances? h] at hne
      obtain ⟨e, he⟩ := List.exists_mem_of_ne_nil _ (mt List.map_eq_nil_iff.mpr hne)
      obtain ⟨he, haddress⟩ := List.mem_filter.mp he
      exact ⟨address, ⟨e, he, of_decide_eq_true haddress⟩, rfl, rfl⟩

end Graph
end OperandFlow
