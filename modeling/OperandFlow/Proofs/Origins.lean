import Mathlib.Data.Set.Card
import OperandFlow.Proofs.Session

/-! The search for origins is exact: what it finds can be reached, and unless its limit stops it, it
finds all that can be reached, in whatever order it starts. -/
namespace OperandFlow

namespace Ordered

theorem isRanking_lt : IsRanking fun a b : Nat => decide (a < b) where
  trans := by
    intro a b c hab hbc
    simp only [decide_eq_true_eq] at hab hbc ⊢
    omega
  transLeft := by
    intro a b c hab hba hbc
    simp only [decide_eq_true_eq, decide_eq_false_iff_not] at hab hba hbc ⊢
    omega

theorem mem_insert_iff {a x : Nat} {as : List Nat} : x ∈ insert (· < ·) a as ↔ x = a ∨ x ∈ as := by
  constructor
  · exact mem_insert
  · intro h
    induction as with
    | nil => simpa [insert] using h
    | cons b bs ih =>
      simp only [insert, decide_eq_true_eq]
      split_ifs with hab hba
      · simpa using h
      · simp only [List.mem_cons] at h ⊢
        tauto
      · have heq : a = b := by omega
        subst heq
        simpa using h

theorem ascending_insert (a : Nat) {as : List Nat} (h : as.Pairwise (· < ·)) :
    (insert (· < ·) a as).Pairwise (· < ·) := by
  simpa using pairwise_insert isRanking_lt a (by simpa using h)

theorem mem_foldl_insert {x : Nat} (as bs : List Nat) :
    x ∈ as.foldl (fun bs a => insert (· < ·) a bs) bs ↔ x ∈ bs ∨ x ∈ as := by
  induction as generalizing bs with
  | nil => simp
  | cons a as ih =>
    rw [List.foldl_cons, ih, mem_insert_iff, List.mem_cons]
    tauto

theorem ascending_foldl_insert (as : List Nat) {bs : List Nat} (h : bs.Pairwise (· < ·)) :
    (as.foldl (fun bs a => insert (· < ·) a bs) bs).Pairwise (· < ·) := by
  induction as generalizing bs with
  | nil => exact h
  | cons a as ih => exact ih (ascending_insert a h)

/-- A set has one listing in ascending order. -/
theorem eq_of_mem_iff {as bs : List Nat} (has : as.Pairwise (· < ·)) (hbs : bs.Pairwise (· < ·))
    (h : ∀ x, x ∈ as ↔ x ∈ bs) : as = bs := by
  have hperm : as.Perm bs := (List.perm_ext_iff_of_nodup has.nodup hbs.nodup).mpr h
  exact hperm.eq_of_pairwise (fun a b _ _ hab hba => absurd hab (Nat.lt_asymm hba)) has hbs

end Ordered

namespace Graph

/-- Searches look behind these nodes. -/
def Passable (g : Graph) (i : NodeId) : Prop :=
  ∃ n, g.node? i = some n ∧ n.isSentinel = false ∧ n.isDeleted = false ∧
    ∀ topic, n.kind ≠ .log topic

/-- Where a search goes on behind a node: behind what wrote the word that a load read, at the key of
a load that read no known word, and at all operands of other nodes. -/
inductive StepsTo (g : Graph) (i : NodeId) : NodeId → Prop where
  | written {n m : Node} {w p : NodeId} : g.node? i = some n → n.is .sload = true →
    w ∈ n.predsAt 1 → g.node? w = some m → p ∈ m.predsAt 1 → g.StepsTo i p
  | key {n : Node} {p : NodeId} : g.node? i = some n → n.is .sload = true →
    n.predsAt 1 = [] → p ∈ n.predsAt 0 → g.StepsTo i p
  | operand {n : Node} {s : Slot} {p : NodeId} : g.node? i = some n → n.is .sload = false →
    s ∈ n.slots → p ∈ s.preds → g.StepsTo i p

/-- What a search from `seeds` comes to. -/
inductive Reaches (g : Graph) (seeds : List NodeId) : NodeId → Prop where
  | seed {i : NodeId} : i ∈ seeds → g.Reaches seeds i
  | step {i p : NodeId} : g.Reaches seeds i → g.Passable i → g.isOrigin i = false →
    g.StepsTo i p → g.Reaches seeds p

/-- A write that a load read from, of a value that nothing supplies. -/
def ReadsConstant (g : Graph) (i w : NodeId) : Prop :=
  ∃ n, g.node? i = some n ∧ n.is .sload = true ∧ w ∈ n.predsAt 1 ∧
    ∀ m, g.node? w = some m → m.predsAt 1 = []

def HasOpcode (g : Graph) (o : Opcode) (i : NodeId) : Prop :=
  g.Passable i ∧ ∃ n, g.node? i = some n ∧ n.is o = true

section Visit

variable {g : Graph} {i p : NodeId} {n : Node}

theorem passable_iff (hn : g.node? i = some n) : g.Passable i ↔ endsSearch n = false := by
  unfold Passable endsSearch
  cases hkind : n.kind <;> simp [hn, hkind]

theorem mem_writtenFrom {w : NodeId} :
    p ∈ g.writtenFrom w ↔ ∃ m, g.node? w = some m ∧ p ∈ m.predsAt 1 := by
  unfold writtenFrom
  cases g.node? w <;> simp

theorem writtenFrom_eq_nil {w : NodeId} :
    g.writtenFrom w = [] ↔ ∀ m, g.node? w = some m → m.predsAt 1 = [] := by
  unfold writtenFrom
  cases g.node? w <;> simp

theorem mem_behind_iff (hn : g.node? i = some n) : p ∈ g.behind n ↔ g.StepsTo i p := by
  constructor
  · intro h
    unfold behind writesOf at h
    split_ifs at h with hload hnone hother
    · exact .key hn hload (List.isEmpty_iff.mp hnone) h
    · obtain ⟨w, hw, hp⟩ := List.mem_flatMap.mp h
      obtain ⟨m, hm, hp⟩ := mem_writtenFrom.mp hp
      exact .written hn hload hw hm hp
    · obtain ⟨s, hs, hp⟩ := List.mem_flatMap.mp h
      exact .operand hn (by simpa using hload) hs hp
    · cases h
  · intro h
    unfold behind writesOf
    cases h with
    | written hi hload hw hm hp =>
      rw [hn] at hi
      cases hi
      rw [if_pos hload, if_neg (by simpa using List.ne_nil_of_mem hw)]
      exact List.mem_flatMap.mpr ⟨_, hw, mem_writtenFrom.mpr ⟨_, hm, hp⟩⟩
    | key hi hload hnone hp =>
      rw [hn] at hi
      cases hi
      simpa [hload, hnone] using hp
    | operand hi hload hs hp =>
      rw [hn] at hi
      cases hi
      simpa [hload] using ⟨_, hs, hp⟩

theorem mem_constantWritesOf {w : NodeId} (hn : g.node? i = some n) :
    w ∈ g.constantWritesOf n ↔ g.ReadsConstant i w := by
  unfold constantWritesOf writesOf ReadsConstant
  rw [List.mem_filter, List.isEmpty_iff, writtenFrom_eq_nil]
  split_ifs with hload <;> simp [hn, hload]

theorem visitOrigin_cases (g : Graph) (found : Origins) (i : NodeId) :
    (¬ g.Passable i ∧ g.visitOrigin found i = (found, [])) ∨
      ∃ n, g.node? i = some n ∧ g.Passable i ∧
        ((g.isOrigin i = true ∧ g.visitOrigin found i = ((found.count n).addOrigin i, [])) ∨
          (g.isOrigin i = false ∧ g.visitOrigin found i =
            ((g.constantWritesOf n).foldl Origins.addConstantWrite (found.count n),
              g.behind n))) := by
  unfold visitOrigin
  cases hn : g.node? i with
  | none => simp [Passable, hn]
  | some n =>
    have hpass := passable_iff hn
    cases hends : endsSearch n with
    | true => simp [hpass, hends]
    | false =>
      cases horigin : g.isOrigin i <;> simp [hpass, hends]

theorem mem_visitOrigin (g : Graph) (found : Origins) (i p : NodeId) :
    p ∈ (g.visitOrigin found i).2 ↔ g.Passable i ∧ g.isOrigin i = false ∧ g.StepsTo i p := by
  rcases visitOrigin_cases g found i with
    ⟨hpass, heq⟩ | ⟨n, hn, hpass, ⟨horigin, heq⟩ | ⟨horigin, heq⟩⟩
  · simp [heq, hpass]
  · simp [heq, horigin]
  · simp [heq, horigin, hpass, mem_behind_iff hn]

end Visit

/-- Both results are listed in ascending order. -/
def IsListed (r : Origins) : Prop :=
  r.ids.Pairwise (· < ·) ∧ r.constantWrites.Pairwise (· < ·)

open Classical in
/-- What a visit to node `i` adds to what was found. -/
structure Adds (g : Graph) (i : NodeId) (found r : Origins) : Prop where
  ids : ∀ x, x ∈ r.ids ↔ x ∈ found.ids ∨ x = i ∧ g.Passable i ∧ g.isOrigin i = true
  hashes : r.hashes = found.hashes + if g.HasOpcode .sha3 i then 1 else 0
  loads : r.loads = found.loads + if g.HasOpcode .sload i then 1 else 0
  constantWrites : ∀ w, w ∈ r.constantWrites ↔
    w ∈ found.constantWrites ∨ g.Passable i ∧ g.isOrigin i = false ∧ g.ReadsConstant i w
  exhausted : r.exhausted = found.exhausted
  listed : IsListed found → IsListed r

theorem foldl_addConstantWrite (ws : List NodeId) (found : Origins) :
    ws.foldl Origins.addConstantWrite found = { found with
      constantWrites :=
        ws.foldl (fun cs w => Ordered.insert (· < ·) w cs) found.constantWrites } := by
  induction ws generalizing found with
  | nil => rfl
  | cons w ws ih => exact ih (found.addConstantWrite w)

theorem count_eq (found : Origins) (n : Node) :
    found.count n = { found with
      hashes := found.hashes + if n.is .sha3 then 1 else 0
      loads := found.loads + if n.is .sload then 1 else 0 } := by
  unfold Origins.count
  split_ifs with hhash hload
  · simp_all [Node.is]
  · rfl
  · rfl
  · rfl

theorem hasOpcode_iff {g : Graph} {i : NodeId} {n : Node} (hn : g.node? i = some n)
    (hpass : g.Passable i) (o : Opcode) : g.HasOpcode o i ↔ n.is o = true := by
  simp [HasOpcode, hpass, hn]

theorem adds_visitOrigin (g : Graph) (found : Origins) (i : NodeId) :
    Adds g i found (g.visitOrigin found i).1 := by
  rcases visitOrigin_cases g found i with
    ⟨hpass, heq⟩ | ⟨n, hn, hpass, ⟨horigin, heq⟩ | ⟨horigin, heq⟩⟩
  · have hopcode : ∀ o, ¬ g.HasOpcode o i := fun o h => hpass h.1
    rw [heq]
    constructor <;> simp [hpass, hopcode]
  · rw [heq, count_eq]
    constructor
    · intro x
      simp [Origins.addOrigin, Ordered.mem_insert_iff, hpass, horigin, or_comm]
    · simp [Origins.addOrigin, hasOpcode_iff hn hpass]
    · simp [Origins.addOrigin, hasOpcode_iff hn hpass]
    · simp [Origins.addOrigin, horigin]
    · rfl
    · intro hlisted
      exact ⟨Ordered.ascending_insert i hlisted.1, hlisted.2⟩
  · rw [heq, count_eq, foldl_addConstantWrite]
    constructor
    · simp [horigin]
    · simp [hasOpcode_iff hn hpass]
    · simp [hasOpcode_iff hn hpass]
    · simp [Ordered.mem_foldl_insert, mem_constantWritesOf hn, hpass, horigin]
    · rfl
    · intro hlisted
      exact ⟨hlisted.1, Ordered.ascending_foldl_insert _ hlisted.2⟩

/-- What a search has found once it visited these nodes. -/
def tally (g : Graph) (visited : List NodeId) : Origins :=
  visited.foldr (fun i found => (g.visitOrigin found i).1) .none

section Tally

variable (g : Graph) (visited : List NodeId)

theorem adds_tally (i : NodeId) : Adds g i (g.tally visited) (g.tally (i :: visited)) :=
  adds_visitOrigin g (g.tally visited) i

theorem mem_ids_tally (x : NodeId) :
    x ∈ (g.tally visited).ids ↔ x ∈ visited ∧ g.Passable x ∧ g.isOrigin x = true := by
  induction visited with
  | nil => simp [tally, Origins.none]
  | cons i visited ih =>
    rw [(adds_tally g visited i).ids, ih, List.mem_cons]
    constructor
    · rintro (⟨hx, h⟩ | ⟨rfl, h⟩)
      · exact ⟨Or.inr hx, h⟩
      · exact ⟨Or.inl rfl, h⟩
    · rintro ⟨rfl | hx, h⟩
      · exact Or.inr ⟨rfl, h⟩
      · exact Or.inl ⟨hx, h⟩

theorem mem_constantWrites_tally (w : NodeId) :
    w ∈ (g.tally visited).constantWrites ↔
      ∃ i ∈ visited, g.Passable i ∧ g.isOrigin i = false ∧ g.ReadsConstant i w := by
  induction visited with
  | nil => simp [tally, Origins.none]
  | cons i visited ih =>
    rw [(adds_tally g visited i).constantWrites, ih]
    simp [or_comm]

theorem exhausted_tally : (g.tally visited).exhausted = false := by
  induction visited with
  | nil => rfl
  | cons i visited ih => rw [(adds_tally g visited i).exhausted, ih]

theorem isListed_tally : IsListed (g.tally visited) := by
  induction visited with
  | nil => exact ⟨List.Pairwise.nil, List.Pairwise.nil⟩
  | cons i visited ih => exact (adds_tally g visited i).listed ih

open Classical in
theorem encard_cons {p : NodeId → Prop} {i : NodeId} {visited : List NodeId} (hi : i ∉ visited) :
    {x | x ∈ i :: visited ∧ p x}.encard =
      {x | x ∈ visited ∧ p x}.encard + ((if p i then 1 else 0 : Nat) : ENat) := by
  split_ifs with hp
  · have hset : {x | x ∈ i :: visited ∧ p x} = insert i {x | x ∈ visited ∧ p x} := by
      ext x
      simp only [List.mem_cons, Set.mem_ofPred_eq, Set.mem_insert_iff]
      constructor
      · rintro ⟨rfl | hx, h⟩
        · exact Or.inl rfl
        · exact Or.inr ⟨hx, h⟩
      · rintro (rfl | ⟨hx, h⟩)
        · exact ⟨Or.inl rfl, hp⟩
        · exact ⟨Or.inr hx, h⟩
    rw [hset, Set.encard_insert_of_notMem (fun h => hi h.1), Nat.cast_one]
  · have hset : {x | x ∈ i :: visited ∧ p x} = {x | x ∈ visited ∧ p x} := by
      ext x
      simp only [List.mem_cons, Set.mem_ofPred_eq]
      constructor
      · rintro ⟨rfl | hx, h⟩
        · exact absurd h hp
        · exact ⟨hx, h⟩
      · rintro ⟨hx, h⟩
        exact ⟨Or.inr hx, h⟩
    rw [hset, Nat.cast_zero, add_zero]

variable {visited}

theorem encard_tally (hnodup : visited.Nodup) :
    {x | x ∈ visited ∧ g.HasOpcode .sha3 x}.encard = (g.tally visited).hashes ∧
      {x | x ∈ visited ∧ g.HasOpcode .sload x}.encard = (g.tally visited).loads := by
  induction visited with
  | nil => simp [tally, Origins.none]
  | cons i visited ih =>
    obtain ⟨hi, hvisited⟩ := List.nodup_cons.mp hnodup
    obtain ⟨hhashes, hloads⟩ := ih hvisited
    have hadds := adds_tally g visited i
    rw [encard_cons hi, encard_cons hi, hhashes, hloads, hadds.hashes, hadds.loads]
    simp

end Tally

/-- A search in progress: what it has found comes from the nodes visited, and whatever can be
reached is visited or lies behind the queue. -/
structure Explores (g : Graph) (seeds : List NodeId) (s : OriginSearch)
    (queue : List (NodeId × Nat)) : Prop where
  found : s.found = { g.tally s.visited with exhausted := s.found.exhausted }
  nodup : s.visited.Nodup
  reached : ∀ i, i ∈ s.visited ∨ i ∈ queue.map Prod.fst → g.Reaches seeds i
  started : ∀ i ∈ seeds, i ∈ s.visited ∨ i ∈ queue.map Prod.fst
  closed : ∀ i ∈ s.visited, g.Passable i → g.isOrigin i = false → ∀ p, g.StepsTo i p →
    p ∈ s.visited ∨ p ∈ queue.map Prod.fst

namespace Explores

variable {g : Graph} {seeds : List NodeId} {s : OriginSearch} {queue : List (NodeId × Nat)}

theorem start (g : Graph) (seeds : List NodeId) :
    Explores g seeds ⟨.none, [], none, 0⟩ (seeds.map (·, 0)) where
  found := rfl
  nodup := List.nodup_nil
  reached := by
    intro i hi
    exact .seed (by simpa using hi)
  started := by simp
  closed := by simp

/-- A node that was visited already leaves the queue. -/
theorem skip {uid depth : Nat} (h : Explores g seeds s ((uid, depth) :: queue))
    (hvisited : uid ∈ s.visited) (dequeues : Nat) :
    Explores g seeds { s with dequeues } queue where
  found := h.found
  nodup := h.nodup
  reached := fun i hi => h.reached i (hi.imp_right (List.mem_cons_of_mem uid))
  started := by
    intro i hi
    have hstarted := h.started i hi
    grind
  closed := by
    intro i hi hpass horigin p hp
    have hclosed := h.closed i hi hpass horigin p hp
    grind

/-- A new node makes room for what lies behind it. -/
theorem visit {uid depth : Nat} (h : Explores g seeds s ((uid, depth) :: queue))
    (hvisited : uid ∉ s.visited) (hopen : s.found.exhausted = false) (dequeues : Nat) :
    Explores g seeds
      { s with
        dequeues
        found := (g.visitOrigin s.found uid).1
        visited := uid :: s.visited }
      (queue ++ (g.visitOrigin s.found uid).2.map (·, depth + 1)) := by
  have hreached : g.Reaches seeds uid := h.reached uid (by simp)
  have hnext : ∀ p, p ∈ ((g.visitOrigin s.found uid).2.map fun p => (p, depth + 1)).map Prod.fst ↔
      g.Passable uid ∧ g.isOrigin uid = false ∧ g.StepsTo uid p := by
    intro p
    rw [List.map_map, ← mem_visitOrigin g s.found uid p]
    simp [Function.comp_def]
  have hfound : s.found = g.tally s.visited := by
    rw [h.found, hopen, ← exhausted_tally g s.visited]
  constructor
  · have hvisit : (g.visitOrigin s.found uid).1 = g.tally (uid :: s.visited) := by
      rw [hfound]
      rfl
    simp only [hvisit, exhausted_tally]
    rw [← exhausted_tally g (uid :: s.visited)]
  · exact List.nodup_cons.mpr ⟨hvisited, h.nodup⟩
  · intro i hi
    rw [List.map_append, List.mem_append, hnext, List.mem_cons] at hi
    rcases hi with (rfl | hi) | hi | ⟨hpass, horigin, hstep⟩
    · exact hreached
    · exact h.reached i (Or.inl hi)
    · exact h.reached i (Or.inr (List.mem_cons_of_mem uid hi))
    · exact .step hreached hpass horigin hstep
  · intro i hi
    have hstarted := h.started i hi
    grind
  · intro i hi hpass horigin p hp
    rw [List.map_append, List.mem_append, hnext]
    rcases List.mem_cons.mp hi with rfl | hi
    · exact Or.inr (Or.inr ⟨hpass, horigin, hp⟩)
    · have hclosed := h.closed i hi hpass horigin p hp
      grind

/-- The whole search. It stops with a queue only if it is exhausted. -/
theorem run (left : Nat) (h : Explores g seeds s queue) (hopen : s.found.exhausted = false) :
    ∃ rest, Explores g seeds (g.searchOrigins left s queue) rest ∧
      ((g.searchOrigins left s queue).found.exhausted = false → rest = []) ∧
      (g.searchOrigins left s queue).visited.length ≤ s.visited.length + left := by
  fun_induction searchOrigins g left s queue with
  | case1 left s => exact ⟨[], h, fun _ => rfl, Nat.le_add_right _ _⟩
  | case2 s uid depth queue =>
    refine ⟨(uid, depth) :: queue, ⟨?_, h.nodup, h.reached, h.started, h.closed⟩, nofun,
      Nat.le_refl _⟩
    rw [h.found]
  | case3 left s uid depth queue s' hvisited ih =>
    obtain ⟨rest, hrest, hend, hlen⟩ := ih (h.skip hvisited _) hopen
    exact ⟨rest, hrest, hend, Nat.le_succ_of_le hlen⟩
  | case4 left s uid depth queue s' hvisited found next heq ih =>
    have hvisit := h.visit hvisited hopen (s.dequeues + 1)
    have hadds := adds_visitOrigin g s.found uid
    rw [show g.visitOrigin s.found uid = (found, next) from heq] at hvisit hadds
    obtain ⟨rest, hrest, hend, hlen⟩ := ih hvisit (hadds.exhausted.trans hopen)
    refine ⟨rest, hrest, hend, hlen.trans (Nat.le_of_eq ?_)⟩
    change s.visited.length + 1 + left = s.visited.length + (left + 1)
    omega

/-- Nothing can be reached that an ended search has not visited. -/
theorem mem_visited_iff (h : Explores g seeds s []) (i : NodeId) :
    i ∈ s.visited ↔ g.Reaches seeds i := by
  constructor
  · intro hi
    exact h.reached i (Or.inl hi)
  · intro hi
    induction hi with
    | seed hseed => simpa using h.started _ hseed
    | step _ hpass horigin hstep ih => simpa using h.closed _ ih hpass horigin _ hstep

end Explores

/-- The results of a search that looked at all that can be reached from `seeds`. -/
structure Exact (g : Graph) (seeds : List NodeId) (r : Origins) : Prop where
  listed : IsListed r
  ids : ∀ i, i ∈ r.ids ↔ g.Reaches seeds i ∧ g.Passable i ∧ g.isOrigin i = true
  hashes : {i | g.Reaches seeds i ∧ g.HasOpcode .sha3 i}.encard = r.hashes
  loads : {i | g.Reaches seeds i ∧ g.HasOpcode .sload i}.encard = r.loads
  constantWrites : ∀ w, w ∈ r.constantWrites ↔
    ∃ i, g.Reaches seeds i ∧ g.Passable i ∧ g.isOrigin i = false ∧ g.ReadsConstant i w

theorem Explores.exact {g : Graph} {seeds : List NodeId} {s : OriginSearch}
    (h : Explores g seeds s []) : Exact g seeds s.found := by
  obtain ⟨hhashes, hloads⟩ := encard_tally g h.nodup
  have hlisted := isListed_tally g s.visited
  rw [h.found]
  constructor
  · exact hlisted
  · intro i
    rw [← h.mem_visited_iff]
    exact mem_ids_tally g s.visited i
  · simpa only [h.mem_visited_iff] using hhashes
  · simpa only [h.mem_visited_iff] using hloads
  · intro w
    simpa only [h.mem_visited_iff] using mem_constantWrites_tally g s.visited w

theorem Reaches.of_subset {g : Graph} {seeds seeds' : List NodeId} {i : NodeId}
    (hseeds : ∀ i ∈ seeds, i ∈ seeds') (h : g.Reaches seeds i) : g.Reaches seeds' i := by
  induction h with
  | seed hi => exact .seed (hseeds _ hi)
  | step _ hpass horigin hstep ih => exact .step ih hpass horigin hstep

/-- Exact results depend on nothing but which seeds there are. -/
theorem Exact.unique {g : Graph} {seeds seeds' : List NodeId} {r r' : Origins}
    (hseeds : ∀ i, i ∈ seeds' ↔ i ∈ seeds) (hr : Exact g seeds r) (hr' : Exact g seeds' r')
    (hexhausted : r'.exhausted = r.exhausted) : r' = r := by
  have hreaches : ∀ i, g.Reaches seeds' i ↔ g.Reaches seeds i := by
    intro i
    exact ⟨.of_subset fun i hi => (hseeds i).mp hi, .of_subset fun i hi => (hseeds i).mpr hi⟩
  have hids : r'.ids = r.ids := by
    refine Ordered.eq_of_mem_iff hr'.listed.1 hr.listed.1 fun i => ?_
    rw [hr'.ids, hr.ids, hreaches]
  have hwrites : r'.constantWrites = r.constantWrites := by
    refine Ordered.eq_of_mem_iff hr'.listed.2 hr.listed.2 fun w => ?_
    simp only [hr'.constantWrites, hr.constantWrites, hreaches]
  have hhashes : r'.hashes = r.hashes := by
    have hcount := hr'.hashes
    simp only [hreaches] at hcount
    exact_mod_cast hcount.symm.trans hr.hashes
  have hloads : r'.loads = r.loads := by
    have hcount := hr'.loads
    simp only [hreaches] at hcount
    exact_mod_cast hcount.symm.trans hr.loads
  cases r
  cases r'
  simp_all

end Graph

namespace Analysis

/-- A sum of two words from the storage: one of them came from the caller, the other was stored as
a constant. -/
def sumOfLoads : List Action :=
  [.pre ⟨"f", 0, "CALLER", 0, [], none, none⟩ none,
    .post ⟨"f", "CALLER", ⟨256, "caller"⟩⟩ none,
    .pre ⟨"f", 0, "SSTORE", 1, [⟨256, "0"⟩, ⟨256, "caller"⟩], none, none⟩ none,
    .pre ⟨"f", 0, "SSTORE", 2, [⟨256, "1"⟩, ⟨256, "7"⟩], none, none⟩ none,
    .pre ⟨"f", 0, "SLOAD", 3, [⟨256, "0"⟩], none, none⟩ none,
    .post ⟨"f", "SLOAD", ⟨256, "first"⟩⟩ none,
    .pre ⟨"f", 0, "SLOAD", 4, [⟨256, "1"⟩], none, none⟩ none,
    .post ⟨"f", "SLOAD", ⟨256, "second"⟩⟩ none,
    .pre ⟨"f", 0, "ADD", 5, [⟨256, "first"⟩, ⟨256, "second"⟩], none, none⟩ none,
    .post ⟨"f", "ADD", ⟨256, "sum"⟩⟩ none]

/-- Whatever a search finds are origins that can be reached, at most as many as its limit. A search
that its limit does not stop finds all of them, counts what it passes, and gives the same for the
same seeds in any order. -/
theorem origins_exact (s : Analysis) (seeds : List NodeId) (limit : Nat) :
    let r := (s.origins seeds limit).1
    (∀ i ∈ r.ids, s.graph.Reaches seeds i ∧ s.graph.Passable i ∧ s.graph.isOrigin i = true) ∧
      r.ids.length ≤ limit ∧
      (r.exhausted = false → s.graph.Exact seeds r ∧
        ∀ seeds' limit', (∀ i, i ∈ seeds' ↔ i ∈ seeds) →
          (s.origins seeds' limit').1.exhausted = false → (s.origins seeds' limit').1 = r) := by
  have hsearch : ∀ seeds limit, ∃ final rest, s.graph.Explores seeds final rest ∧
      (s.origins seeds limit).1 = final.found ∧
      (final.found.exhausted = false → rest = []) ∧ final.visited.length ≤ limit := by
    intro seeds limit
    obtain ⟨rest, hrest, hend, hlen⟩ := (Graph.Explores.start s.graph seeds).run limit rfl
    exact ⟨_, rest, hrest, Graph.origins_value s.host s.graph seeds limit, hend,
      by simpa using hlen⟩
  intro r
  obtain ⟨final, rest, hrest, (hfound : r = final.found), hend, hlen⟩ := hsearch seeds limit
  have hids : ∀ i, i ∈ r.ids ↔
      i ∈ final.visited ∧ s.graph.Passable i ∧ s.graph.isOrigin i = true := by
    intro i
    rw [hfound, hrest.found]
    exact Graph.mem_ids_tally s.graph final.visited i
  refine ⟨?_, ?_, ?_⟩
  · intro i hi
    obtain ⟨hvisited, hpassed⟩ := (hids i).mp hi
    exact ⟨hrest.reached i (Or.inl hvisited), hpassed⟩
  · have hnodup : r.ids.Nodup := by
      rw [hfound, hrest.found]
      exact (Graph.isListed_tally s.graph final.visited).1.nodup
    have hsubset : r.ids ⊆ final.visited := fun i hi => ((hids i).mp hi).1
    exact (hnodup.subperm hsubset).length_le.trans hlen
  · intro hopen
    have hexact : s.graph.Exact seeds r := by
      rw [hfound] at hopen ⊢
      rw [hend hopen] at hrest
      exact hrest.exact
    refine ⟨hexact, ?_⟩
    intro seeds' limit' hseeds hopen'
    obtain ⟨final', rest', hrest', hfound', hend', -⟩ := hsearch seeds' limit'
    rw [hfound'] at hopen' ⊢
    rw [hend' hopen'] at hrest'
    exact Graph.Exact.unique hseeds hexact hrest'.exact (hopen'.trans hopen.symm)

theorem origins_exact_sumOfLoads :
    let s := (start ⟨{}, .text, 0⟩).performAll sumOfLoads
    let r := (s.origins [7] 9).1
    r.exhausted = false ∧ r.ids = [2] ∧ r.loads = 2 ∧ r.constantWrites = [4] ∧
      s.graph.Exact [7] r ∧
      (s.origins [7, 7] 9).1.exhausted = false ∧ (s.origins [7, 7] 9).1 = r := by
  intro s r
  obtain ⟨hopen, hids, hloads, hwrites⟩ : r.exhausted = false ∧ r.ids = [2] ∧ r.loads = 2 ∧
      r.constantWrites = [4] := by decide +kernel
  have hopen' : (s.origins [7, 7] 9).1.exhausted = false := by decide +kernel
  obtain ⟨hexact, hsame⟩ := (origins_exact s [7] 9).2.2 hopen
  exact ⟨hopen, hids, hloads, hwrites, hexact, hopen', hsame [7, 7] 9 (by simp) hopen'⟩

end Analysis
end OperandFlow
