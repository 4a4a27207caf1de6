import Mathlib.Data.List.Flatten
import OperandFlow.Proofs.Graph.Stability
import OperandFlow.Proofs.Origins
import OperandFlow.Proofs.Runs

/-! The search for an ancestor with an opcode finds a nearest one, or there is none, unless its
limit stops it. -/
namespace OperandFlow.Graph

/-- So many steps to a predecessor lead from `uid` to the node. -/
inductive StepsBack (g : Graph) (uid : NodeId) : Nat → NodeId → Prop where
  | first {p : NodeId} : g.Feeds p uid → g.StepsBack uid 1 p
  | next {d : Nat} {i p : NodeId} : g.StepsBack uid d i → g.Feeds p i → g.StepsBack uid (d + 1) p

/-- The node stands for an instruction with the opcode. -/
def Executes (g : Graph) (opcode : Opcode) (i : NodeId) : Prop :=
  ∃ n, g.node? i = some n ∧ n.is opcode = true

/-- No node that fewer steps lead to has the opcode, and this one has it. -/
structure Nearest (g : Graph) (uid : NodeId) (opcode : Opcode) (a : NodeId) (d : Nat) : Prop where
  executes : g.Executes opcode a
  reached : g.StepsBack uid d a
  least : ∀ j b, j < d → g.StepsBack uid j b → ¬ g.Executes opcode b

def predsOf (g : Graph) (uid : NodeId) : List NodeId :=
  ((g.node? uid).map (·.predecessors)).getD []

/-- The number of entries in the slots of all nodes. -/
def entryCount (g : Graph) : Nat :=
  (g.nodes.toList.flatMap fun n => n.slots.flatMap (·.preds)).length

/-- What a search has visited, and what it has still to look at. -/
structure Frontier where
  visited : List NodeId
  queue : List NodeId

namespace Frontier

/-- Takes one node off the queue. A new one makes room for its predecessors. -/
def dequeue (g : Graph) (f : Frontier) : Frontier :=
  match f.queue with
  | [] => f
  | uid :: queue =>
    if uid ∈ f.visited then { f with queue }
    else ⟨uid :: f.visited, queue ++ g.predsOf uid⟩

/-- Nothing that was visited has the opcode. -/
def Clear (g : Graph) (opcode : Opcode) (f : Frontier) : Prop :=
  ∀ i ∈ f.visited, ¬ g.Executes opcode i

end Frontier

/-- The search behind `uid` after so many dequeues, if none of them ends it. -/
def frontier (g : Graph) (uid : NodeId) (k : Nat) : Frontier :=
  (Frontier.dequeue g)^[k] ⟨[], g.predsOf uid⟩

section Steps

variable {g : Graph} {uid i p : NodeId} {d : Nat}

theorem mem_predsOf : p ∈ g.predsOf i ↔ g.Feeds p i := by
  unfold predsOf Feeds
  cases g.node? i <;> simp [Node.mem_predecessors]

theorem StepsBack.pos (h : g.StepsBack uid d i) : 0 < d := by
  cases h <;> omega

theorem stepsBack_one_iff : g.StepsBack uid 1 i ↔ g.Feeds i uid := by
  constructor
  · intro h
    cases h with
    | first h => exact h
    | next h _ => exact absurd h.pos (by omega)
  · exact .first

theorem StepsBack.last (h : g.StepsBack uid (d + 1) p) (hd : 0 < d) :
    ∃ i, g.StepsBack uid d i ∧ g.Feeds p i := by
  cases h with
  | first => omega
  | next hi hp => exact ⟨_, hi, hp⟩

/-- What supplies a node comes before it or goes to it as its exit, so that no way leads back. -/
theorem Causal.ne_of_stepsBack (hg : g.Causal) (h : g.StepsBack uid d i) : i ≠ uid := by
  -- An exit supplies nothing; from all other nodes steps only lead to earlier ones.
  have hsource : ∀ {a b : NodeId}, g.Feeds a b → ¬ IsExit g.outlines a := by
    rintro a b hab ⟨o, ho, hexit⟩
    rcases hg.sourced hab with ⟨-, q, -, hq, -, -, hinner, -⟩ | ⟨q, -, hq, -, -, hinstr, -⟩
    · cases ho.symm.trans hq
      simp [hinner] at hexit
    · cases ho.symm.trans hq
      exact hinstr ((hg.formed.bare_iff ho).mpr (Or.inr hexit))
  have hlt : ∀ {a b : NodeId}, g.Feeds a b → ¬ IsExit g.outlines b → a < b := by
    intro a b hab hb
    rcases hg.sourced hab with ⟨hlt, -⟩ | ⟨-, q, -, hq, -, -, hexit⟩
    · exact hlt
    · exact absurd ⟨q, hq, hexit⟩ hb
  by_cases hexit : IsExit g.outlines uid
  · have hinner : ¬ IsExit g.outlines i := by
      cases h with
      | first hp => exact hsource hp
      | next _ hp => exact hsource hp
    rintro rfl
    exact hinner hexit
  · suffices hearlier : i < uid from Nat.ne_of_lt hearlier
    induction h with
    | first hp => exact hlt hp hexit
    | next hi hp ih =>
      refine Nat.lt_trans (hlt hp ?_) ih
      cases hi with
      | first hp => exact hsource hp
      | next _ hp => exact hsource hp

end Steps

/-- A search that goes level by level: the queue holds first nodes that `d` steps lead to, and then
nodes behind those. -/
structure Levels (g : Graph) (uid : NodeId) (d : Nat) (f : Frontier) (now later : List NodeId) :
    Prop where
  pos : 0 < d
  queue : f.queue = now ++ later
  head : ∀ i ∈ now, g.StepsBack uid d i
  tail : ∀ i ∈ later, g.StepsBack uid (d + 1) i
  nearer : ∀ j i, j < d → g.StepsBack uid j i → i ∈ f.visited
  level : ∀ i, g.StepsBack uid d i → i ∈ f.visited ∨ i ∈ now
  closed : ∀ i ∈ f.visited, ∀ p, g.Feeds p i → p ∈ f.visited ∨ p ∈ f.queue
  reached : ∀ i ∈ f.visited, ∃ j, g.StepsBack uid j i
  nodup : f.visited.Nodup

namespace Levels

variable {g : Graph} {uid a : NodeId} {d k : Nat} {f : Frontier} {now later rest : List NodeId}

theorem start (g : Graph) (uid : NodeId) :
    Levels g uid 1 ⟨[], g.predsOf uid⟩ (g.predsOf uid) [] where
  pos := Nat.one_pos
  queue := (List.append_nil _).symm
  head := fun _ hi => .first (mem_predsOf.mp hi)
  tail := by simp
  nearer := fun _ _ hj h => absurd h.pos (by omega)
  level := fun _ h => Or.inr (mem_predsOf.mpr (stepsBack_one_iff.mp h))
  closed := by simp
  reached := by simp
  nodup := List.nodup_nil

/-- Once a level is done the next one begins. -/
theorem advance (h : Levels g uid d f [] later) : Levels g uid (d + 1) f later [] := by
  have hdone : ∀ i, g.StepsBack uid d i → i ∈ f.visited := by
    intro i hi
    simpa using h.level i hi
  constructor
  · omega
  · simpa using h.queue
  · exact h.tail
  · simp
  · intro j i hj hi
    by_cases hjd : j = d
    · exact hdone i (hjd ▸ hi)
    · exact h.nearer j i (by omega) hi
  · intro p hp
    obtain ⟨i, hi, hp⟩ := hp.last h.pos
    simpa [h.queue] using h.closed i (hdone i hi) p hp
  · exact h.closed
  · exact h.reached
  · exact h.nodup

/-- The first node on the queue belongs to the level at hand. -/
theorem exists_head (h : Levels g uid d f now later) (hqueue : f.queue = a :: rest) :
    ∃ d now later, Levels g uid d f (a :: now) later := by
  have hsplit := h.queue.symm.trans hqueue
  cases now with
  | nil =>
    cases hsplit
    exact ⟨_, _, _, h.advance⟩
  | cons b now =>
    cases (List.cons.inj hsplit).1
    exact ⟨_, _, _, h⟩

theorem dequeue (h : Levels g uid d f (a :: now) later) :
    ∃ later', Levels g uid d (f.dequeue g) now later' := by
  have hqueue : f.queue = a :: (now ++ later) := h.queue
  have hnow : ∀ i ∈ now, g.StepsBack uid d i := fun i hi => h.head i (List.mem_cons_of_mem a hi)
  unfold Frontier.dequeue
  simp only [hqueue]
  split_ifs with hvisited
  · refine ⟨later, h.pos, rfl, hnow, h.tail, h.nearer, ?_, ?_, h.reached, h.nodup⟩
    · intro i hi
      have hlevel := h.level i hi
      grind
    · intro i hi p hp
      have hclosed := h.closed i hi p hp
      grind
  · refine ⟨later ++ g.predsOf a, h.pos, by simp, hnow, ?_, ?_, ?_, ?_,
      List.forall_mem_cons.mpr ⟨⟨d, h.head a List.mem_cons_self⟩, h.reached⟩,
      List.nodup_cons.mpr ⟨hvisited, h.nodup⟩⟩
    · intro i hi
      rcases List.mem_append.mp hi with hi | hi
      · exact h.tail i hi
      · exact .next (h.head a List.mem_cons_self) (mem_predsOf.mp hi)
    · intro j i hj hi
      exact List.mem_cons_of_mem a (h.nearer j i hj hi)
    · intro i hi
      have hlevel := h.level i hi
      grind
    · intro i hi p hp
      rcases List.mem_cons.mp hi with rfl | hi
      · exact Or.inr (List.mem_append_right _ (mem_predsOf.mpr hp))
      · have hclosed := h.closed i hi p hp
        grind

/-- The search goes level by level from its start to its end. -/
theorem frontier (g : Graph) (uid : NodeId) (k : Nat) :
    ∃ d now later, Levels g uid d (g.frontier uid k) now later := by
  induction k with
  | zero => exact ⟨_, _, _, .start g uid⟩
  | succ k ih =>
    obtain ⟨d, now, later, h⟩ := ih
    unfold Graph.frontier at h ⊢
    rw [Function.iterate_succ_apply']
    cases hqueue : ((Frontier.dequeue g)^[k] ⟨[], g.predsOf uid⟩).queue with
    | nil =>
      have hsame : ((Frontier.dequeue g)^[k] ⟨[], g.predsOf uid⟩).dequeue g =
          (Frontier.dequeue g)^[k] ⟨[], g.predsOf uid⟩ := by
        rw [Frontier.dequeue]
        simp only [hqueue]
      rw [hsame]
      exact ⟨d, now, later, h⟩
    | cons a rest =>
      obtain ⟨d, now, later, h⟩ := h.exists_head hqueue
      exact ⟨d, now, h.dequeue⟩

/-- A node with the opcode at the head of the queue is a nearest one if none was visited. -/
theorem nearest {opcode : Opcode} (h : Levels g uid d f (a :: now) later)
    (hclear : f.Clear g opcode) (ha : g.Executes opcode a) : g.Nearest uid opcode a d where
  executes := ha
  reached := h.head a List.mem_cons_self
  least := fun j b hj hb => hclear b (h.nearer j b hj hb)

/-- With an empty queue all that steps lead to is visited. -/
theorem mem_visited (h : Levels g uid d f now later) (hqueue : f.queue = []) {j : Nat} {i : NodeId}
    (hi : g.StepsBack uid j i) : i ∈ f.visited := by
  have hnow : now = [] := (List.append_eq_nil_iff.mp (h.queue.symm.trans hqueue)).1
  induction hi with
  | @first p hp =>
    by_cases hd : 1 < d
    · exact h.nearer 1 p hd (.first hp)
    · have hone : d = 1 := by have := h.pos; omega
      simpa [hnow] using h.level p (hone ▸ .first hp)
  | @next _ i p _ hp ih => simpa [hqueue] using h.closed i ih p hp

end Levels

/-- How a search with so many dequeues left ends. -/
inductive Ends (g : Graph) (opcode : Opcode) (f : Frontier) (left : Nat) :
    AncestorSearch → Prop where
  | found {k : Nat} {a : NodeId} {rest : List NodeId} (hk : k < left)
      (hclear : ((Frontier.dequeue g)^[k] f).Clear g opcode)
      (hqueue : ((Frontier.dequeue g)^[k] f).queue = a :: rest) (ha : g.Executes opcode a) :
      Ends g opcode f left (.found a)
  | absent {k : Nat} (hk : k ≤ left) (hclear : ((Frontier.dequeue g)^[k] f).Clear g opcode)
      (hqueue : ((Frontier.dequeue g)^[k] f).queue = []) : Ends g opcode f left .absent
  | exhausted (hclear : ((Frontier.dequeue g)^[left] f).Clear g opcode)
      (hqueue : ((Frontier.dequeue g)^[left] f).queue ≠ []) : Ends g opcode f left .exhausted

theorem Ends.step {g : Graph} {opcode : Opcode} {f : Frontier} {left : Nat} {r : AncestorSearch}
    (h : Ends g opcode (f.dequeue g) left r) : Ends g opcode f (left + 1) r := by
  cases h with
  | @found k _ _ hk hclear hqueue ha => exact .found (k := k + 1) (by omega) hclear hqueue ha
  | @absent k hk hclear hqueue => exact .absent (k := k + 1) (by omega) hclear hqueue
  | exhausted hclear hqueue => exact .exhausted hclear hqueue

section Search

variable {g : Graph} {opcode : Opcode} {f : Frontier} {a : NodeId} {rest : List NodeId}

theorem Frontier.Clear.dequeue (h : f.Clear g opcode) (hqueue : f.queue = a :: rest)
    (ha : ¬ g.Executes opcode a) : (f.dequeue g).Clear g opcode := by
  unfold Frontier.dequeue
  simp only [hqueue]
  split_ifs
  · exact h
  · exact List.forall_mem_cons.mpr ⟨ha, h⟩

/-- A node without the opcode does not end the search. -/
theorem searchAncestor_dequeue (hqueue : f.queue = a :: rest) (ha : ¬ g.Executes opcode a)
    (left : Nat) : g.searchAncestor opcode (left + 1) f.visited f.queue =
      g.searchAncestor opcode left (f.dequeue g).visited (f.dequeue g).queue := by
  rw [hqueue, searchAncestor, Frontier.dequeue]
  simp only [hqueue]
  split_ifs with hvisited
  · rfl
  · cases hn : g.node? a with
    | none => simp [predsOf, hn]
    | some n =>
      have hother : n.is opcode = false := by
        by_contra ho
        exact ha ⟨n, hn, by simpa using ho⟩
      simp [predsOf, hn, hother]

/-- A node with the opcode ends it, since it was not visited before. -/
theorem searchAncestor_found (hclear : f.Clear g opcode) (hqueue : f.queue = a :: rest)
    (ha : g.Executes opcode a) (left : Nat) :
    g.searchAncestor opcode (left + 1) f.visited f.queue = .found a := by
  have hnew : a ∉ f.visited := fun hvisited => hclear a hvisited ha
  obtain ⟨n, hn, ho⟩ := ha
  simp [hqueue, searchAncestor, hnew, hn, ho]

theorem ends_searchAncestor (left : Nat) (hclear : f.Clear g opcode) :
    Ends g opcode f left (g.searchAncestor opcode left f.visited f.queue) := by
  induction left generalizing f with
  | zero =>
    cases hqueue : f.queue with
    | nil => exact .absent (Nat.le_refl 0) hclear hqueue
    | cons a rest => exact .exhausted hclear (by simp [hqueue])
  | succ left ih =>
    cases hqueue : f.queue with
    | nil => exact .absent (Nat.zero_le _) hclear hqueue
    | cons a rest =>
      rw [← hqueue]
      by_cases ha : g.Executes opcode a
      · rw [searchAncestor_found hclear hqueue ha]
        exact .found (Nat.succ_pos left) hclear hqueue ha
      · rw [searchAncestor_dequeue hqueue ha]
        exact .step (ih (hclear.dequeue hqueue ha))

/-- The answer is what the search ended with. -/
theorem ancestor?_cases {uid : NodeId} {n : Node} (hn : g.node? uid = some n) (host : Host)
    (opcode : Opcode) {k : Nat} (hk : host.options.reach = k) :
    (∃ a, Ends g opcode ⟨[], g.predsOf uid⟩ k (.found a) ∧
        (g.ancestor? host uid opcode).value = .ok (some a)) ∨
      (Ends g opcode ⟨[], g.predsOf uid⟩ k .absent ∧
        (g.ancestor? host uid opcode).value = .ok none) ∨
      (Ends g opcode ⟨[], g.predsOf uid⟩ k .exhausted ∧
        (g.ancestor? host uid opcode).value = .error (.searchExhausted uid k)) := by
  have hclear : (⟨[], g.predsOf uid⟩ : Frontier).Clear g opcode := by simp [Frontier.Clear]
  have hends := ends_searchAncestor k hclear
  dsimp only at hends
  have hpreds : g.predsOf uid = n.predecessors := by simp [predsOf, hn]
  unfold ancestor?
  simp only [hn, hk, ← hpreds]
  cases hsearch : g.searchAncestor opcode k [] (g.predsOf uid) with
  | found a => exact Or.inl ⟨a, hsearch ▸ hends, rfl⟩
  | absent => exact Or.inr (Or.inl ⟨hsearch ▸ hends, rfl⟩)
  | exhausted => exact Or.inr (Or.inr ⟨hsearch ▸ hends, rfl⟩)

end Search

section Limit

variable {g : Graph} {uid : NodeId} {k : Nat}

/-- Different nodes have no more predecessors than there are entries. -/
theorem length_flatMap_predsOf_le (hg : Formed g.outlines) {ids : List NodeId} (h : ids.Nodup) :
    (ids.flatMap g.predsOf).length ≤ g.entryCount := by
  have hnodes : ids.flatMap g.predsOf = (ids.filterMap g.node?).flatMap (·.predecessors) := by
    rw [List.filterMap_eq_flatMap_toList, List.flatMap_assoc]
    refine congrArg (ids.flatMap ·) (funext fun i => ?_)
    unfold predsOf
    cases g.node? i <;> simp
  have hnodup : (ids.filterMap g.node?).Nodup := by
    refine h.filterMap fun i j n hi hj => ?_
    rw [← hg.uid_node hi, hg.uid_node hj]
  have hsubset : ids.filterMap g.node? ⊆ g.nodes.toList := by
    intro n hn
    obtain ⟨i, -, hi⟩ := List.mem_filterMap.mp hn
    exact mem_nodes_iff.mpr ⟨i, hi⟩
  obtain ⟨nodes, hperm, hsub⟩ := hnodup.subperm hsubset
  calc (ids.flatMap g.predsOf).length
      = (nodes.flatMap (·.predecessors)).length := by
        rw [hnodes, (hperm.flatMap_right _).length_eq]
    _ ≤ (g.nodes.toList.flatMap (·.predecessors)).length := (hsub.flatMap _).length_le
    _ ≤ g.entryCount := (List.Sublist.flatMap_right _ fun n _ => eraseDups_sublist _).length_le

/-- As long as the queue is not empty, all that was put on it is still there or was taken off. -/
theorem add_length_queue (h : (g.frontier uid k).queue ≠ []) :
    k + (g.frontier uid k).queue.length =
      ((uid :: (g.frontier uid k).visited).flatMap g.predsOf).length := by
  induction k with
  | zero => simp [frontier]
  | succ k ih =>
    have hsucc : g.frontier uid (k + 1) = (g.frontier uid k).dequeue g :=
      Function.iterate_succ_apply' _ _ _
    rw [hsucc] at h ⊢
    cases hqueue : (g.frontier uid k).queue with
    | nil =>
      rw [Frontier.dequeue] at h
      simp [hqueue] at h
    | cons a rest =>
      have hk := ih (by simp [hqueue])
      rw [Frontier.dequeue]
      simp only [hqueue]
      rw [hqueue, List.length_cons] at hk
      split_ifs
      · dsimp only
        omega
      · simp only [List.flatMap_cons, List.length_append] at hk ⊢
        omega

/-- A limit that all entries are within does not stop the search. -/
theorem queue_eq_nil_of_entryCount_le (hg : g.Causal) (h : g.entryCount ≤ k) :
    (g.frontier uid k).queue = [] := by
  by_contra hqueue
  obtain ⟨d, now, later, hlevels⟩ := Levels.frontier g uid k
  have hnew : uid ∉ (g.frontier uid k).visited := by
    intro hmem
    obtain ⟨j, hj⟩ := hlevels.reached uid hmem
    exact hg.ne_of_stepsBack hj rfl
  have hcount := add_length_queue hqueue
  have hle := length_flatMap_predsOf_le hg.formed (List.nodup_cons.mpr ⟨hnew, hlevels.nodup⟩)
  have hpos := List.length_pos_iff.mpr hqueue
  omega

end Limit

end OperandFlow.Graph

namespace OperandFlow.Analysis

/-- Whatever was done before, the search for an ancestor with an opcode gives a nearest one if it
gives any, and none only if no steps lead to one. It fails only when the queue is not empty after as
many dequeues as the limit allows, which does not happen if all entries are within the limit. -/
theorem ancestor_nearest (host : Host) (actions : List Action) (uid : NodeId) (opcode : Opcode) :
    let s := (start host).performAll actions
    uid < s.graph.size →
      (∀ a, (s.ancestor? uid opcode).1 = .ok (some a) → ∃ d, s.graph.Nearest uid opcode a d) ∧
      ((s.ancestor? uid opcode).1 = .ok none →
        ∀ d b, s.graph.StepsBack uid d b → ¬ s.graph.Executes opcode b) ∧
      (∀ e, (s.ancestor? uid opcode).1 = .error e →
        e = .searchExhausted uid host.options.reach ∧
          (s.graph.frontier uid host.options.reach).queue ≠ [] ∧
          (s.graph.frontier uid host.options.reach).Clear s.graph opcode) ∧
      (s.graph.entryCount ≤ host.options.reach → ∃ r, (s.ancestor? uid opcode).1 = .ok r) := by
  intro s huid
  have hhost : s.host.options.reach = host.options.reach :=
    congrArg (·.options.reach) ((start host).host_performAll actions)
  have hcausal := (consistent_performAll host actions).causal
  obtain ⟨n, hn⟩ := Graph.exists_node?_of_lt huid
  rw [show (s.ancestor? uid opcode).1 = (s.graph.ancestor? s.host uid opcode).value from rfl]
  rcases Graph.ancestor?_cases hn s.host opcode hhost with
    ⟨a, hends, hanswer⟩ | ⟨hends, hanswer⟩ | ⟨hends, hanswer⟩
  · rw [hanswer]
    cases hends with
    | @found k _ rest _ hclear hqueue ha =>
      obtain ⟨d, now, later, hlevels⟩ := Graph.Levels.frontier s.graph uid k
      obtain ⟨d, now, later, hlevels⟩ := hlevels.exists_head hqueue
      refine ⟨?_, nofun, nofun, fun _ => ⟨_, rfl⟩⟩
      rintro a ⟨⟩
      exact ⟨d, hlevels.nearest hclear ha⟩
  · rw [hanswer]
    cases hends with
    | @absent k _ hclear hqueue =>
      obtain ⟨d, now, later, hlevels⟩ := Graph.Levels.frontier s.graph uid k
      refine ⟨nofun, ?_, nofun, fun _ => ⟨_, rfl⟩⟩
      intro _ j b hb
      exact hclear b (hlevels.mem_visited hqueue hb)
  · rw [hanswer]
    cases hends with
    | exhausted hclear hqueue =>
      refine ⟨nofun, nofun, ?_, ?_⟩
      · rintro e ⟨⟩
        exact ⟨rfl, hqueue, hclear⟩
      · intro hle
        exact absurd (Graph.queue_eq_nil_of_entryCount_le hcausal hle) hqueue

/-- The sum of two loads goes back to the caller, and to no hash. -/
theorem ancestor_nearest_sumOfLoads :
    let s := (start ⟨{}, .text, 0⟩).performAll sumOfLoads
    7 < s.graph.size ∧ s.graph.entryCount ≤ 20000 ∧
      (s.ancestor? 7 .caller).1 = .ok (some 2) ∧ (∃ d, s.graph.Nearest 7 .caller 2 d) ∧
      (s.ancestor? 7 .sha3).1 = .ok none ∧
      ∀ d b, s.graph.StepsBack 7 d b → ¬ s.graph.Executes .sha3 b := by
  intro s
  have hsize : 7 < s.graph.size := by decide +kernel
  have hcount : s.graph.entryCount ≤ 20000 := by decide +kernel
  have hcaller : (s.ancestor? 7 .caller).1 = .ok (some 2) := by decide +kernel
  have hhash : (s.ancestor? 7 .sha3).1 = .ok none := by decide +kernel
  obtain ⟨hnearest, -⟩ := ancestor_nearest ⟨{}, .text, 0⟩ sumOfLoads 7 .caller hsize
  obtain ⟨-, hnone, -⟩ := ancestor_nearest ⟨{}, .text, 0⟩ sumOfLoads 7 .sha3 hsize
  exact ⟨hsize, hcount, hcaller, hnearest 2 hcaller, hhash, hnone hhash⟩

end OperandFlow.Analysis
