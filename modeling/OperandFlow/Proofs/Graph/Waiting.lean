import OperandFlow.Proofs.Events

/-! Which calls of a function wait for which results, told from the events alone. -/
namespace OperandFlow

/-- The call and the opcode of an instruction of the function. -/
def Outline.wait? (function : String) (o : Outline) : Option (UInt64 × Opcode) :=
  if o.function = function then o.instruction.map fun x => (x.tx, x.opcode) else none

theorem Outline.wait?_eq_some_iff {function : String} {o : Outline} {x : UInt64 × Opcode} :
    o.wait? function = some x ↔
      o.function = function ∧ ∃ y, o.instruction = some y ∧ (y.tx, y.opcode) = x := by
  unfold wait?
  split_ifs with hfun <;> simp [hfun]

theorem Node.wait?_outline {n : Node} {function : String} {tx : UInt64} {opcode : Opcode}
    (hfun : n.function = function) (htx : n.tx? = some tx) (hop : n.is opcode = true) :
    n.outline.wait? function = some (tx, opcode) := by
  obtain ⟨y, hy, rfl⟩ := Option.map_eq_some_iff.mp htx
  have hop : n.instruction.map (·.opcode) = some opcode := of_decide_eq_true hop
  rw [hy] at hop
  exact Outline.wait?_eq_some_iff.mpr ⟨hfun, y, hy, congrArg (y.tx, ·) (Option.some.inj hop)⟩

namespace Action

/-- A call of the function executes an instruction or got its result. -/
def isOf (function : String) (tx : UInt64) : Action → Bool
  | pre e _ => e.function = function && e.tx = tx
  | post e _ => e.function = function
  | _ => false

/-- Who waits for what after an event of a call. The call ends its last wait when it goes on. -/
def waits (tx : UInt64) (waiting : List (UInt64 × Opcode)) : Action → List (UInt64 × Opcode)
  | pre e state => (e.arrival? state).elim waiting fun a =>
      waiting.filter (·.1 ≠ tx) ++ if a.isDeferred a.opcode.category 0 then [(tx, a.opcode)] else []
  | post e _ => e.opcode?.elim waiting fun o => waiting.filter (· ≠ (tx, o))
  | _ => waiting

/-- If any call waits for the result of such an instruction, the one that has waited least is the
call that got it. -/
def inTurn (tx : UInt64) (waiting : List (UInt64 × Opcode)) : Action → Bool
  | post e _ => e.opcode?.all fun o => (waiting.filter (·.2 = o)).getLast?.all (·.1 = tx)
  | _ => true

end Action

namespace Graph

/-- Who waits for what in a function, in the order of arrival. -/
def waits (g : Graph) (function : String) : List (UInt64 × Opcode) :=
  g.pending.filterMap fun i => g.outlines[i]?.bind (·.wait? function)

variable {host : Host} {g g' : Graph} {function : String} {opcode : Opcode} {tx : UInt64}

theorem waits_congr (hpend : g'.pending = g.pending)
    (hout : ∀ i ∈ g.pending, g'.outlines[i]? = g.outlines[i]?) :
    g'.waits function = g.waits function := by
  unfold waits
  rw [hpend]
  exact List.filterMap_congr fun i hi => by rw [hout i hi]

/-- Some nodes wait no longer. -/
theorem waits_of_filter {p : NodeId → Bool} {q : UInt64 × Opcode → Bool}
    (hout : g'.outlines = g.outlines) (hpend : g'.pending = g.pending.filter p)
    (hpq : ∀ i ∈ g.pending, ∀ o x, g.outlines[i]? = some o → o.wait? function = some x →
      p i = q x) : g'.waits function = (g.waits function).filter q := by
  unfold waits
  rw [hout, hpend, List.filterMap_filter, List.filter_filterMap]
  apply List.filterMap_congr
  intro i hi
  cases hx : g.outlines[i]?.bind (·.wait? function) with
  | none => simp
  | some x =>
    obtain ⟨o, ho, hx⟩ := Option.bind_eq_some_iff.mp hx
    rw [hpq i hi o x ho hx]
    rfl

/-- In each call at most one instruction waits. -/
theorem Coherent.eq_of_wait? (hg : g.Coherent) {i j : NodeId} {o p : Outline} {x y : UInt64 × Opcode}
    (hi : i ∈ g.pending) (hj : j ∈ g.pending) (ho : g.outlines[i]? = some o)
    (hp : g.outlines[j]? = some p) (hx : o.wait? function = some x) (hy : p.wait? function = some y)
    (htx : x.1 = y.1) : i = j := by
  -- The earlier of two would precede the later one, which nothing that waits does.
  have hlast : ∀ {i j : NodeId} {o p : Outline} {x y : UInt64 × Opcode}, i ∈ g.pending →
      g.outlines[i]? = some o → g.outlines[j]? = some p → o.wait? function = some x →
      p.wait? function = some y → x.1 = y.1 → j ≤ i := by
    intro i j o p x y hi ho hp hx hy htx
    obtain ⟨hfun, z, hz, rfl⟩ := Outline.wait?_eq_some_iff.mp hx
    obtain ⟨hfun', z', hz', rfl⟩ := Outline.wait?_eq_some_iff.mp hy
    apply Nat.le_of_not_lt
    intro hlt
    apply hg.paced.last hi
    refine ⟨hlt, o, p, ho, hp, hfun.trans hfun'.symm, ?_, by simp [hz'], Or.inr ?_⟩
    · by_contra hexit
      have hbare := (hg.causal.formed.bare_iff ho).mpr (Or.inr (by simpa using hexit))
      rw [hz] at hbare
      cases hbare
    · rw [Outline.tx?, Outline.tx?, hz, hz']
      exact congrArg some htx
  exact Nat.le_antisymm (hlast hj hp ho hy hx htx.symm) (hlast hi ho hp hx hy htx)

theorem waits_flushWhere (host : Host) (hg : g.Coherent) :
    (g.flushWhere host fun n => n.function = function && n.tx? = some tx).value.waits function =
      (g.waits function).filter (·.1 ≠ tx) := by
  have hformed := hg.causal.formed
  apply waits_of_filter (outlines_flushWhere host _ hformed) (pending_flushWhere host _ hformed)
  intro i hi o x ho hx
  obtain ⟨n, hn, rfl⟩ := node?_of_outlines ho
  obtain ⟨hfun, y, hy, rfl⟩ := Outline.wait?_eq_some_iff.mp hx
  have hfun : n.function = function := hfun
  have htx : n.tx? = some y.tx := congrArg (Option.map Instruction.tx) hy
  simp [pendingWhere, hi, hn, hfun, htx]

theorem waits_arrive {n : Node} (exit : NodeId) (hg : g.Coherent) (huid : n.uid = g.size) :
    (g.arrive n exit).waits function =
      g.waits function ++ if n.awaiting then (n.outline.wait? function).toList else [] := by
  have hpend : (g.arrive n exit).pending = g.pending ++ if n.awaiting then [n.uid] else [] := rfl
  unfold waits
  rw [outlines_arrive, hpend, List.filterMap_append]
  congr 1
  · apply List.filterMap_congr
    intro i hi
    rw [Array.getElem?_push, if_neg (size_outlines g ▸ Nat.ne_of_lt (hg.paced.lt_size hi))]
  · split_ifs
    · have hnew : (g.outlines.push n.outline)[n.uid]? = some n.outline := by
        rw [huid, ← size_outlines g, Array.getElem?_push_size]
      cases hwait : n.outline.wait? function <;> simp [hnew, hwait]
    · rfl

theorem waits_readyFor (h : g.Coherent) (a : Arrival) :
    (g.readyFor host a).1.waits a.function = (g.waits a.function).filter (·.1 ≠ a.tx) := by
  rw [← waits_flushWhere host h]
  apply waits_congr (pending_withFunction _ _ _)
  intro i hi
  exact (Touches.withFunction host.options a.function).outlines i
    (size_outlines _ ▸ (h.flushWhere host _).paced.lt_size hi)

theorem waits_added {a : Arrival} (h : g.Steady host) (ha : a.category = .unknown) :
    (g.added host a).waits a.function = (g.waits a.function).filter (·.1 ≠ a.tx) ++
      if a.isDeferred a.opcode.category 0 then [(a.tx, a.opcode)] else [] := by
  have hdeferred : (g.newcomer host a).awaiting = a.isDeferred a.opcode.category 0 := by
    unfold Arrival.isDeferred
    rw [a.isNone_missing? 0 (g.readyFor host a).1.size]
    rfl
  have hwait : (g.newcomer host a).outline.wait? a.function = some (a.tx, a.opcode) := if_pos rfl
  rw [waits_congr (pending_added h ha) fun i _ => by rw [outlines_added h ha], joined,
    waits_arrive _ (h.readyFor a).coherent rfl, waits_readyFor h.coherent, hdeferred, hwait]
  rfl

theorem filter_waits (g : Graph) (function : String) (opcode : Opcode) :
    (g.waits function).filter (·.2 = opcode) =
      (g.pendingWhere fun n => n.function = function && n.is opcode).filterMap fun i =>
        g.outlines[i]?.bind (·.wait? function) := by
  unfold waits pendingWhere
  rw [List.filter_filterMap, List.filterMap_filter]
  apply List.filterMap_congr
  intro i _
  rw [getElem?_outlines]
  cases g.node? i with
  | none => rfl
  | some n =>
    by_cases hfun : n.function = function <;> cases hy : n.instruction <;>
      simp [Outline.wait?, Node.is, Node.opcode?, hfun, hy, Option.filter]

/-- The node that gets a result belongs to the call whose turn it is. -/
theorem tx?_of_awaiting? {uid : NodeId} {n : Node}
    (hturn : ((g.waits function).filter (·.2 = opcode)).getLast?.all (·.1 = tx) = true)
    (hwait : g.awaiting? function opcode = some uid) (hn : g.node? uid = some n) :
    n.tx? = some tx := by
  obtain ⟨-, m, hm, hfun, hop⟩ := of_awaiting? hwait
  cases hn.symm.trans hm
  have hopcode : n.opcode? = some opcode := of_decide_eq_true hop
  obtain ⟨y, hy, -⟩ := Option.map_eq_some_iff.mp hopcode
  have htx : n.tx? = some y.tx := congrArg (Option.map Instruction.tx) hy
  obtain ⟨uids, huids⟩ := List.getLast?_eq_some_iff.mp hwait
  rw [filter_waits, huids, List.filterMap_append] at hturn
  have hlast : y.tx = tx := by
    simpa [outlines_of_node? hn, Node.wait?_outline hfun htx hop] using hturn
  rw [htx, hlast]

theorem waits_completed (h : g.Steady host)
    (hturn : ((g.waits function).filter (·.2 = opcode)).getLast?.all (·.1 = tx) = true)
    (result : Value) (state : Option String) :
    (g.completed host function opcode result state).waits function =
      (g.waits function).filter (· ≠ (tx, opcode)) := by
  have hformed := h.coherent.causal.formed
  cases hwait : g.awaiting? function opcode with
  | none =>
    have hnil : (g.waits function).filter (·.2 = opcode) = [] := by
      rw [filter_waits, List.getLast?_eq_none_iff.mp hwait, List.filterMap_nil]
    rw [completed, hwait, eq_comm, List.filter_eq_self]
    intro x hx
    rw [decide_eq_true_eq]
    rintro rfl
    have hmem : (tx, opcode) ∈ (g.waits function).filter (·.2 = opcode) :=
      List.mem_filter.mpr ⟨hx, by simp⟩
    rw [hnil] at hmem
    cases hmem
  | some uid =>
    obtain ⟨huid, n, hn, hfun, hop⟩ := of_awaiting? hwait
    have hself := Node.wait?_outline hfun (tx?_of_awaiting? hturn hwait hn) hop
    apply waits_of_filter (outlines_completed host result state hformed)
      (pending_completed host result state hformed hwait)
    intro i hi o x ho hx
    rw [decide_eq_decide, not_iff_not]
    constructor
    · rintro rfl
      rw [outlines_of_node? hn] at ho
      cases ho
      exact Option.some.inj (hx.symm.trans hself)
    · rintro rfl
      exact h.coherent.eq_of_wait? hi huid ho (outlines_of_node? hn) hx hself rfl

/-- The events tell who waits, as long as results come in turn. -/
theorem waits_follow {action : Action} (h : g.Steady host)
    (hof : action.isOf function tx = true) (hturn : action.inTurn tx (g.waits function) = true) :
    (g.follow host action).waits function = action.waits tx (g.waits function) := by
  cases action with
  | pre e state =>
    have he : e.function = function ∧ e.tx = tx := by simpa [Action.isOf] using hof
    rw [follow_pre, Action.waits]
    cases harrival : e.arrival? state with
    | none => rfl
    | some a =>
      obtain ⟨hfun, htx⟩ := PreEvent.function_arrival? harrival
      have hadded := waits_added h (Analysis.category_arrival? harrival)
      rw [hfun, htx, he.1, he.2] at hadded
      exact hadded
  | post e state =>
    have he : e.function = function := of_decide_eq_true hof
    rw [follow_post, Action.waits, he]
    cases ho : e.opcode? with
    | none => rfl
    | some o =>
      rw [Action.inTurn, ho] at hturn
      exact waits_completed h hturn e.result state
  | _ => cases hof

end Graph
end OperandFlow
