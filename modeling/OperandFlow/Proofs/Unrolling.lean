import OperandFlow.Proofs.Events
import OperandFlow.Proofs.Graph.Bounds
import OperandFlow.Proofs.Graph.Unrolling
import OperandFlow.Proofs.Runs

/-! A loop is found in every session that traces it, from the turn on that goes over the
threshold. -/
namespace OperandFlow

/-- An instruction of a call is announced. -/
structure PreEvent.Announces (e : PreEvent) (function : String) (tx : UInt64) (opcode : Opcode) :
    Prop where
  function : e.function = function
  tx : e.tx = tx
  opcode : Opcode.ofMnemonic? e.opcode = some opcode

/-- A conditional jump, and the destination where the execution goes on. -/
structure Turn where
  jump : PreEvent
  jumpState : Option String
  dest : PreEvent
  destState : Option String

def Turn.actions (t : Turn) : List Action := [.pre t.jump t.jumpState, .pre t.dest t.destState]

/-- The jump goes to the destination, on a condition that is known. -/
structure Turn.Enters (t : Turn) (function : String) (tx target : UInt64) : Prop where
  jump : t.jump.Announces function tx .jumpi
  destination : t.jump.operands.head?.bind Value.concrete? = some target.toNat
  condition : ∃ condition, t.jump.operands[1]? = some condition ∧ condition.isEmpty = false
  dest : t.dest.Announces function tx .jumpdest
  address : t.dest.address = target

theorem Value.isEmpty_of_concrete? {v : Value} {k : Nat} (h : v.concrete? = some k) :
    v.isEmpty = false := by
  rw [← Bool.not_eq_true]
  intro hempty
  have hnil : v.trimmed = [] := List.isEmpty_iff.mp hempty
  rw [concrete?, hnil] at h
  cases h

theorem PreEvent.Announces.directs {e : PreEvent} {function : String} {tx : UInt64}
    {opcode : Opcode} (h : e.Announces function tx opcode) (state : Option String)
    (hreports : opcode.reportsOperands = true) (hcategory : opcode.category = .controlFlow)
    (hplain : opcode.isCall = false) (hresult : opcode.reportsResult = false)
    (hcomplete : opcode.required ≤ (e.operands.takeWhile fun v => !v.isEmpty).length) :
    ∃ a, e.arrival? state = some a ∧ a.Directs function tx ∧ a.opcode = opcode ∧
      a.address = e.address ∧ a.operands = e.operands := by
  unfold arrival?
  rw [h.opcode, Option.filter_some_pos hreports, Option.map_some]
  refine ⟨_, rfl, ⟨h.function, h.tx, hcategory, hplain, hresult, fun uid => ?_⟩, rfl, rfl, rfl⟩
  rw [Arrival.missing?]
  exact if_neg (Nat.not_lt.mpr hcomplete)

namespace Turn

variable {t : Turn} {function : String} {tx target : UInt64}

theorem Enters.required (h : t.Enters function tx target) :
    Opcode.jumpi.required ≤ (t.jump.operands.takeWhile fun v => !v.isEmpty).length := by
  obtain ⟨condition, hcondition, hknown⟩ := h.condition
  have htarget := h.destination
  rcases hoperands : t.jump.operands with _ | ⟨v, _ | ⟨w, rest⟩⟩
  · simp [hoperands] at hcondition
  · simp [hoperands] at hcondition
  · rw [hoperands] at hcondition htarget
    obtain rfl : w = condition := Option.some.inj hcondition
    simp [Value.isEmpty_of_concrete? htarget, hknown, Opcode.required]

end Turn

namespace Graph

variable {host : Host} {g : Graph} {function : String} {tx target : UInt64}

theorem OnlyTurns.follow {jumps : List UInt64} {t : Turn}
    (h : g.OnlyTurns function tx target jumps) (ht : t.Enters function tx target)
    (haddress : jumps = [] ∨ target ≤ t.jump.address) (hreach : 1 ≤ host.options.reach) :
    (g.followAll host t.actions).OnlyTurns function tx target (jumps ++ [t.jump.address]) := by
  obtain ⟨jump, hjump, hdirects, hjumpi, hat, hoperands⟩ :=
    ht.jump.directs t.jumpState rfl rfl rfl rfl ht.required
  obtain ⟨dest, hdest, hdirects', hjumpdest, hat', -⟩ :=
    ht.dest.directs t.destState rfl rfl rfl rfl (Nat.zero_le _)
  have hturn := h.turn hdirects hjumpi (hoperands ▸ ht.destination) (hat ▸ haddress) hdirects'
    hjumpdest (hat'.trans ht.address) hreach
  rw [hat] at hturn
  simpa [followAll, Turn.actions, Graph.follow, hjump, hdest] using hturn

theorem onlyTurns_followAll (turns : List Turn) (hreach : 1 ≤ host.options.reach)
    (h : ∀ t ∈ turns, t.Enters function tx target)
    (hback : ∀ t ∈ turns.tail, target ≤ t.jump.address) :
    ((empty.withFunction host.options function).value.1.followAll host
      (turns.flatMap Turn.actions)).OnlyTurns function tx target
        (turns.map fun t => t.jump.address) := by
  -- by induction from the end, as each turn comes on top of those before it
  induction turns using List.reverseRecOn with
  | nil => exact onlyTurns_withFunction host.options function tx target
  | append_singleton turns t ih =>
    have hsub : ∀ u ∈ turns.tail, u ∈ (turns ++ [t]).tail := by
      intro u hu
      cases turns with
      | nil => cases hu
      | cons first rest => exact List.mem_append_left [t] hu
    have hlast : turns.map (fun t => t.jump.address) = [] ∨ target ≤ t.jump.address := by
      cases turns with
      | nil => exact Or.inl rfl
      | cons first rest => exact Or.inr (hback t (List.mem_append_right rest List.mem_cons_self))
    have hturns := ih (fun u hu => h u (List.mem_append_left _ hu)) fun u hu => hback u (hsub u hu)
    have ht := h t (List.mem_append_right turns List.mem_cons_self)
    rw [List.flatMap_append, followAll_append, List.map_append, List.flatMap_singleton]
    exact hturns.follow ht hlast hreach

end Graph

namespace Analysis

open OperandFlow.Graph

theorem halted_performAll {host : Host} (hreach : 1 ≤ host.options.reach) {function : String}
    {tx target : UInt64} {first : Turn} {turns : List Turn} {stop : PreEvent}
    (state : Option String) (hfirst : first.Enters function tx target)
    (hturns : ∀ t ∈ turns, t.Enters function tx target ∧ target ≤ t.jump.address)
    (hstop : stop.Announces function tx .stop) (hend : target ≤ stop.address) :
    ((start host).performAll
      ((first :: turns).flatMap Turn.actions ++ [.pre stop state])).graph.Halted function tx target
        ((first :: turns).map fun t => t.jump.address) stop.address := by
  have hevents : ∀ action ∈ (first :: turns).flatMap Turn.actions ++ [.pre stop state],
      action.isEvent = true := by
    intro action haction
    rw [List.mem_append, List.mem_flatMap, List.mem_singleton] at haction
    rcases haction with ⟨t, -, ht⟩ | rfl
    · simp only [Turn.actions, List.mem_cons, List.not_mem_nil, or_false] at ht
      rcases ht with rfl | rfl <;> rfl
    · rfl
  have hopened : empty.followAll host ((first :: turns).flatMap Turn.actions) =
      (empty.withFunction host.options function).value.1.followAll host
        ((first :: turns).flatMap Turn.actions) := by
    obtain ⟨a, ha, hdirects, -⟩ :=
      hfirst.jump.directs first.jumpState rfl rfl rfl rfl hfirst.required
    have hadded := added_withFunction host a
    rw [hdirects.function] at hadded
    simp [followAll, Turn.actions, Graph.follow, ha, hadded]
  have honly := onlyTurns_followAll (first :: turns) hreach
    (List.forall_mem_cons.mpr ⟨hfirst, fun t ht => (hturns t ht).1⟩) fun t ht => (hturns t ht).2
  obtain ⟨a, ha, hdirects, hopcode, hat, -⟩ := hstop.directs state rfl rfl rfl rfl (Nat.zero_le _)
  rw [graph_performAll (start host) hevents, followAll_append, followAll_singleton, start, hopened,
    follow_pre, ha, Option.elim_some, ← hat]
  exact honly.halt host hdirects hopcode (Or.inr (hat ▸ hend))

/-- A loop of any number of turns is traced, each jump back at the target or behind it, and then a
halt. All nodes stay live, the chain of the halt goes through every turn, and a loop is found if and
only if there are more turns than the threshold. It spans all of them, and it is the only one. -/
theorem unrolled_loop_found (host : Host) (hreach : 1 ≤ host.options.reach) (function : String)
    (tx target : UInt64) (first : Turn) (turns : List Turn) (stop : PreEvent)
    (state : Option String) (hfirst : first.Enters function tx target)
    (hturns : ∀ t ∈ turns, t.Enters function tx target ∧ target ≤ t.jump.address)
    (hstop : stop.Announces function tx .stop) (hend : target ≤ stop.address) :
    let n := turns.length
    let s := (start host).performAll ((first :: turns).flatMap Turn.actions ++ [.pre stop state])
    let chain := 0 :: List.range' 2 (2 * n + 2)
    let span := if host.options.loopThreshold < n + 1 then some (2, 2 * n + 3) else none
    s.graph.size = 2 * n + 5 ∧ (∀ i m, s.graph.node? i = some m → m.isDeleted = false) ∧
      (∀ (j : Nat) (t : Turn), (first :: turns)[j]? = some t → ∃ jump dest,
        s.graph.node? (2 * j + 2) = some jump ∧ jump.is .jumpi = true ∧
          jump.address = t.jump.address ∧
        s.graph.node? (2 * j + 3) = some dest ∧ dest.is .jumpdest = true ∧
          dest.address = target) ∧
      (∃ m, s.graph.node? (2 * n + 4) = some m ∧ m.is .stop = true ∧ m.address = stop.address) ∧
      s.graph.leaderChain (2 * n + 4) = .ok chain ∧ s.loopBounds? chain = some span ∧
      s.repetitions? = .ok [⟨function, 2 * n + 4, chain, span⟩] ∧
      s.repetitions = [⟨function, 2 * n + 4, chain, span⟩] := by
  intro n s chain span
  have h : s.graph.Halted function tx target ((first :: turns).map fun t => t.jump.address)
    stop.address := halted_performAll hreach state hfirst hturns hstop hend
  have hhost : s.host = host := host_performAll _ _
  have hlength : ((first :: turns).map fun t => t.jump.address).length = n + 1 := by simp [n]
  have hchain := h.leaderChain
  have hbounds := h.loopBounds host.options.loopThreshold
  have hterminals := h.terminals
  have hhalt := h.halt
  rw [hlength, show 2 * (n + 1) = 2 * n + 2 by omega] at hchain hbounds hterminals hhalt
  have hfound : s.repetitions? = .ok [⟨function, 2 * n + 4, chain, span⟩] := by
    have hformed : Formed s.graph.outlines := (consistent_performAll host _).causal.formed
    rw [repetitions?, hhost, Graph.repetitions_ok hformed, h.functions, List.flatMap_singleton,
      hterminals, List.map_singleton, hchain, Except.toOption, Option.getD_some]
    dsimp only
    rw [hbounds]
    rfl
  refine ⟨?_, ?_, ?_, ?_, hchain, ?_, hfound, ?_⟩
  · rw [h.size, hlength]
    omega
  · intro i m hm
    rcases h.node_cases hm with ⟨-, hlive, -⟩ | ⟨x, hx, -⟩
    · exact hlive
    · exact hx.live
  · intro j t ht
    obtain ⟨jump, hjump, hjumpi, -⟩ := h.jump j t.jump.address (by rw [List.getElem?_map, ht]; rfl)
    obtain ⟨dest, hdest, hjumpdest, -⟩ := h.dest j
      (by rw [List.length_map]; exact (List.getElem?_eq_some_iff.mp ht).1)
    exact ⟨jump, dest, hjump, by simp [hjumpi.is], hjumpi.address, hdest, by simp [hjumpdest.is],
      hjumpdest.address⟩
  · obtain ⟨m, hm, hfor, -⟩ := hhalt
    exact ⟨m, hm, by simp [hfor.is], hfor.address⟩
  · rw [loopBounds?, hhost]
    exact hbounds
  · rw [repetitions, hfound]
    rfl

/-- A turn of a loop from 8 on. -/
def turnFrom (address : UInt64) : Turn :=
  ⟨⟨"f", 0, "JUMPI", address, [⟨256, "8"⟩, ⟨256, "less"⟩], none, none⟩, none,
    ⟨"f", 0, "JUMPDEST", 8, [], none, none⟩, none⟩

/-- The loop is entered from before it, and two jumps back are one too many. -/
theorem unrolled_loop_found_thrice :
    (turnFrom 4).Enters "f" 0 8 ∧
      (∀ t ∈ [turnFrom 12, turnFrom 12], t.Enters "f" 0 8 ∧ 8 ≤ t.jump.address) ∧
      ((start ⟨{}, .text, 0⟩).performAll
        ([turnFrom 4, turnFrom 12, turnFrom 12].flatMap Turn.actions ++
          [.pre ⟨"f", 0, "STOP", 9, [], none, none⟩ none])).repetitions? =
        .ok [⟨"f", 8, [0, 2, 3, 4, 5, 6, 7], some (2, 7)⟩] := by
  have henters : ∀ address, (turnFrom address).Enters "f" 0 8 := by
    have hjump : Opcode.ofMnemonic? "JUMPI" = some .jumpi := by decide +kernel
    have htarget : (⟨256, "8"⟩ : Value).concrete? = some 8 := by decide +kernel
    have hcondition : (⟨256, "less"⟩ : Value).isEmpty = false := by decide +kernel
    have hdest : Opcode.ofMnemonic? "JUMPDEST" = some .jumpdest := by decide +kernel
    exact fun address => ⟨⟨rfl, rfl, hjump⟩, htarget, ⟨_, rfl, hcondition⟩, ⟨rfl, rfl, hdest⟩, rfl⟩
  have hback : ∀ t ∈ [turnFrom 12, turnFrom 12], t.Enters "f" 0 8 ∧ 8 ≤ t.jump.address := by
    intro t ht
    obtain rfl : t = turnFrom 12 := by simpa using ht
    exact ⟨henters 12, by decide⟩
  have hstop : PreEvent.Announces ⟨"f", 0, "STOP", 9, [], none, none⟩ "f" 0 .stop :=
    ⟨rfl, rfl, by decide +kernel⟩
  obtain ⟨-, -, -, -, -, -, hloops, -⟩ := unrolled_loop_found ⟨{}, .text, 0⟩ (by decide) "f" 0 8
    (turnFrom 4) [turnFrom 12, turnFrom 12] ⟨"f", 0, "STOP", 9, [], none, none⟩ none (henters 4)
    hback hstop (by decide)
  exact ⟨henters 4, hback, hloops⟩

end Analysis
end OperandFlow
