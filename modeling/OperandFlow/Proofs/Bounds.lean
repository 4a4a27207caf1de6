import OperandFlow.Proofs.Arena.Refinement

/-! Every look-up of a session is in bounds. -/
namespace OperandFlow

open OperandFlow.Graph

/-- A jump to a destination, and a read of storage that arrives under a category of its own and is
removed. One call names a node that is not there. -/
def jumpAndRead : List Call :=
  [.action (.add ⟨"f", 0, .jumpi, 0, .unknown, [⟨256, "4"⟩, ⟨256, "c"⟩], none, none, none⟩),
    .action (.add ⟨"f", 0, .jumpdest, 4, .unknown, [], none, none, none⟩),
    .action (.add ⟨"f", 0, .sload, 5, .dataFlow, [⟨256, "k"⟩], none, none, none⟩),
    .action (.findEdges 9), .action (.remove 4)]

namespace Analysis

/-- Calls that do not start over keep every node. -/
theorem sound_run_of_kept {s : Analysis} (hs : s.graph.Sound) {calls : List Call}
    (hkept : ∀ c ∈ calls, c ≠ .action .reset) :
    (s.run calls).2.graph.Sound ∧ s.graph.Extends (s.run calls).2.graph := by
  induction calls generalizing s with
  | nil => exact ⟨hs, .refl s.graph⟩
  | cons c calls ih =>
    obtain ⟨hc, hrest⟩ := List.forall_mem_cons.mp hkept
    cases c with
    | action a =>
      have hreset : a ≠ .reset := fun h => hc (h ▸ rfl)
      have hbecomes := becomes_perform hs.consistent.causal hreset
      rw [← act_eq_perform] at hbecomes
      obtain ⟨hsound, hext⟩ := ih (hs.becomes hbecomes) hrest
      exact ⟨hsound, (hs.consistent.becomes hbecomes).2.trans hext⟩
    | query q =>
      have hgraph := s.graph_ask q
      obtain ⟨hsound, hext⟩ := ih (hgraph ▸ hs : (s.ask q).2.graph.Sound) hrest
      exact ⟨hsound, hgraph ▸ hext⟩

/-- After any calls an arena finds all that it looks for, whatever is called next and with whatever
arguments: it gives the answer that the analysis gives, which may be an error. Chains of leaders can
be followed that were given at any time since it last started over. -/
theorem lookups_in_bounds (host : Host) (calls : List Call) {later : List Call}
    (hkept : ∀ c ∈ later, c ≠ .action .reset) :
    let s := (start host).run calls
    let t := s.2.run later
    ∃ given st : Arena, Arena.run calls (.start host) = some (s.1, given) ∧
      given.Represents s.2 ∧ Arena.run later given = some (t.1, st) ∧ st.Represents t.2 ∧
      (∀ c, ∃ st', Arena.call c st = some ((t.2.call c).1, st')) ∧
      ∀ uid chain given', Arena.leaderChain uid given = some (.ok chain, given') →
        (∃ leaders, Arena.trail chain st = some (leaders, st)) ∧
          ∃ span, Arena.loopBounds chain st = some (span, st) := by
  intro s t
  have hs : s.2.graph.Sound := sound_run host calls
  obtain ⟨ht, hext⟩ := sound_run_of_kept hs hkept
  obtain ⟨given, hcalls, hgiven⟩ :=
    Arena.Follows.run sound_empty calls (.start host) (Arena.represents_start host)
  obtain ⟨st, hlater, hst⟩ := Arena.Follows.run hs later given hgiven
  refine ⟨given, st, hcalls, hgiven, hlater, hst, fun c => ?_, fun uid chain given' hchain => ?_⟩
  · obtain ⟨st', hcall, -⟩ := Arena.Follows.call ht c st hst
    exact ⟨st', hcall⟩
  · obtain ⟨_, hrun, -⟩ := Arena.Meets.leaderChain hs uid given hgiven.holds
    have hvalue : s.2.graph.leaderChain uid = .ok chain :=
      congrArg Prod.fst (Option.some.inj (hrun.symm.trans hchain))
    have hthere : ∀ i ∈ chain, i < t.2.graph.size := fun i hi =>
      Nat.lt_of_lt_of_le (lt_size_of_mem_leaderChain hs hvalue i hi) hext.size_le
    obtain ⟨leaders, hleaders⟩ := exists_trail hthere
    obtain ⟨span, hspan⟩ := exists_loopBounds hthere t.2.host.options.loopThreshold
    exact ⟨⟨leaders, by rw [hst.holds.trail ht, hleaders, Option.map_some]⟩,
      ⟨span, by rw [hst.holds.loopBounds, hspan, Option.map_some]⟩⟩

/-- A chain that was given before the jump was removed. -/
theorem lookups_in_bounds_jumpAndRead :
    let later := [Call.action (.remove 2)]
    (∀ c ∈ later, c ≠ .action .reset) ∧
      ∃ answers answers' given given' st st',
        Arena.run jumpAndRead (.start ⟨{}, .text, 0⟩) = some (answers, given) ∧
        Arena.run later given = some (answers', st) ∧
        Arena.leaderChain 3 given = some (.ok [0, 2, 3], given') ∧
        Arena.trail [0, 2, 3] st = some ([0, 2, 3], st) ∧
        Arena.act (.findEdges 9) st = some (.error (.unknownNode 9), st') := by
  intro later
  have hkept : ∀ c ∈ later, c ≠ .action .reset := by simp [later]
  have hs := sound_run ⟨{}, .text, 0⟩ jumpAndRead
  have ht := (sound_run_of_kept hs hkept).1
  have hchain : ((start ⟨{}, .text, 0⟩).run jumpAndRead).2.graph.leaderChain 3 =
      .ok [0, 2, 3] := by decide +kernel
  have htrail : (((start ⟨{}, .text, 0⟩).run jumpAndRead).2.run later).2.graph.trail? [0, 2, 3] =
      some [0, 2, 3] := by decide +kernel
  have hnone : (((start ⟨{}, .text, 0⟩).run jumpAndRead).2.run later).2.graph.node? 9 = none := by
    decide +kernel
  obtain ⟨given, st, hcalls, hgiven, hlater, hst, hnext, hfollow⟩ :=
    lookups_in_bounds ⟨{}, .text, 0⟩ jumpAndRead hkept
  generalize (start ⟨{}, .text, 0⟩).run jumpAndRead = s at *
  generalize s.2.run later = t at *
  obtain ⟨given', hrun, -⟩ := Arena.Meets.leaderChain hs 3 given hgiven.holds
  rw [hchain] at hrun
  obtain ⟨⟨leaders, hleaders⟩, -⟩ := hfollow 3 [0, 2, 3] given' hrun
  have hsame := hst.holds.trail ht [0, 2, 3]
  rw [hleaders, htrail] at hsame
  cases hsame
  obtain ⟨st', hfind⟩ := hnext (.action (.findEdges 9))
  have hanswer : (t.2.call (.action (.findEdges 9))).1 = .error (.unknownNode 9) := by
    simp [call, act, findEdges, change, Graph.findEdges, hnone]
  rw [hanswer] at hfind
  exact ⟨hkept, s.1, t.1, given, given', st, st', hcalls, hlater, hrun, hleaders, hfind⟩

end Analysis
end OperandFlow
