import OperandFlow.Proofs.Anomalies

/-! In every session the operands of a settled instruction come from their newest producers, and a
storage read sees the newest write to its key. -/
namespace OperandFlow

namespace Analysis

/-- What an analysis keeps while the host reports to it. -/
def Sound (host : Host) (s : Analysis) : Prop :=
  s.Upholds host fun lacks g i => g.Accounts host lacks i

theorem sound_performAll (host : Host) {actions : List Action}
    (h : ∀ action ∈ actions, action.isReport = true) :
    ((start host).performAll actions).Sound host :=
  upholds_performAll (Graph.recorded_accounts host) h

/-- A settled instruction that lacks no operand is resolved. -/
theorem Sound.resolved {host : Host} {s : Analysis} (h : s.Sound host) {i : NodeId} {n : Node}
    (hn : s.graph.node? i = some n) (hinstr : n.instruction ≠ none) (hlive : n.isDeleted = false)
    (hwait : n.awaiting = false) (hlacks : s.lacksOperand i = false) :
    n.Resolved host (s.graph.candidates host.options.reach n) := by
  rcases (h.upheld i n hn hinstr hlive).2 hwait with hlacks' | hres
  · cases hlacks.symm.trans hlacks'
  · exact hres

end Analysis

/-- A candidate is an earlier live node of the same call, in a block on the way. -/
theorem Graph.of_mem_candidates {g : Graph} (hg : Formed g.outlines) {n m : Node} {limit : Nat}
    (hm : m ∈ g.candidates limit n) :
    g.node? m.uid = some m ∧ m.uid < n.uid ∧ m.function = n.function ∧ m.tx? = n.tx? ∧
      ∃ l ∈ g.leadersTo n.uid, m.leader? = some l := by
  obtain ⟨hnode, hlt, hfun, htx, -, -⟩ := mem_liveBefore hg (List.mem_of_mem_filter hm)
  exact ⟨hnode, hlt, hfun.symm, htx.symm, leader_of_mem_candidates hm⟩

/-- What supplies an operand is a producer of it on the way. -/
theorem Slot.Supplied.of_mem {host : Host} {g : Graph} {n : Node} {s : Slot} {limit : Nat}
    {eligible : Node → Bool} (h : s.Supplied host ((g.candidates limit n).filter eligible))
    {c : NodeId} (hc : c ∈ s.preds) :
    ∃ m ∈ g.candidates limit n, m.uid = c ∧ (Graph.produces host s.datum m).value = true := by
  unfold Supplied at h
  split_ifs at h
  · obtain ⟨m, hm, huid, hproduces⟩ := h.mem hc
    exact ⟨m, List.mem_of_mem_filter hm, huid, hproduces⟩
  · rw [h] at hc
    cases hc

/-- A function asks for its caller twice, writes to one key twice and reads it. -/
def storeTwice : List Action :=
  [.pre ⟨"f", 0, "CALLER", 0, [], none, none⟩ none,
    .post ⟨"f", "CALLER", ⟨256, "caller"⟩⟩ none,
    .pre ⟨"f", 0, "CALLER", 1, [], none, none⟩ none,
    .post ⟨"f", "CALLER", ⟨256, "caller"⟩⟩ none,
    .pre ⟨"f", 0, "SSTORE", 2, [⟨256, "0"⟩, ⟨256, "caller"⟩], none, none⟩ none,
    .pre ⟨"f", 0, "SSTORE", 3, [⟨256, "0"⟩, ⟨256, "1"⟩], none, none⟩ none,
    .pre ⟨"f", 0, "SLOAD", 4, [⟨256, "0"⟩], none, none⟩ none,
    .post ⟨"f", "SLOAD", ⟨256, "loaded"⟩⟩ none]

namespace Analysis

/-- After any reports, an operand of a settled instruction is supplied by the newest node in reach
that produced it. No write to the storage supplies it, and nothing off the way to it. -/
theorem operands_from_newest (host : Host) (actions : List Action)
    (h : ∀ action ∈ actions, action.isReport = true) :
    let s := (start host).performAll actions
    ∀ i n, s.graph.node? i = some n → n.isDeleted = false → n.awaiting = false →
      s.lacksOperand i = false →
      (n.is .sstore = true ∨ n.is .sload = true → n.slots.length = 2) ∧
      ∀ slot eligible, n.Operand slot eligible →
        slot.Supplied host ((s.graph.candidates host.options.reach n).filter eligible) ∧
        ∀ c ∈ slot.preds, ∃ m, s.graph.node? c = some m ∧ m.is .sstore = false ∧
          ∃ l ∈ s.graph.leadersTo i, m.leader? = some l := by
  intro s i n hn hlive hwait hlacks
  have hs : s.Sound host := sound_performAll host h
  have hformed := hs.coherent.causal.formed
  have hres : n.instruction ≠ none → n.Resolved host (s.graph.candidates host.options.reach n) :=
    fun hinstr => hs.resolved hn hinstr hlive hwait hlacks
  refine ⟨?_, ?_⟩
  · intro haccess
    exact (hres (haccess.elim Node.instruction_ne_none_of_is Node.instruction_ne_none_of_is)).storage
      haccess
  · intro slot eligible hslot
    have hsupplied := (hres hslot.instruction_ne_none).operand slot eligible hslot
    refine ⟨hsupplied, ?_⟩
    intro c hc
    obtain ⟨m, hm, rfl, hproduces⟩ := hsupplied.of_mem hc
    obtain ⟨hnode, -, -, -, l, hl, hlead⟩ := Graph.of_mem_candidates hformed hm
    exact ⟨m, hnode, Graph.not_sstore_of_produces hproduces, l, hformed.uid_node hn ▸ hl, hlead⟩

/-- The stored value comes from the second of the two nodes that produced it. -/
theorem operands_from_newest_storeTwice :
    (∀ action ∈ storeTwice, action.isReport = true) ∧
      let s := (start ⟨{}, .text, 0⟩).performAll storeTwice
      ∃ n slot, s.graph.node? 4 = some n ∧ n.isDeleted = false ∧ n.awaiting = false ∧
        s.lacksOperand 4 = false ∧ n.slots.length = 2 ∧ n.Operand slot (fun _ => true) ∧
        slot.preds = [3] ∧
        slot.Supplied ⟨{}, .text, 0⟩ ((s.graph.candidates 20000 n).filter fun _ => true) ∧
        ∃ m, s.graph.node? 3 = some m ∧ m.is .sstore = false ∧
          ∃ l ∈ s.graph.leadersTo 4, m.leader? = some l := by
  have hreports : ∀ action ∈ storeTwice, action.isReport = true := by decide
  refine ⟨hreports, ?_⟩
  intro s
  obtain ⟨n, hn⟩ : ∃ n, s.graph.node? 4 = some n := Option.isSome_iff_exists.mp (by decide +kernel)
  have hstore : (s.graph.node? 4).any fun n => !n.isDeleted && !n.awaiting && n.is .sstore &&
      (n.slots[1]?.map (·.preds) = some [3]) := by decide +kernel
  have hlacks : s.lacksOperand 4 = false := by
    simp only [s, performAll, storeTwice, List.foldl_cons, List.foldl_nil, perform,
      lacksOperand_onPre, lacksOperand_onPost]
    decide +kernel
  simp only [hn, Option.any_some, Bool.and_eq_true, decide_eq_true_eq, Bool.not_eq_true'] at hstore
  obtain ⟨⟨⟨hlive, hwait⟩, hopcode⟩, hpreds⟩ := hstore
  obtain ⟨slot, hslot, hpreds⟩ := Option.map_eq_some_iff.mp hpreds
  have hoperand : n.Operand slot fun _ => true := .stored hopcode hslot
  obtain ⟨hlen, hsupplied⟩ :=
    operands_from_newest ⟨{}, .text, 0⟩ storeTwice hreports 4 n hn hlive hwait hlacks
  obtain ⟨hnewest, hway⟩ := hsupplied slot _ hoperand
  exact ⟨n, slot, hn, hlive, hwait, hlacks, hlen (Or.inl hopcode), hoperand, hpreds, hnewest,
    hway 3 (by simp [hpreds])⟩

/-- After any reports, the value of a settled storage read comes from the newest write in reach to
an equal key. The write is earlier in the same call, in a block on the way. -/
theorem read_sees_newest_write (host : Host) (actions : List Action)
    (h : ∀ action ∈ actions, action.isReport = true) :
    let s := (start host).performAll actions
    ∀ i n, s.graph.node? i = some n → n.is .sload = true → n.isDeleted = false →
      n.awaiting = false → s.lacksOperand i = false →
      ∃ key value, n.slots = [key, value] ∧
        Newest (Node.writes host key.datum) (s.graph.candidates host.options.reach n)
          value.preds ∧
        ∀ w ∈ value.preds, ∃ m, s.graph.node? w = some m ∧ w < i ∧ m.is .sstore = true ∧
          m.function = n.function ∧ m.tx? = n.tx? ∧
          ∃ l ∈ s.graph.leadersTo i, m.leader? = some l := by
  intro s i n hn hload hlive hwait hlacks
  have hs : s.Sound host := sound_performAll host h
  have hformed := hs.coherent.causal.formed
  have hres := hs.resolved hn (Node.instruction_ne_none_of_is hload) hlive hwait hlacks
  obtain ⟨key, value, hslots⟩ := List.length_eq_two.mp (hres.storage (Or.inr hload))
  have hnewest := hres.loaded hload key value hslots
  refine ⟨key, value, hslots, hnewest, ?_⟩
  intro w hw
  obtain ⟨m, hm, rfl, hwrites⟩ := hnewest.mem hw
  obtain ⟨hnode, hlt, hfun, htx, l, hl, hlead⟩ := Graph.of_mem_candidates hformed hm
  have huid : n.uid = i := hformed.uid_node hn
  have hstore : m.is .sstore = true := by
    unfold Node.writes at hwrites
    exact (Bool.and_eq_true_iff.mp hwrites).1
  exact ⟨m, hnode, huid ▸ hlt, hstore, hfun, htx, l, huid ▸ hl, hlead⟩

/-- The read sees the second of the two writes. -/
theorem read_sees_newest_write_storeTwice :
    (∀ action ∈ storeTwice, action.isReport = true) ∧
      let s := (start ⟨{}, .text, 0⟩).performAll storeTwice
      ∃ n key value, s.graph.node? 6 = some n ∧ n.is .sload = true ∧ n.isDeleted = false ∧
        n.awaiting = false ∧ s.lacksOperand 6 = false ∧ n.slots = [key, value] ∧
        value.preds = [5] ∧
        Newest (Node.writes ⟨{}, .text, 0⟩ key.datum) (s.graph.candidates 20000 n) value.preds := by
  have hreports : ∀ action ∈ storeTwice, action.isReport = true := by decide
  refine ⟨hreports, ?_⟩
  intro s
  obtain ⟨n, hn⟩ : ∃ n, s.graph.node? 6 = some n := Option.isSome_iff_exists.mp (by decide +kernel)
  have hread : (s.graph.node? 6).any fun n => n.is .sload && !n.isDeleted && !n.awaiting &&
      (n.slots[1]?.map (·.preds) = some [5]) := by decide +kernel
  have hlacks : s.lacksOperand 6 = false := by
    simp only [s, performAll, storeTwice, List.foldl_cons, List.foldl_nil, perform,
      lacksOperand_onPre, lacksOperand_onPost]
    decide +kernel
  simp only [hn, Option.any_some, Bool.and_eq_true, decide_eq_true_eq, Bool.not_eq_true'] at hread
  obtain ⟨⟨⟨hload, hlive⟩, hwait⟩, hpreds⟩ := hread
  obtain ⟨key, value, hslots, hnewest, -⟩ :=
    read_sees_newest_write ⟨{}, .text, 0⟩ storeTwice hreports 6 n hn hload hlive hwait hlacks
  refine ⟨n, key, value, hn, hload, hlive, hwait, hlacks, hslots, ?_, hnewest⟩
  simpa [hslots] using hpreds

end Analysis
end OperandFlow
