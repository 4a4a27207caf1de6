import OperandFlow.Proofs.Graph.Resolution

/-! The skeleton of a function: a jump destination hangs on the entry or on a jump to it, and a
jump or halt hangs on the leader of its block. -/
namespace OperandFlow

/-- Control does not go on behind these instructions, or need not. -/
def Opcode.endsBlock (o : Opcode) : Bool := o.isJump || o.isHalt

namespace Node

variable {n : Node} {p : NodeId}

/-- Everything that supplies the node, slot by slot. -/
def sources (n : Node) : List NodeId := n.slots.flatMap (·.preds)

def isJump (n : Node) : Bool := n.opcode?.any Opcode.isJump

def endsBlock (n : Node) : Bool := n.opcode?.any Opcode.endsBlock

theorem mem_sources : p ∈ n.sources ↔ n.FedBy p := by
  simp [sources, FedBy]

theorem not_fedBy_of_unlinked (h : ∀ s ∈ n.slots, s.preds = []) (p : NodeId) : ¬ n.FedBy p := by
  rintro ⟨s, hs, hp⟩
  rw [h s hs] at hp
  cases hp

theorem sources_of_unlinked (h : ∀ s ∈ n.slots, s.preds = []) : n.sources = [] :=
  List.flatMap_eq_nil_iff.mpr h

theorem instruction_ne_none_of_endsBlock (h : n.endsBlock = true) : n.instruction ≠ none := by
  intro hnone
  simp [endsBlock, opcode?, hnone] at h

theorem isJump_of_is {o : Opcode} (h : n.is o = true) (ho : o.isJump = true) :
    n.isJump = true := by
  rw [isJump, show n.opcode? = some o by simpa [Node.is] using h, Option.any_some, ho]

theorem endsBlock_of_isJump (h : n.isJump = true) : n.endsBlock = true := by
  obtain ⟨o, ho, hjump⟩ := (Option.any_eq_true _ _).mp h
  simp [endsBlock, ho, Opcode.endsBlock, hjump]

/-- The only slot of a node is linked for the first time. -/
theorem slots_addPred_zero (hsingle : n.slots.length = 1) (h : ∀ s ∈ n.slots, s.preds = [])
    (p : NodeId) : ∃ s, (n.addPred 0 p).slots = [s] ∧ s.preds = [p] := by
  obtain ⟨s, hs⟩ := List.length_eq_one_iff.mp hsingle
  refine ⟨{ s with preds := [p] }, ?_, rfl⟩
  simp [addPred, hs, h s (by simp [hs])]

theorem sources_addPred (hsingle : n.slots.length = 1) (h : ∀ s ∈ n.slots, s.preds = [])
    (p : NodeId) : (n.addPred 0 p).sources = [p] := by
  obtain ⟨s, hslots, hs⟩ := slots_addPred_zero hsingle h p
  simp [sources, hslots, hs]

namespace Fresh

theorem controlFlow_of_endsBlock (h : n.Fresh) (hend : n.endsBlock = true) :
    ∃ target, n.kind = .controlFlow target := by
  obtain ⟨a, ho, hkind⟩ := h.kind
  have hend : a.opcode.endsBlock = true := by simpa [endsBlock, ho] using hend
  have hcategory : a.opcode.category = .controlFlow ∧ a.opcode.isCall = false := by
    revert hend
    cases a.opcode <;> simp [Opcode.endsBlock, Opcode.isJump, Opcode.isHalt, Opcode.category,
      Opcode.isCall]
  rw [hkind, hcategory.1, Arrival.kind]
  simp only [hcategory.2, Bool.false_eq_true, if_false]
  split_ifs
  · exact ⟨_, rfl⟩
  · exact ⟨_, rfl⟩

theorem controlFlow_of_destination (h : n.Fresh) (hdest : n.is .jumpdest = true) :
    n.kind = .controlFlow none := by
  obtain ⟨a, ho, hkind⟩ := h.kind
  have hdest : a.opcode = .jumpdest := by simpa [Node.is, ho] using hdest
  rw [hkind, hdest]
  simp [Arrival.kind, hdest, Opcode.category, Opcode.isCall, Opcode.isJump]

end Fresh
end Node

namespace Graph

section Search

variable {host : Host} {g : Graph} {n m : Node} {uid p : NodeId}

/-- A slot is linked for the first time. -/
theorem node?_link (hg : Formed g.outlines) (hn : g.node? n.uid = some n)
    (hinstr : n.instruction ≠ none) {slot : Nat} {s : Slot} (hs : n.slots[slot]? = some s)
    (hnil : s.preds = []) (hne : p ≠ n.uid) :
    (g.link p n.uid slot).value.node? n.uid = some (n.addPred slot p) := by
  have hlink : (g.link p n.uid slot).value = g.connect p n.uid slot := by
    unfold link
    simp [hn, hs, hne, hnil]
  obtain ⟨b, hb, hexit, -⟩ := boundaries?_of_instruction hg hn hinstr
  rw [hlink, node?_connect_self hn hb hne hexit]

theorem node?_detach (hg : Formed g.outlines) (hn : g.node? uid = some n)
    (hsent : n.isSentinel = false) (hm : (g.detach uid).node? uid = some m) :
    ∃ k : Node, m = k.bury := by
  obtain ⟨s, hs, -, -⟩ := boundaries?_of_instruction hg hn (hg.instruction_ne_none hn hsent)
  rw [detach_eq hn hs] at hm
  change (Graph.update _ uid Node.bury).node? uid = some m at hm
  rw [node?_update, if_pos rfl] at hm
  obtain ⟨k, -, rfl⟩ := Option.map_eq_some_iff.mp hm
  exact ⟨k, rfl⟩

/-- The jump `m` goes to the jump destination `n`, and it went to no earlier one. -/
structure GoesTo (g : Graph) (m n : Node) : Prop where
  jump : m.isJump = true
  target : m.destination? = some n.address.toNat
  first : ∀ j k, Precedes g.outlines j n.uid → g.node? j = some k → k.is .jumpdest = true →
    ¬ k.FedBy m.uid

/-- The jump destination `n` can be entered from `p`. -/
def Enters (g : Graph) (p : NodeId) (n : Node) : Prop :=
  Precedes g.outlines p n.uid ∧
    ∃ m, g.node? p = some m ∧ (m.isEntry = true ∨ g.GoesTo m n)

/-- An open jump to a destination goes there. -/
theorem goesTo_of_isOpenJump (hg : g.Coherent) (hm : g.node? m.uid = some m) {exit : NodeId}
    (hexit : IsExit g.outlines exit)
    (h : g.isOpenJump (some exit) n.address.toNat m = true) : g.GoesTo m n := by
  unfold isOpenJump at h
  simp only [Bool.and_eq_true, decide_eq_true_eq] at h
  obtain ⟨htarget, hfree⟩ := h
  -- Edges are stored at both ends, so that whatever the jump supplies is among its successors.
  have hlisted : ∀ {j k}, g.node? j = some k → k.FedBy m.uid → j ∈ m.successors := fun hk hfed =>
    (flows_iff hm).mp (hg.agree.mpr ((feeds_iff hk).mpr hfed))
  split_ifs at hfree with hjumpi hjump
  · refine ⟨Node.isJump_of_is hjumpi rfl, htarget, ?_⟩
    intro j k _ hk hdest hfed
    simp only [Bool.not_eq_true', List.any_eq_false] at hfree
    exact hfree j (hlisted hk hfed) (by simp [hk, hdest])
  · refine ⟨Node.isJump_of_is hjump rfl, htarget, ?_⟩
    intro j k _ hk hdest hfed
    have hj := hlisted hk hfed
    rw [show m.successors = [exit] by simpa using hfree, List.mem_singleton] at hj
    obtain ⟨o, ho, hexit⟩ := hexit
    rw [← hj, outlines_of_node? hk] at ho
    cases ho
    exact hg.causal.formed.kind_ne_exit hk (Node.instruction_ne_none_of_is hdest)
      (by simpa using hexit)

theorem isEntry_of_boundaries? (hg : Formed g.outlines) {b : Sentinels}
    (hb : g.boundaries? uid = some b) : ∃ m, g.node? b.entry = some m ∧ m.isEntry = true := by
  obtain ⟨n, -, hs⟩ := Option.bind_eq_some_iff.mp hb
  obtain ⟨-, he, -⟩ := hg.of_sentinels? hs
  obtain ⟨m, hm, ho⟩ := node?_of_outlines he
  exact ⟨m, hm, congrArg Outline.isEntry ho⟩

/-- A jump destination is entered from somewhere or removed. -/
theorem linkDestination_cases (host : Host) (hg : g.Coherent) (hn : g.node? n.uid = some n)
    (hdest : n.is .jumpdest = true) (hfresh : n.Fresh) :
    (g.linkDestination host n).value = g.detach n.uid ∨
      ∃ p, g.Enters p n ∧ (g.linkDestination host n).value = (g.link p n.uid 0).value := by
  have hformed := hg.causal.formed
  have hinstr := Node.instruction_ne_none_of_is hdest
  obtain ⟨b, hb, -, hx⟩ := boundaries?_of_instruction hformed hn hinstr
  have hunlinked : (n.predsAt 0).isEmpty = true := by
    rw [List.isEmpty_iff, List.eq_nil_iff_forall_not_mem]
    exact fun p hp => Node.not_fedBy_of_unlinked hfresh.unlinked p (Node.fedBy_of_mem_predsAt hp)
  unfold linkDestination
  simp only [hunlinked, hb, Bool.not_true, Bool.false_eq_true, if_false, Option.map_some]
  split
  · rename_i source hfind
    obtain ⟨hm, -, -, -, -, -⟩ := mem_liveBefore hformed (List.mem_of_find?_eq_some hfind)
    refine Or.inr ⟨source.uid, ⟨?_, source, hm, Or.inr ?_⟩, rfl⟩
    · exact precedes_of_mem_liveBefore hformed hn (List.mem_of_find?_eq_some hfind)
    · exact goesTo_of_isOpenJump hg hm ⟨_, hx, rfl⟩ (List.find?_some hfind)
  · split_ifs
    · exact Or.inl rfl
    · obtain ⟨m, hm, hentry⟩ := isEntry_of_boundaries? hformed hb
      obtain ⟨hprec, -, -⟩ := mayLink_entry hformed hn hinstr hb
      exact Or.inr ⟨b.entry, ⟨hprec, m, hm, Or.inl hentry⟩, by simp [linkFromEntry, linkFound, hb]⟩

/-- After its search, a jump destination that is not removed is entered from one node only. -/
theorem search_destination (hg : g.Coherent) (hn : g.node? uid = some n) (hfresh : n.Fresh)
    (hdest : n.is .jumpdest = true) (hm : (g.runEdgeSearch host uid).value.node? uid = some m) :
    (∃ k : Node, m = k.bury) ∨ ∃ p, g.Enters p n ∧ m = n.addPred 0 p := by
  have hformed := hg.causal.formed
  have huid : n.uid = uid := hformed.uid_node hn
  subst huid
  have hkind := hfresh.controlFlow_of_destination hdest
  have ho : n.opcode? = some .jumpdest := by simpa [Node.is] using hdest
  have hvalue : (g.runEdgeSearch host n.uid).value = (g.linkDestination host n).value := by
    rw [runEdgeSearch_value, findEdges_value hformed hn hfresh.isDeleted ho]
    simp [linkNode, hkind]
  rw [hvalue] at hm
  rcases linkDestination_cases host hg hn hdest hfresh with hgone | ⟨p, henters, hlink⟩
  · rw [hgone] at hm
    exact Or.inl (node?_detach hformed hn (by simp [Node.isSentinel, hkind]) hm)
  · obtain ⟨s, hs⟩ := List.length_eq_one_iff.mp (hfresh.single _ hkind)
    rw [hlink, node?_link hformed hn (Node.instruction_ne_none_of_is hdest) (by simp [hs])
      (hfresh.unlinked s (by simp [hs])) (Nat.ne_of_lt henters.1.1)] at hm
    exact Or.inr ⟨p, henters, (Option.some.inj hm).symm⟩

/-- After its search, a jump or halt hangs on the leader of its block. -/
theorem search_endsBlock (hg : Formed g.outlines) (hn : g.node? uid = some n) (hfresh : n.Fresh)
    (hend : n.endsBlock = true) (hm : (g.runEdgeSearch host uid).value.node? uid = some m) :
    ∃ l, n.leader? = some l ∧ m = n.addPred 0 l := by
  have huid : n.uid = uid := hg.uid_node hn
  subst huid
  obtain ⟨target, hkind⟩ := hfresh.controlFlow_of_endsBlock hend
  have hinstr := Node.instruction_ne_none_of_endsBlock hend
  obtain ⟨x, hx⟩ := Option.ne_none_iff_exists'.mp hinstr
  have ho : n.opcode? = some x.opcode := by rw [Node.opcode?, hx, Option.map_some]
  have hl : n.leader? = some x.leader := by rw [Node.leader?, hx, Option.map_some]
  have hend : x.opcode.endsBlock = true := by simpa [Node.endsBlock, ho] using hend
  have hdest : x.opcode ≠ .jumpdest := by
    intro hdest
    rw [hdest] at hend
    cases hend
  have hne : x.leader ≠ n.uid := by
    intro hself
    have hdest' := hfresh.leader.mp (hself ▸ hl)
    exact hdest (by simpa [Node.is, ho] using hdest')
  have hvalue : (g.runEdgeSearch host n.uid).value = (g.link x.leader n.uid 0).value := by
    rw [runEdgeSearch_value, findEdges_value hg hn hfresh.isDeleted ho]
    unfold linkNode
    rw [hkind]
    split <;> simp_all [linkFromLeader, linkFound]
  obtain ⟨s, hs⟩ := List.length_eq_one_iff.mp (hfresh.single _ hkind)
  rw [hvalue, node?_link hg hn hinstr (by simp [hs]) (hfresh.unlinked s (by simp [hs])) hne] at hm
  exact ⟨x.leader, hl, (Option.some.inj hm).symm⟩

end Search

section Hangs

variable {host : Host} {lacks : NodeId → Prop} {g g' : Graph} {n n' m : Node} {uid i p : NodeId}

theorem GoesTo.touches (h : g.GoesTo m n) (htouch : g.Touches uid g') (hg : g.Coherent)
    (hlt : n.uid < g.size) (hout : n'.outline = n.outline) (successors : List NodeId) :
    g'.GoesTo { m with successors } n' where
  jump := h.jump
  target := by
    have haddress : n'.address = n.address :=
      congrArg (fun o => (o.instruction.map (·.address)).getD 0) hout
    rw [haddress]
    exact h.target
  first := by
    intro j k' hprec hk' hdest hfed
    have huid : n'.uid = n.uid := congrArg Outline.uid hout
    rw [huid] at hprec
    have hprec := hprec.restrict htouch.outlines (size_outlines g ▸ hlt)
    obtain ⟨k, hk⟩ := exists_node?_of_lt (Nat.lt_trans hprec.1 hlt)
    obtain ⟨_, hkept⟩ := htouch.node?_of_precedes hg hprec hk
    rw [hk'] at hkept
    cases hkept
    exact h.first j k hprec hk hdest hfed

/-- Where a jump destination can be entered from does not change. -/
theorem Enters.touches (h : g.Enters p n) (htouch : g.Touches uid g') (hg : g.Coherent)
    (hn : g.node? i = some n) (hn' : g'.node? i = some n') : g'.Enters p n' := by
  obtain ⟨hprec, m, hm, hsource⟩ := h
  have hout := htouch.outline_eq hn hn'
  have hlt : n.uid < g.size := hg.causal.formed.uid_node hn ▸ lt_size_of_node? hn
  obtain ⟨successors, hm'⟩ := htouch.node?_of_precedes hg hprec hm
  refine ⟨?_, _, hm', hsource.imp_right fun hgoes => hgoes.touches htouch hg hlt hout successors⟩
  rw [show n'.uid = n.uid from congrArg Outline.uid hout]
  exact hprec.extend htouch.outlines

/-- How an instruction hangs on the skeleton: a jump destination on the one node it is entered from,
and a jump or halt on the leader of its block. Only a jump that lacks an operand hangs on nothing. -/
structure Hangs (lacks : NodeId → Prop) (g : Graph) (n : Node) : Prop where
  entered : n.is .jumpdest = true → ∃ p, n.sources = [p] ∧ g.Enters p n
  led : n.endsBlock = true → (∃ l, n.leader? = some l ∧ n.sources = [l]) ∨
    (n.sources = [] ∧ n.isJump = true ∧ lacks n.uid)

def Framed (lacks : NodeId → Prop) (g : Graph) (i : NodeId) : Prop :=
  ∀ n, g.node? i = some n → n.instruction ≠ none → n.isDeleted = false → g.Hangs lacks n

theorem Framed.touches (hold : g.Framed lacks i) (h : g.Touches uid g') (hg : g.Coherent)
    (hg' : Formed g'.outlines) (hi : i ≠ uid) : g'.Framed lacks i := by
  intro m hm hinstr hlive
  obtain ⟨n, successors, hn, -, rfl⟩ := h.exists_node? hg' hi hm hinstr
  obtain ⟨hentered, hled⟩ := hold n hn hinstr hlive
  refine ⟨?_, hled⟩
  intro hdest
  obtain ⟨p, hp, henters⟩ := hentered hdest
  exact ⟨p, hp, henters.touches h hg hn hm⟩

theorem framed_search (hg : g.Coherent) (hlink : g.Linkable uid)
    (hlast : ∀ b, ¬ Precedes g.outlines uid b) (hn : g.node? uid = some n) (hfresh : n.Fresh) :
    (g.runEdgeSearch host uid).value.Framed lacks uid := by
  have htouch := Touches.search hg hlink hlast host
  intro m hm _ hlive
  have hinstr : m.instruction = n.instruction :=
    congrArg Outline.instruction (htouch.outline_eq hn hm)
  constructor
  · intro hdest
    have hdest : n.is .jumpdest = true := by rwa [Node.is, Node.opcode?, ← hinstr]
    have hsingle := hfresh.single _ (hfresh.controlFlow_of_destination hdest)
    rcases search_destination hg hn hfresh hdest hm with ⟨k, rfl⟩ | ⟨p, henters, rfl⟩
    · cases hlive
    · exact ⟨p, Node.sources_addPred hsingle hfresh.unlinked p, henters.touches htouch hg hn hm⟩
  · intro hend
    have hend : n.endsBlock = true := by rwa [Node.endsBlock, Node.opcode?, ← hinstr]
    obtain ⟨target, hkind⟩ := hfresh.controlFlow_of_endsBlock hend
    obtain ⟨l, hl, rfl⟩ := search_endsBlock hg.causal.formed hn hfresh hend hm
    exact Or.inl ⟨l, hl, Node.sources_addPred (hfresh.single _ hkind) hfresh.unlinked l⟩

/-- A jump destination that arrives lacks nothing, and of the instructions that end a block only a
jump can. -/
theorem framed_arrival {a : Arrival} (hg : g.Coherent) (hn : g.node? i = some n)
    (ho : n.opcode? = some a.opcode) (hfresh : n.Fresh)
    (hlacks : n.awaiting = false → n.kind ≠ .unknown → a.missing? i ≠ none ∧ lacks i) :
    g.Framed lacks i := by
  have hlacks : ∀ target, n.kind = .controlFlow target → a.opcode.required ≠ 0 ∧ lacks i := by
    intro target hkind
    have hwait : n.awaiting = false := by
      by_contra hwait
      exact ((hg.tidy hn).waiting (by simpa using hwait)).2 target hkind
    obtain ⟨hmissing, hlack⟩ := hlacks hwait (by simp [hkind])
    refine ⟨?_, hlack⟩
    intro hnone
    simp [Arrival.missing?, hnone] at hmissing
  intro m hm _ _
  rw [hn] at hm
  cases hm
  constructor
  · intro hdest
    have hrequired := (hlacks _ (hfresh.controlFlow_of_destination hdest)).1
    rw [show a.opcode = .jumpdest by simpa [Node.is, ho] using hdest] at hrequired
    exact absurd rfl hrequired
  · intro hend
    obtain ⟨target, hkind⟩ := hfresh.controlFlow_of_endsBlock hend
    obtain ⟨hrequired, hlack⟩ := hlacks target hkind
    refine Or.inr ⟨Node.sources_of_unlinked hfresh.unlinked, ?_, hg.causal.formed.uid_node hn ▸ hlack⟩
    have hend : a.opcode.endsBlock = true := by simpa [Node.endsBlock, ho] using hend
    rw [Node.isJump, ho, Option.any_some]
    revert hend hrequired
    cases a.opcode <;> simp [Opcode.endsBlock, Opcode.isJump, Opcode.isHalt, Opcode.required]

/-- Waiting nodes are fresh, and all hang on the skeleton as they should. -/
theorem recorded_framed (host : Host) :
    Recorded host fun lacks g i => g.Accounts host lacks i ∧ g.Framed lacks i where
  upheld := fun lacks =>
    { bare := fun h => ⟨(upheld_accounts host _).bare h, fun n hn hinstr => absurd (h n hn) hinstr⟩
      fresh := fun h => (upheld_accounts host _).fresh h.1
      elsewhere := fun htouch hg hg' hi h =>
        ⟨h.1.touches htouch hg hg' hi, h.2.touches htouch hg hg' hi⟩
      searched := fun hg hlink hlast hn hfresh =>
        ⟨accounts_search hg hlink hlast hn hfresh, framed_search hg hlink hlast hn hfresh⟩ }
  mono := by
    intro lacks lacks' g i hlacks h
    refine ⟨(recorded_accounts host).mono hlacks h.1, ?_⟩
    intro n hn hinstr hlive
    obtain ⟨hentered, hled⟩ := h.2 n hn hinstr hlive
    refine ⟨hentered, fun hend => (hled hend).imp_right ?_⟩
    rintro ⟨hnone, hjump, hlack⟩
    exact ⟨hnone, hjump, hlacks _ hlack⟩
  arrived := fun hg hn ho hkind hfresh hlacks =>
    ⟨(recorded_accounts host).arrived hg hn ho hkind hfresh hlacks,
      framed_arrival hg hn ho hfresh hlacks⟩

end Hangs
end Graph
end OperandFlow
