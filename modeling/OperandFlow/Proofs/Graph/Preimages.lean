import OperandFlow.Proofs.Equality
import OperandFlow.Proofs.Graph.Hashing
import OperandFlow.Proofs.Graph.Resolution

/-! The hash of a preimage stays linked to what made the parts of the preimage. -/
namespace OperandFlow

theorem gains_eraseDups {uid : NodeId} {ps : List NodeId} (h : uid ∉ ps) (preds : List NodeId) :
    gains uid (ps.map (·, 0)) 0 preds = preds ++ (ps.filter (· ∉ preds)).eraseDups := by
  induction ps generalizing preds with
  | nil => simp [gains]
  | cons p ps ih =>
    have hne : p ≠ uid := fun heq => h (heq ▸ List.mem_cons_self)
    have hrest : uid ∉ ps := fun hmem => h (List.mem_cons_of_mem p hmem)
    rw [List.map_cons, gains_cons, gains_singleton, ih hrest]
    by_cases hp : p ∈ preds
    · rw [if_neg (by simp [hp]), List.filter_cons_of_neg (by simpa using hp)]
    · have hfilter : ps.filter (· ∉ preds ++ [p]) = (ps.filter (· ∉ preds)).filter (!· == p) := by
        rw [List.filter_filter]
        exact List.filter_congr fun q _ => by grind
      rw [if_pos ⟨rfl, hne, hp⟩, List.filter_cons_of_pos (by simpa using hp), List.eraseDups_cons,
        hfilter, List.append_assoc]
      rfl

/-- There is nothing left to erase. -/
theorem eraseDups_eraseDups (l : List NodeId) : l.eraseDups.eraseDups = l.eraseDups := by
  cases l with
  | nil => rfl
  | cons a l =>
    have hother : (l.filter (!· == a)).eraseDups.filter (!· == a) =
        (l.filter (!· == a)).eraseDups := by
      rw [List.filter_eq_self]
      intro b hb
      exact (List.mem_filter.mp (List.mem_eraseDups.mp hb)).2
    rw [List.eraseDups_cons, List.eraseDups_cons, hother,
      eraseDups_eraseDups (l.filter (!· == a))]
termination_by l.length
decreasing_by exact Nat.lt_succ_of_le (List.length_filter_le _ _)

/-- Links to the first slot leave the others alone. -/
theorem Node.slots_gain_first {n : Node} {slot : Slot} {rest : List Slot}
    (hs : n.slots = slot :: rest) (ps : List NodeId) :
    (n.gain (ps.map (·, 0))).slots =
      { slot with preds := gains n.uid (ps.map (·, 0)) 0 slot.preds } :: rest := by
  apply List.ext_getElem?
  intro i
  rw [slots_gain, hs]
  cases i with
  | zero => rfl
  | succ j =>
    have hne : ∀ l ∈ ps.map (·, 0), l.2 ≠ j + 1 := by
      intro l hl
      obtain ⟨p, -, rfl⟩ := List.mem_map.mp hl
      exact (Nat.succ_ne_zero j).symm
    simp only [gains_of_ne hne, List.getElem?_cons_succ]
    exact Option.map_id'

/-- The canonical text of the operand that is hashed. -/
def Node.preimage (n : Node) : String :=
  (n.slots.head?.map (·.datum.rendering.text)).getD ""

theorem Node.preimage_gain (n : Node) (links : List (NodeId × Nat)) :
    (n.gain links).preimage = n.preimage := by
  have hdata : ∀ m : Node, m.preimage =
      ((m.slots.map (·.datum)).head?.map (·.rendering.text)).getD "" := by
    intro m
    rw [List.head?_map, Option.map_map]
    rfl
  rw [hdata, hdata, data_gain]

/-- Nothing is left of a value that is empty. -/
theorem Rendering.text_of_isEmpty {v : Value} (h : v.isEmpty = true) (limit : Nat)
    (deadline : Term.Deadline) : (ofExpr limit deadline v.expr).text = "" := by
  have hsettled : Term.settleRaw v.expr = ([], true) := by
    rw [Term.settleRaw, ← Text.compact_trim, show Text.trim v.expr.toList = [] from
      List.isEmpty_iff.mp h]
    decide +kernel
  unfold ofExpr
  split_ifs
  · rfl
  · rfl
  · rw [hsettled]
    rfl

/-- A hash that arrives without its operand has an empty preimage. -/
theorem Node.preimage_of_missing {o : Options} {a : Arrival} {n : Node} {uid : NodeId}
    (ho : a.opcode = .sha3) (hmissing : a.missing? uid ≠ none)
    (hslots : n.slots = o.slots uid (a.slotValues a.opcode.category)) : n.preimage = "" := by
  have hvalues : a.slotValues a.opcode.category = Arrival.orEmpty a.operands := by
    rw [ho]
    simp [Arrival.slotValues, ho, Opcode.isStorage, Opcode.category]
  obtain ⟨v, vs, hfirst, hempty⟩ : ∃ v vs, Arrival.orEmpty a.operands = v :: vs ∧
      v.isEmpty = true := by
    cases hoperands : a.operands with
    | nil => exact ⟨.empty, [], rfl, rfl⟩
    | cons v vs =>
      refine ⟨v, vs, rfl, ?_⟩
      by_contra hv
      have hpresent : 1 ≤ (a.operands.takeWhile fun v => !v.isEmpty).length := by
        rw [hoperands, List.takeWhile_cons_of_pos (by simpa using hv)]
        exact Nat.le_add_left 1 _
      exact hmissing (if_neg (by rw [ho]; exact Nat.not_lt.mpr hpresent))
  rw [preimage, hslots, hvalues, hfirst]
  exact Rendering.text_of_isEmpty hempty o.maxExpressionLength o.deadline

/-- A hash that does not wait and yet is not linked at once has an empty preimage. -/
theorem Node.preimage_of_later {o : Options} {a : Arrival} {n : Node} (ho : a.opcode = .sha3)
    (hkind : n.kind = a.kind a.opcode.category)
    (hslots : n.slots = o.slots n.uid (a.slotValues a.opcode.category)) (hwait : n.awaiting = false)
    (hlater : Graph.linksAtOnce a n = false) : n.preimage = "" := by
  have hdata : n.kind = .dataFlow := by
    rw [hkind, ho]
    simp [Arrival.kind, Opcode.category]
  refine preimage_of_missing ho ?_ hslots
  intro hnone
  simp [Graph.linksAtOnce, hdata, hnone, hwait] at hlater

/-- The hash is linked to the sources of its preimage, and to nothing else. -/
structure Node.Hashed (host : Host) (candidates : List Node) (n : Node) : Prop where
  first : n.predsAt 0 =
    ((Graph.preimageSources host candidates n.uid n.preimage).toOption.getD []).eraseDups
  others : ∀ s ∈ n.slots.tail, s.preds = []

namespace Node.Hashed

variable {host : Host} {nodes nodes' : List Node} {n : Node}

theorem congr (h : n.Hashed host nodes)
    (hnodes : nodes'.map Node.upstream = nodes.map Node.upstream) : n.Hashed host nodes' := by
  refine ⟨?_, h.others⟩
  rw [Graph.preimageSources_congr hnodes]
  exact h.first

theorem redirect (h : n.Hashed host nodes) (successors : List NodeId) :
    ({ n with successors } : Node).Hashed host nodes :=
  ⟨h.first, h.others⟩

theorem predecessors (h : n.Hashed host nodes) : n.predecessors = n.predsAt 0 := by
  have hpreds : n.slots.flatMap (·.preds) = n.predsAt 0 := by
    cases hs : n.slots with
    | nil =>
      rw [Node.predsAt, hs]
      rfl
    | cons slot rest =>
      have hothers : rest.flatMap (·.preds) = [] := by
        rw [List.flatMap_eq_nil_iff]
        intro s hmem
        exact h.others s (by rw [hs]; exact hmem)
      rw [Node.predsAt_zero hs, List.flatMap_cons, hothers, List.append_nil]
  rw [Node.predecessors, hpreds, h.first, eraseDups_eraseDups]

theorem length_predsAt (h : n.Hashed host nodes) : (n.predsAt 0).length ≤ 2 := by
  rw [h.first]
  refine Nat.le_trans (eraseDups_sublist _).length_le ?_
  cases hsources : Graph.preimageSources host nodes n.uid n.preimage with
  | error e => exact Nat.zero_le 2
  | ok sources => exact Graph.length_preimageSources hsources

end Node.Hashed

namespace Graph

variable {host : Host} {g g' : Graph} {n m : Node} {uid i : NodeId}

/-- A hash that is not linked is all right if there is nothing to link it to. -/
theorem hashed_of_unlinked {candidates : List Node} (h : ∀ s ∈ n.slots, s.preds = [])
    (hnone : (preimageSources host candidates n.uid n.preimage).toOption.getD [] = []) :
    n.Hashed host candidates := by
  refine ⟨?_, fun s hs => h s (List.mem_of_mem_tail hs)⟩
  rw [hnone, Node.predsAt_eq_nil h]
  rfl

theorem kind_of_sha3 (hfresh : n.Fresh) (ho : n.opcode? = some .sha3) : n.kind = .dataFlow := by
  obtain ⟨a, ho', hkind⟩ := hfresh.kind
  have ha : a.opcode = .sha3 := Option.some.inj (ho'.symm.trans ho)
  simpa [ha, Opcode.category, Arrival.kind] using hkind

/-- The search for the edges of a hash is that for the sources of its preimage. -/
theorem findEdges_of_sha3 (hg : Formed g.outlines) (hn : g.node? n.uid = some n)
    (hfresh : n.Fresh) (ho : n.opcode? = some .sha3) :
    let sources := preimageSources host (g.candidates host.options.reach n) n.uid n.preimage
    (g.findEdges host n.uid).value =
      (sources.map fun _ => (), g.linkAll n.uid ((sources.toOption.getD []).map (·, 0))) := by
  rw [findEdges_value hg hn hfresh.isDeleted ho]
  simp only [linkNode, kind_of_sha3 hfresh ho]
  cases hs : n.slots with
  | nil =>
    rw [Node.preimage, hs]
    simp only [linkPreimage, hs]
    rfl
  | cons slot rest =>
    rw [Node.preimage, hs]
    exact linkPreimage_value hs (hfresh.unlinked slot (by simp [hs]))

/-- The search for its edges links a hash to the sources of its preimage. -/
theorem hashed_runEdgeSearch (hg : Formed g.outlines) (hn : g.node? n.uid = some n)
    (hfresh : n.Fresh) (ho : n.opcode? = some .sha3)
    (hm : (g.runEdgeSearch host n.uid).value.node? n.uid = some m) :
    m.preimage = n.preimage ∧ m.Hashed host (g.candidates host.options.reach n) := by
  rw [runEdgeSearch_value, findEdges_of_sha3 hg hn hfresh ho] at hm
  cases hsources : preimageSources host (g.candidates host.options.reach n) n.uid n.preimage with
  | error e =>
    rw [hsources] at hm
    cases hn.symm.trans hm
    exact ⟨rfl, hashed_of_unlinked hfresh.unlinked (by rw [hsources]; rfl)⟩
  | ok sources =>
    have hinstr : n.instruction ≠ none := by
      intro hnone
      simp [Node.opcode?, hnone] at ho
    rw [hsources] at hm
    change (g.linkAll n.uid (sources.map (·, 0))).node? n.uid = some m at hm
    rw [node?_linkAll hg hn hinstr] at hm
    cases hm
    refine ⟨n.preimage_gain _, ?_⟩
    cases hs : n.slots with
    | nil =>
      have hslots : (n.gain (sources.map (·, 0))).slots = [] := by simp [Node.gain, hs]
      have hempty : (n.gain (sources.map (·, 0))).preimage = "" := by
        rw [Node.preimage, hslots]
        rfl
      apply hashed_of_unlinked
      · simp [hslots]
      · simp [hempty, preimageSources, Except.toOption]
    | cons slot rest =>
      have hslots := Node.slots_gain_first hs sources
      have hne : n.uid ∉ sources := fun hmem =>
        ne_of_mem_candidates hg (mem_preimageSources hsources hmem) rfl
      constructor
      · rw [n.preimage_gain, show (n.gain (sources.map (·, 0))).uid = n.uid from rfl, hsources,
          Node.predsAt_zero hslots, hfresh.unlinked slot (by simp [hs]), gains_eraseDups hne]
        simp [Except.toOption]
      · rw [hslots]
        exact fun s hmem => hfresh.unlinked s (by rw [hs]; exact List.mem_cons_of_mem slot hmem)

/-- A hash that is settled and live is linked to the sources of its preimage. -/
def Hashes (host : Host) (g : Graph) (i : NodeId) : Prop :=
  ∀ n, g.node? i = some n → n.is .sha3 = true → n.isDeleted = false → n.awaiting = false →
    n.Hashed host (g.candidates host.options.reach n)

theorem Hashes.touches (h : g.Touches uid g') (hg : g.Coherent) (hg' : Formed g'.outlines)
    (hi : i ≠ uid) (hold : g.Hashes host i) : g'.Hashes host i := by
  intro m hm ho hlive hwait
  obtain ⟨n, successors, hn, hexit, rfl⟩ :=
    h.exists_node? hg' hi hm (Node.instruction_ne_none_of_is ho)
  have hcandidates := h.candidates hg hg' hn hm (fun _ => ⟨hi, n, hn, hwait, hexit⟩)
    host.options.reach
  exact ((hold n hn ho hlive hwait).congr hcandidates).redirect successors

theorem hashes_search (hg : g.Coherent) (hlink : g.Linkable uid)
    (hlast : ∀ b, ¬ Precedes g.outlines uid b) (hn : g.node? uid = some n) (hfresh : n.Fresh) :
    (g.runEdgeSearch host uid).value.Hashes host uid := by
  have hformed := hg.causal.formed
  have huid : n.uid = uid := hformed.uid_node hn
  subst huid
  intro m hm hsha3 _ _
  have hout := (Touches.search hg hlink hlast host).outline_eq hn hm
  have ho : n.opcode? = some .sha3 := by
    rw [Node.opcode?, ← show m.instruction = n.instruction from congrArg Outline.instruction hout]
    exact of_decide_eq_true hsha3
  have hlead := hfresh.leader_ne ho (by decide)
  exact (hashed_runEdgeSearch hformed hn hfresh ho hm).2.congr
    (candidates_search hg hlink hlast hn hlead hm _)

/-- A hash that arrives and is not linked at once waits, or there is nothing to link it to. -/
theorem hashes_of_later {a : Arrival} (hn : g.node? uid = some n) (huid : n.uid = uid)
    (ho : n.opcode? = some a.opcode) (hkind : n.kind = a.kind a.opcode.category)
    (hslots : n.slots = host.options.slots uid (a.slotValues a.opcode.category))
    (hfresh : n.Fresh) (hlater : linksAtOnce a n = false) : g.Hashes host uid := by
  subst huid
  intro m hm hsha3 _ hwait
  cases hn.symm.trans hm
  rw [Node.is_eq ho, decide_eq_true_iff] at hsha3
  apply hashed_of_unlinked hfresh.unlinked
  simp [Node.preimage_of_later hsha3 hkind hslots hwait hlater, preimageSources, Except.toOption]

theorem upheld_hashes (host : Host) :
    Upheld host fun g i => g.Accounts host (fun _ => True) i ∧ g.Hashes host i := by
  refine upheld_beside_accounts ?_ (fun htouch hg hg' hi h => h.touches htouch hg hg' hi)
    hashes_search
  exact fun h n hn ho => absurd (h n hn) (Node.instruction_ne_none_of_is ho)

end Graph
end OperandFlow
