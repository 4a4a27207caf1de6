import OperandFlow.Proofs.Graph.Lifetime
import OperandFlow.Proofs.Graph.Skeleton
import OperandFlow.Proofs.Links
import OperandFlow.Proofs.Origins

/-! Searches look through the storage: a word that was loaded has the origins of the word that was
stored. -/
namespace OperandFlow

theorem Node.Fresh.kind_of_sload {n : Node} (h : n.Fresh) (hload : n.is .sload = true) :
    n.kind = .stateVariable := by
  obtain ⟨a, ho, hkind⟩ := h.kind
  have ha : a.opcode = .sload := by simpa [Node.is, ho] using hload
  simpa [ha, Opcode.category, Arrival.kind] using hkind

/-- A slot may lose a predecessor, but gets no other one. -/
theorem Node.predsAt_erasePred_subset (n : Node) (pred : NodeId) (i : Nat) :
    (n.erasePred pred).predsAt i ⊆ n.predsAt i := by
  unfold Node.predsAt Node.erasePred
  rw [List.getElem?_map]
  cases n.slots[i]? with
  | none => exact List.Subset.refl _
  | some s => exact List.filter_subset_self _

/-- The newest write that a resolved load read. -/
theorem Node.Resolved.is_sstore {host : Host} {candidates : List Node} {n : Node}
    (h : n.Resolved host candidates) (hload : n.is .sload = true) {w : NodeId}
    (hw : w ∈ n.predsAt 1) : ∃ m ∈ candidates, m.uid = w ∧ m.is .sstore = true := by
  obtain ⟨key, value, hslots⟩ := List.length_eq_two.mp (h.storage (Or.inr hload))
  have hw : w ∈ value.preds := by simpa [Node.predsAt, hslots] using hw
  obtain ⟨m, hm, huid, hwrites⟩ := (h.loaded hload key value hslots).mem hw
  exact ⟨m, hm, huid, (Bool.and_eq_true_iff.mp hwrites).1⟩

namespace Graph

/-- How a load stands while it is there: it is known as an access to the storage, and what it read
was stored. Until its result is known, nothing is linked. -/
def LoadsStored (g : Graph) (i : NodeId) : Prop :=
  ∀ n, g.node? i = some n → n.instruction ≠ none → n.isDeleted = false →
    (n.awaiting = true → n.Fresh) ∧
      (n.is .sload = true → n.kind = .stateVariable ∧
        ∀ w ∈ n.predsAt 1, ∃ o, g.outlines[w]? = some o ∧ o.opcode? = some .sstore)

section

variable {host : Host} {g g' : Graph} {uid i : NodeId} {n : Node}

theorem loadsStored_of_fresh (hn : g.node? i = some n) (hfresh : n.Fresh) : g.LoadsStored i := by
  intro m hm _ _
  rw [hn] at hm
  cases hm
  refine ⟨fun _ => hfresh, fun hload => ⟨hfresh.kind_of_sload hload, ?_⟩⟩
  rw [Node.predsAt_eq_nil hfresh.unlinked]
  exact nofun

theorem LoadsStored.touches (h : g.Touches uid g') (hg' : Formed g'.outlines) (hi : i ≠ uid)
    (hold : g.LoadsStored i) : g'.LoadsStored i := by
  intro m hm hinstr hlive
  obtain ⟨n, successors, hn, -, rfl⟩ := h.exists_node? hg' hi hm hinstr
  obtain ⟨hfresh, hload⟩ := hold n hn hinstr hlive
  refine ⟨fun hwait => (hfresh hwait).congr rfl rfl rfl (hfresh hwait).unlinked rfl, ?_⟩
  intro his
  obtain ⟨hkind, hwrites⟩ := hload his
  refine ⟨hkind, ?_⟩
  intro w hw
  obtain ⟨o, ho, hstore⟩ := hwrites w hw
  exact ⟨o, (h.outlines w (Array.getElem?_eq_some_iff.mp ho).1).trans ho, hstore⟩

/-- A load is linked to what was stored. -/
theorem loadsStored_search (hg : g.Coherent) (hlink : g.Linkable uid) (hn : g.node? uid = some n)
    (hfresh : n.Fresh) : (g.runEdgeSearch host uid).value.LoadsStored uid := by
  have hformed := hg.causal.formed
  have hsearched := searched_runEdgeSearch host hformed uid
  intro m hm _ hlive
  have hwait := awaiting_runEdgeSearch hformed hn (hlink n hn).1 hm
  refine ⟨fun h => absurd (hwait.symm.trans h) Bool.false_ne_true, ?_⟩
  intro hload
  obtain ⟨k, hk, hevolves⟩ := Extends.searched hformed hsearched hn
  rw [hm] at hk
  cases hk
  have hload' : n.is .sload = true := by
    rw [Node.is, ← hevolves.opcode?_eq]
    exact hload
  constructor
  · rcases hevolves.kind with hkind | ⟨-, hkind⟩
    · exact hkind.trans (hfresh.kind_of_sload hload')
    · exact absurd hkind (of_decide_eq_false hlive)
  · intro w hw
    have hresolved := resolved_runEdgeSearch hformed hn hfresh hfresh.isDeleted hm hlive
    obtain ⟨c, hc, rfl, hstore⟩ := hresolved.is_sstore hload hw
    have hnode := (mem_liveBefore hformed (List.mem_of_mem_filter hc)).1
    refine ⟨c.outline, ?_, of_decide_eq_true hstore⟩
    rw [hsearched.outlines hformed, outlines_of_node? hnode]

theorem upheld_loadsStored (host : Host) : Upheld host LoadsStored where
  bare := fun h n hn hinstr => absurd (h n hn) hinstr
  fresh := fun h hn hinstr hlive => (h _ hn hinstr hlive).1
  elsewhere := fun htouch _ hg' hi h => h.touches htouch hg' hi
  searched := fun hg hlink _ hn hfresh => loadsStored_search hg hlink hn hfresh

/-- What is left of an instruction once another node is gone. -/
theorem node?_detach_of_ne {m k : Node} (hg : Formed g.outlines) (hn : g.node? uid = some n)
    (hsent : n.isSentinel = false) (hi : i ≠ uid) (hm : (g.detach uid).node? i = some m)
    (hk : g.node? i = some k) (hinstr : k.instruction ≠ none) :
    ∃ successors, m = { k with successors } ∨
      m = ({ k with successors } : Node).erasePred uid := by
  obtain ⟨s, hs, -, hx⟩ := boundaries?_of_instruction hg hn (hg.instruction_ne_none hn hsent)
  have hkeeps : g.Keeps (n.predecessors.foldl (release (some s.exit) uid) g) i :=
    Keeps.releaseAll ⟨_, hx, rfl⟩ n.predecessors
  obtain ⟨k', hk', -, hsame⟩ := hkeeps k hk
  have hm : ((n.predecessors.foldl (release (some s.exit) uid) g).withdraw uid
      n.successors).node? i = some m := by
    rw [detach_eq hn hs] at hm
    exact (node?_update_of_ne hi _ Node.bury).symm.trans hm
  rw [node?_withdraw, hk', hsame (hg.kind_ne_exit hk hinstr)] at hm
  split_ifs at hm
  · exact ⟨k'.successors, Or.inr (Option.some.inj hm).symm⟩
  · exact ⟨k'.successors, Or.inl (Option.some.inj hm).symm⟩

/-- To remove a node takes it from what others read, and changes nothing else of them. -/
theorem LoadsStored.detach (hg : Formed g.outlines) (hn : g.node? uid = some n)
    (hsent : n.isSentinel = false) (h : g.LoadsStored i) : (g.detach uid).LoadsStored i := by
  have hout := outlines_detach hg hn hsent
  intro m hm hinstr hlive
  have hi : i ≠ uid := by
    rintro rfl
    obtain ⟨k, rfl⟩ := node?_detach hg hn hsent hm
    cases hlive
  obtain ⟨k, hk, hkout⟩ := node?_of_outlines (hout ▸ outlines_of_node? hm)
  have hkinstr : k.instruction ≠ none := by
    rw [← k.instruction_outline, hkout]
    exact hinstr
  rw [LoadsStored] at h
  obtain ⟨successors, rfl | rfl⟩ := node?_detach_of_ne hg hn hsent hi hm hk hkinstr
  · obtain ⟨hfresh, hload⟩ := h k hk hkinstr hlive
    rw [hout]
    exact ⟨fun hwait => (hfresh hwait).congr rfl rfl rfl (hfresh hwait).unlinked rfl, hload⟩
  · obtain ⟨hfresh, hload⟩ := h k hk hkinstr hlive
    refine ⟨?_, ?_⟩
    · intro hwait
      refine (hfresh hwait).congr rfl rfl rfl ?_ (List.length_map _)
      intro s hs
      obtain ⟨t, ht, rfl⟩ := List.mem_map.mp hs
      simp [Slot.erase, (hfresh hwait).unlinked t ht]
    · intro his
      obtain ⟨hkind, hwrites⟩ := hload his
      refine ⟨hkind, ?_⟩
      intro w hw
      rw [hout]
      exact hwrites w (Node.predsAt_erasePred_subset _ uid 1 hw)

end

section Search

variable {g : Graph} {l w i : NodeId} {n : Node}

/-- A search goes back in time. -/
theorem Causal.lt_of_stepsTo {p : NodeId} (hg : g.Causal) (hpass : g.Passable i)
    (h : g.StepsTo i p) : p < i := by
  obtain ⟨n, hn, hsent, -⟩ := hpass
  have hinstr := hg.formed.instruction_ne_none hn hsent
  have hfed : ∀ {a}, n.FedBy a → Precedes g.outlines a i :=
    fun ha => hg.precedes_of_fedBy hn hinstr ha
  cases h with
  | written hi hload hw hm hp =>
    rename_i m w
    rw [hn] at hi
    cases hi
    obtain ⟨hlt, q, -, hq, -, -, hexit, -⟩ := hfed (Node.fedBy_of_mem_predsAt hw)
    rw [outlines_of_node? hm] at hq
    cases hq
    have hkind : m.kind ≠ .exit := by simpa using hexit
    have hprec := hg.precedes_of_feeds hm hkind ⟨m, hm, Node.fedBy_of_mem_predsAt hp⟩
    exact Nat.lt_trans hprec.1 hlt
  | key hi _ _ hp =>
    rw [hn] at hi
    cases hi
    exact (hfed (Node.fedBy_of_mem_predsAt hp)).1
  | operand hi _ hs hp =>
    rw [hn] at hi
    cases hi
    exact (hfed ⟨_, hs, hp⟩).1

theorem Causal.lt_of_reaches {seeds : List NodeId} (hg : g.Causal) (hseeds : ∀ p ∈ seeds, p < l)
    (h : g.Reaches seeds i) : i < l := by
  induction h with
  | seed hi => exact hseeds _ hi
  | step _ hpass _ hstep ih => exact Nat.lt_trans (hg.lt_of_stepsTo hpass hstep) ih

/-- Behind a load lies what is behind the word that was stored. -/
theorem reaches_load_iff (hn : g.node? l = some n) (hload : n.is .sload = true)
    (hw : n.predsAt 1 = [w]) (hpass : g.Passable l) (horigin : g.isOrigin l = false) :
    g.Reaches [l] i ↔ i = l ∨ g.Reaches (g.writtenFrom w) i := by
  constructor
  · intro h
    induction h with
    | seed hi => exact Or.inl (List.mem_singleton.mp hi)
    | step _ hpass horigin hstep ih =>
      right
      rcases ih with rfl | ih
      · cases hstep with
        | written hi _ hmem hm hp =>
          rw [hn] at hi
          cases hi
          rw [hw] at hmem
          cases List.mem_singleton.mp hmem
          exact .seed (mem_writtenFrom.mpr ⟨_, hm, hp⟩)
        | key hi _ hnil _ =>
          rw [hn] at hi
          cases hi
          cases hw.symm.trans hnil
        | operand hi hother _ _ =>
          rw [hn] at hi
          cases hi
          cases hload.symm.trans hother
      · exact .step ih hpass horigin hstep
  · rintro (rfl | h)
    · exact .seed (List.mem_singleton.mpr rfl)
    · induction h with
      | seed hi =>
        obtain ⟨m, hm, hp⟩ := mem_writtenFrom.mp hi
        exact .step (.seed (List.mem_singleton.mpr rfl)) hpass horigin
          (.written hn hload (hw ▸ List.mem_singleton.mpr rfl) hm hp)
      | step _ hpass horigin hstep ih => exact .step ih hpass horigin hstep

/-- A load that read a word is passed, and is no origin. -/
theorem LoadsStored.passable (hg : Formed g.outlines) (h : g.LoadsStored l)
    (hn : g.node? l = some n) (hlive : n.isDeleted = false) (hload : n.is .sload = true)
    (hw : w ∈ n.predsAt 1) : g.Passable l ∧ g.isOrigin l = false := by
  have hinstr := Node.instruction_ne_none_of_is hload
  obtain ⟨hkind, hwrites⟩ := (h n hn hinstr hlive).2 hload
  constructor
  · refine ⟨n, hn, ?_, hlive, ?_⟩
    · simp [Node.isSentinel, hkind]
    · simp [hkind]
  · obtain ⟨o, ho, hstore⟩ := hwrites w hw
    obtain ⟨m, hm, rfl⟩ := node?_of_outlines ho
    have hentry : m.isEntry = false := by
      apply hg.isEntry_eq_false hm
      intro hnone
      simp [Outline.opcode?, hnone] at hstore
    have hmem := (n.mem_predecessors w).mpr (Node.fedBy_of_mem_predsAt hw)
    unfold isOrigin
    rw [hn, Option.map_some]
    split
    · rename_i heq
      cases Option.some.inj heq ▸ hmem
    · rename_i only heq
      rw [Option.some.inj heq, List.mem_singleton] at hmem
      rw [← hmem, hm]
      simpa using hentry
    · rfl

end Search

/-- What an exact search from a load finds, and what one from the stored word finds. -/
theorem Exact.through_load {g : Graph} {l w : NodeId} {n : Node} {r r' : Origins}
    (hg : g.Causal) (hn : g.node? l = some n) (hload : n.is .sload = true)
    (hw : n.predsAt 1 = [w]) (hpass : g.Passable l) (horigin : g.isOrigin l = false)
    (hr : g.Exact [l] r) (hr' : g.Exact (g.writtenFrom w) r') :
    r.ids = r'.ids ∧ r.hashes = r'.hashes ∧ r.loads = r'.loads + 1 := by
  have hreaches : ∀ i, g.Reaches [l] i ↔ i = l ∨ g.Reaches (g.writtenFrom w) i :=
    fun i => reaches_load_iff hn hload hw hpass horigin
  have hbehind : ¬ g.Reaches (g.writtenFrom w) l := by
    intro h
    refine Nat.lt_irrefl l (hg.lt_of_reaches (fun p hp => ?_) h)
    obtain ⟨m, hm, hp⟩ := mem_writtenFrom.mp hp
    exact hg.lt_of_stepsTo hpass (.written hn hload (hw ▸ List.mem_singleton.mpr rfl) hm hp)
  refine ⟨?_, ?_, ?_⟩
  · refine Ordered.eq_of_mem_iff hr.listed.1 hr'.listed.1 fun i => ?_
    rw [hr.ids, hr'.ids, hreaches]
    constructor
    · rintro ⟨rfl | hi, hfound⟩
      · cases horigin.symm.trans hfound.2
      · exact ⟨hi, hfound⟩
    · rintro ⟨hi, hfound⟩
      exact ⟨Or.inr hi, hfound⟩
  · have hset : {i | g.Reaches [l] i ∧ g.HasOpcode .sha3 i} =
        {i | g.Reaches (g.writtenFrom w) i ∧ g.HasOpcode .sha3 i} := by
      ext i
      simp only [Set.mem_ofPred_eq, hreaches]
      constructor
      · rintro ⟨rfl | hi, hhash⟩
        · have hhash := (hasOpcode_iff hn hpass _).mp hhash
          simp only [Node.is, decide_eq_true_eq] at hload hhash
          cases hload.symm.trans hhash
        · exact ⟨hi, hhash⟩
      · rintro ⟨hi, hhash⟩
        exact ⟨Or.inr hi, hhash⟩
    have hcount := hr.hashes
    rw [hset, hr'.hashes] at hcount
    exact_mod_cast hcount.symm
  · have hset : {i | g.Reaches [l] i ∧ g.HasOpcode .sload i} =
        insert l {i | g.Reaches (g.writtenFrom w) i ∧ g.HasOpcode .sload i} := by
      ext i
      simp only [Set.mem_ofPred_eq, Set.mem_insert_iff, hreaches]
      constructor
      · rintro ⟨rfl | hi, hopcode⟩
        · exact Or.inl rfl
        · exact Or.inr ⟨hi, hopcode⟩
      · rintro (rfl | ⟨hi, hopcode⟩)
        · exact ⟨Or.inl rfl, (hasOpcode_iff hn hpass _).mpr hload⟩
        · exact ⟨Or.inr hi, hopcode⟩
    have hcount := hr.loads
    rw [hset, Set.encard_insert_of_notMem (fun h => hbehind h.1), hr'.loads] at hcount
    exact_mod_cast hcount.symm

/-- A load of a constant has no origin. -/
theorem Exact.of_constant {g : Graph} {l w : NodeId} {n : Node} {r : Origins}
    (hn : g.node? l = some n) (hload : n.is .sload = true) (hw : n.predsAt 1 = [w])
    (hpass : g.Passable l) (horigin : g.isOrigin l = false) (hnil : g.writtenFrom w = [])
    (hr : g.Exact [l] r) : r.ids = [] ∧ r.constantWrites = [w] := by
  have hreaches : ∀ i, g.Reaches [l] i ↔ i = l := by
    intro i
    rw [reaches_load_iff hn hload hw hpass horigin, hnil, or_iff_left]
    intro h
    induction h with
    | seed hi => cases hi
    | step _ _ _ _ ih => exact ih
  constructor
  · rw [List.eq_nil_iff_forall_not_mem]
    intro i hi
    obtain ⟨hi, hfound⟩ := (hr.ids i).mp hi
    rw [(hreaches i).mp hi] at hfound
    cases horigin.symm.trans hfound.2
  · refine Ordered.eq_of_mem_iff hr.listed.2 (List.pairwise_singleton _ w) fun v => ?_
    rw [hr.constantWrites, List.mem_singleton]
    constructor
    · rintro ⟨i, hi, -, -, k, hk, -, hv, -⟩
      rw [(hreaches i).mp hi, hn] at hk
      cases hk
      exact List.mem_singleton.mp (hw ▸ hv)
    · rintro rfl
      exact ⟨l, (hreaches l).mpr rfl, hpass, horigin, n, hn, hload,
        hw ▸ List.mem_singleton.mpr rfl, writtenFrom_eq_nil.mp hnil⟩

end Graph

namespace Analysis

open OperandFlow.Graph

theorem loadsStored_performAll (host : Host) {actions : List Action}
    (h : ∀ action ∈ actions, action.isOrderly = true) (i : NodeId) :
    ((start host).performAll actions).graph.LoadsStored i := by
  have hupheld := upheld_loadsStored host
  have key : ((start host).performAll actions).host = host ∧
      ((start host).performAll actions).graph.Coherent ∧
        ∀ i, ((start host).performAll actions).graph.LoadsStored i := by
    unfold performAll
    apply List.foldlRecOn actions (motive := fun s : Analysis =>
      s.host = host ∧ s.graph.Coherent ∧ ∀ i, s.graph.LoadsStored i) _
      ⟨rfl, coherent_empty, hupheld.empty⟩
    intro s ⟨hhost, hs, hloads⟩ action hmem
    have horderly := h action hmem
    refine ⟨(s.host_perform action).trans hhost,
      coherent_perform hs (Action.isGuided_of_isOrderly horderly), ?_⟩
    have htracing : action.isTracing = true → ∀ i, (s.perform action).graph.LoadsStored i := by
      intro htracing
      refine ((s.grows_perform htracing).induction
        (P := fun g => g.Coherent ∧ ∀ i, g.LoadsStored i) ⟨hs, hloads⟩ ?_).2
      intro g g' ⟨hg, hloads⟩ htraced
      rw [hhost] at htraced
      refine ⟨hg.traced htraced, ?_⟩
      cases htraced with
      | add ha hadd =>
        exact hupheld.add hloads hg ha hadd fun n hn _ _ _ hfresh _ =>
          loadsStored_of_fresh hn hfresh
      | complete hcomplete => exact hupheld.complete hloads hg hcomplete
      | flush function => exact hupheld.flushWhere hloads hg _
    cases action with
    | remove uid =>
      obtain hsame | ⟨n, hn, hsent, -, hremoved⟩ := s.graph.discard_cases uid
      · have hgraph : (s.perform (.remove uid)).graph = s.graph := hsame
        rw [hgraph]
        exact hloads
      · have hgraph : (s.perform (.remove uid)).graph = s.graph.detach uid :=
          congrArg Prod.snd hremoved
        rw [hgraph]
        exact fun i => (hloads i).detach hs.causal.formed hn hsent
    | reset => exact hupheld.empty
    | _ => exact htracing horderly
  exact key.2.2 i

/-- A search that its limit does not stop is exact. -/
theorem exact_of_not_exhausted (s : Analysis) {seeds : List NodeId} {limit : Nat}
    (hopen : (s.origins seeds limit).1.exhausted = false) :
    s.graph.Exact seeds (s.origins seeds limit).1 := by
  obtain ⟨rest, hrest, hend, -⟩ := (Explores.start s.graph seeds).run limit rfl
  have hvalue : (s.origins seeds limit).1 = _ := origins_value s.host s.graph seeds limit
  rw [hvalue] at hopen ⊢
  rw [hend hopen] at hrest
  exact hrest.exact

/-- In every orderly session, a live load that read one word read it from a live write. Searches
from the load and from what was written find the same origins and pass as many hashes, and the
first passes one load more, the load itself. If nothing supplied what was written, the load has no
origin but that write of a constant. -/
theorem origins_through_loads (host : Host) (actions : List Action)
    (h : ∀ action ∈ actions, action.isOrderly = true) :
    let s := (start host).performAll actions
    ∀ l w n, s.graph.node? l = some n → n.isDeleted = false → n.is .sload = true →
      n.predsAt 1 = [w] →
      ∃ m, s.graph.node? w = some m ∧ m.is .sstore = true ∧ m.isDeleted = false ∧
        ∀ limit, (s.origins [l] limit).1.exhausted = false →
          (∀ limit', (s.origins (m.predsAt 1) limit').1.exhausted = false →
            (s.origins [l] limit).1.ids = (s.origins (m.predsAt 1) limit').1.ids ∧
            (s.origins [l] limit).1.hashes = (s.origins (m.predsAt 1) limit').1.hashes ∧
            (s.origins [l] limit).1.loads = (s.origins (m.predsAt 1) limit').1.loads + 1) ∧
          (m.predsAt 1 = [] →
            (s.origins [l] limit).1.ids = [] ∧ (s.origins [l] limit).1.constantWrites = [w]) := by
  intro s l w n hn hlive hload hw
  have hg : s.graph.Coherent := coherent_performAll host h
  have hstored : s.graph.LoadsStored l := loadsStored_performAll host h l
  have hmem : w ∈ n.predsAt 1 := hw ▸ List.mem_singleton.mpr rfl
  obtain ⟨hpass, horigin⟩ := hstored.passable hg.causal.formed hn hlive hload hmem
  obtain ⟨o, ho, hstore⟩ :=
    ((hstored n hn (Node.instruction_ne_none_of_is hload) hlive).2 hload).2 w hmem
  obtain ⟨m, hm, rfl⟩ := node?_of_outlines ho
  have hwritten : s.graph.writtenFrom w = m.predsAt 1 := by
    simp [writtenFrom, hm]
  refine ⟨m, hm, decide_eq_true hstore,
    hg.live_of_feeds hm ⟨n, hn, Node.fedBy_of_mem_predsAt hmem⟩, ?_⟩
  intro limit hopen
  have hexact := s.exact_of_not_exhausted hopen
  refine ⟨?_, fun hnil =>
    hexact.of_constant hn hload hw hpass horigin (hwritten.trans hnil)⟩
  intro limit' hopen'
  have hexact' := s.exact_of_not_exhausted hopen'
  exact hexact.through_load hg.causal hn hload hw hpass horigin (hwritten ▸ hexact')

/-- The word at `0` came from the caller, and the one at `1` was a constant. -/
theorem origins_through_loads_sumOfLoads :
    let s := (start ⟨{}, .text, 0⟩).performAll sumOfLoads
    (∀ action ∈ sumOfLoads, action.isOrderly = true) ∧
      ((s.graph.node? 5).any fun n =>
        !n.isDeleted && n.is .sload && decide (n.predsAt 1 = [3])) = true ∧
      ((s.graph.node? 6).any fun n =>
        !n.isDeleted && n.is .sload && decide (n.predsAt 1 = [4])) = true ∧
      (s.origins [5] 9).1.exhausted = false ∧ (s.origins [2] 9).1.exhausted = false ∧
      (s.origins [5] 9).1.ids = (s.origins [2] 9).1.ids ∧
      (s.origins [5] 9).1.hashes = (s.origins [2] 9).1.hashes ∧
      (s.origins [5] 9).1.loads = (s.origins [2] 9).1.loads + 1 ∧
      (s.origins [6] 9).1.exhausted = false ∧
      (s.origins [6] 9).1.ids = [] ∧ (s.origins [6] 9).1.constantWrites = [4] := by
  intro s
  have horderly : ∀ action ∈ sumOfLoads, action.isOrderly = true := by decide
  have hfirst : ((s.graph.node? 5).any fun n =>
      !n.isDeleted && n.is .sload && decide (n.predsAt 1 = [3])) = true := by decide +kernel
  have hsecond : ((s.graph.node? 6).any fun n =>
      !n.isDeleted && n.is .sload && decide (n.predsAt 1 = [4])) = true := by decide +kernel
  have hopen : (s.origins [5] 9).1.exhausted = false ∧ (s.origins [2] 9).1.exhausted = false ∧
      (s.origins [6] 9).1.exhausted = false := by decide +kernel
  have hwritten : (s.graph.node? 3).map (·.predsAt 1) = some [2] ∧
      (s.graph.node? 4).map (·.predsAt 1) = some [] := by decide +kernel
  have hthrough := origins_through_loads ⟨{}, .text, 0⟩ sumOfLoads horderly
  rw [show (start ⟨{}, .text, 0⟩).performAll sumOfLoads = s from rfl] at hthrough
  refine ⟨horderly, hfirst, hsecond, hopen.1, hopen.2.1, ?_⟩
  obtain ⟨n, hn, hread⟩ := (Option.any_eq_true ..).mp hfirst
  simp only [Bool.and_eq_true, Bool.not_eq_true', decide_eq_true_eq] at hread
  obtain ⟨⟨hlive, hload⟩, hw⟩ := hread
  obtain ⟨m, hm, -, -, hsame⟩ := hthrough 5 3 n hn hlive hload hw
  obtain ⟨n', hn', hread'⟩ := (Option.any_eq_true ..).mp hsecond
  simp only [Bool.and_eq_true, Bool.not_eq_true', decide_eq_true_eq] at hread'
  obtain ⟨⟨hlive', hload'⟩, hw'⟩ := hread'
  obtain ⟨m', hm', -, -, hconstant⟩ := hthrough 6 4 n' hn' hlive' hload' hw'
  rw [hm, hm', Option.map_some, Option.map_some] at hwritten
  have hpreds : m.predsAt 1 = [2] := Option.some.inj hwritten.1
  have hnil : m'.predsAt 1 = [] := Option.some.inj hwritten.2
  rw [hpreds] at hsame
  obtain ⟨hids, hhashes, hloads⟩ := (hsame 9 hopen.1).1 9 hopen.2.1
  exact ⟨hids, hhashes, hloads, hopen.2.2, (hconstant 9 hopen.2.2).2 hnil⟩

end Analysis
end OperandFlow
