import OperandFlow.Proofs.Graph.Chains
import OperandFlow.Proofs.Graph.Hashing
import OperandFlow.Proofs.Graph.Routes

/-! A second search for the edges of a node finds nothing to do. -/
namespace OperandFlow

theorem Node.mem_predsAt_gain {n : Node} {links : List (NodeId × Nat)} {p : NodeId} {i : Nat}
    (hl : (p, i) ∈ links) (hne : p ≠ n.uid) (hi : i < n.slots.length) :
    p ∈ (n.gain links).predsAt i := by
  rw [predsAt, slots_gain, List.getElem?_eq_getElem hi]
  exact mem_gains.mpr (Or.inr ⟨hl, hne⟩)

/-- Two slots, each with what was found for it. -/
theorem Node.slots_gain_pair {n : Node} {key value : Slot} {f₀ f₁ : Option NodeId}
    (hslots : n.slots = [key, value]) (h₀ : ∀ p, f₀ = some p → p ≠ n.uid ∧ p ∉ key.preds)
    (h₁ : ∀ p, f₁ = some p → p ≠ n.uid ∧ p ∉ value.preds) :
    (n.gain (Graph.linksTo [f₀, f₁])).slots = [{ key with preds := key.preds ++ f₀.toList },
      { value with preds := value.preds ++ f₁.toList }] := by
  rw [Graph.slots_gain_linksTo]
  · rw [hslots]
    rfl
  · intro i s p hs hp
    rw [hslots] at hs
    rcases i with _ | _ | i
    · cases hs
      exact h₀ p (Option.some.inj hp)
    · cases hs
      exact h₁ p (Option.some.inj hp)
    · cases hs

namespace Graph

section Scope

variable {g g' : Graph} {n n' : Node}

theorem Blocked.links (hg : g.Blocked) (h : g.Links n g') : g'.Blocked where
  causal := hg.causal.links h
  led := h.outlines ▸ hg.led
  heads := h.outlines ▸ hg.heads

theorem Links.gain (h : g.Links n g') (hg : Formed g.outlines) (hn : g.node? n.uid = some n)
    (hinstr : n.instruction ≠ none) : ∃ links, g'.node? n.uid = some (n.gain links) := by
  obtain ⟨links, -, rfl⟩ := h
  exact ⟨links, node?_linkAll hg hn hinstr links⟩

/-- The node is no exit and comes before `n`, or is `n` and leads its own block. -/
def Upto (g : Graph) (n : Node) (i : NodeId) : Prop :=
  (i < n.uid ∨ i = n.uid ∧ n.is .jumpdest = true) ∧ ∃ m, g.node? i = some m ∧ m.kind ≠ .exit

theorem upto_of_precedes {a b : NodeId} (h : Precedes g.outlines a b) (hb : b ≤ n.uid) :
    g.Upto n a := by
  obtain ⟨hlt, p, -, hp, -, -, hexit, -⟩ := h
  obtain ⟨m, hm, rfl⟩ := node?_of_outlines hp
  exact ⟨Or.inl (Nat.lt_of_lt_of_le hlt hb), m, hm, by simpa using hexit⟩

theorem Upto.le {i : NodeId} (h : g.Upto n i) : i ≤ n.uid := by
  rcases h.1 with hlt | ⟨heq, -⟩
  · exact Nat.le_of_lt hlt
  · exact Nat.le_of_eq heq

section Links

variable (hg : g.Blocked) (hn : g.node? n.uid = some n) (hinstr : n.instruction ≠ none)
  (h : g.Links n g')
include hg hn hinstr h

theorem mirrors_links (hn' : g'.node? n.uid = some n')
    (hdest : n.is .jumpdest = true → n'.predsAt 0 = n.predsAt 0) :
    Mirrors id (g.Upto n) g g' where
  increasing _ _ hij := hij
  node := by
    rintro i ⟨hlt | ⟨rfl, hself⟩, m, hm, hkind⟩
    · obtain ⟨m', hm', -, hsame⟩ :=
        Keeps.links hg.causal.formed hn hinstr h (Nat.ne_of_lt hlt) m hm
      refine ⟨m, m', hm, hm', ?_⟩
      rw [hsame hkind]
      exact ⟨rfl, rfl, by rw [Option.map_id]; rfl, by rw [List.map_id]; rfl⟩
    · refine ⟨n, n', hn, hn', ?_⟩
      obtain ⟨links, hlinks⟩ := h.gain hg.causal.formed hn hinstr
      rw [hn'] at hlinks
      cases hlinks
      exact ⟨rfl, rfl, by rw [Option.map_id]; rfl, by rw [List.map_id]; exact hdest hself⟩
  leader := by
    intro i l m hi hm hl
    obtain ⟨x, hx, rfl⟩ := Option.map_eq_some_iff.mp hl
    rcases hg.causal.formed.leader (outlines_of_node? hm) hx with hself | hprec
    · exact hself.symm ▸ hi
    · exact upto_of_precedes hprec hi.le
  pred := by
    intro i p m hi hm hp
    obtain ⟨-, m', hm', hkind⟩ := id hi
    rw [hm] at hm'
    cases hm'
    exact upto_of_precedes
      (hg.causal.precedes_of_feeds hm hkind ⟨m, hm, Node.fedBy_of_mem_predsAt hp⟩) hi.le

/-- Linking a node does not change the blocks it was reached through, unless it is a jump destination
and gets another way in. -/
theorem leadersTo_links (hn' : g'.node? n.uid = some n')
    (hdest : n.is .jumpdest = true → n'.predsAt 0 = n.predsAt 0) :
    g'.leadersTo n.uid = g.leadersTo n.uid := by
  have hformed := hg.causal.formed
  obtain ⟨x, hx⟩ := Option.ne_none_iff_exists'.mp hinstr
  have hl : n.leader? = some x.leader := by rw [Node.leader?, hx, Option.map_some]
  obtain ⟨links, hlinks⟩ := h.gain hformed hn hinstr
  rw [hn'] at hlinks
  cases hlinks
  obtain ⟨s, hs, -, -⟩ := boundaries?_of_instruction hformed hn hinstr
  have hleader : g.Upto n x.leader := by
    rcases hformed.leader (outlines_of_node? hn) hx with hself | hprec
    · have hjump := (hg.heads (outlines_of_node? hn)).mp (hl.trans (congrArg some hself))
      exact hself.symm ▸ ⟨Or.inr ⟨rfl, decide_eq_true hjump⟩, n, hn, hformed.kind_ne_exit hn hinstr⟩
    · exact upto_of_precedes hprec (Nat.le_refl _)
  have hentry : g.Upto n s.entry :=
    upto_of_precedes (mayLink_entry hformed hn hinstr hs).1 (Nat.le_refl _)
  have hmap := ((mirrors_links hg hn hinstr h hn' hdest).leadersTo hn hn' hl hl hleader hentry
    (by rw [hs]; rfl) (by rw [boundaries?_congr h.outlines, hs]; rfl)).1
  rwa [List.map_id] at hmap

/-- Earlier nodes of the same call get other successors at most. -/
theorem traceBefore_links (hn' : g'.node? n.uid = some n') (limit : Nat) :
    (g'.traceBefore limit n').map Node.upstream = (g.traceBefore limit n).map Node.upstream := by
  have hformed := hg.causal.formed
  obtain ⟨links, hlinks⟩ := h.gain hformed hn hinstr
  rw [hn'] at hlinks
  cases hlinks
  apply traceBefore_congr hformed hn rfl
  · intro j _
    rw [h.outlines]
  · intro j hprec
    exact Keeps.links hformed hn hinstr h (Nat.ne_of_lt hprec.1)

theorem candidates_links (hn' : g'.node? n.uid = some n')
    (hdest : n.is .jumpdest = true → n'.predsAt 0 = n.predsAt 0) (limit : Nat) :
    (g'.candidates limit n').map Node.upstream = (g.candidates limit n).map Node.upstream := by
  apply candidates_congr (traceBefore_links hg hn hinstr h hn' limit)
  intro _
  have hleaders := leadersTo_links hg hn hinstr h hn' hdest
  obtain ⟨links, hlinks⟩ := h.gain hg.causal.formed hn hinstr
  rw [hn'] at hlinks
  cases hlinks
  exact hleaders

end Links

/-- A jump destination that is not entered, or from the first block, is only reached through that
block. -/
theorem leadersTo_of_first {s : Sentinels} (hg : g.Blocked) (hn : g.node? n.uid = some n)
    (hdest : n.is .jumpdest = true) (hs : g.sentinels? n.function = some s)
    (h : n.predsAt 0 = [] ∨ ∃ p m, n.predsAt 0 = [p] ∧ g.node? p = some m ∧ m.isEntry = false ∧
      m.leader? = some s.entry) : g.leadersTo n.uid = [s.entry, n.uid] := by
  have hformed := hg.causal.formed
  have hinstr := Node.instruction_ne_none_of_is hdest
  have hl : n.leader? = some n.uid :=
    (hg.heads (outlines_of_node? hn)).mpr (of_decide_eq_true hdest)
  have hlt : s.entry < n.uid := by
    have hs' : g.boundaries? n.uid = some s := by rw [boundaries?_of_node? hn, hs]
    exact (mayLink_entry hformed hn hinstr hs').1.1
  obtain ⟨-, he, -⟩ := hformed.of_sentinels? hs
  obtain ⟨e, he, ho⟩ := node?_of_outlines he
  have hentry : e.isEntry = true := congrArg Outline.isEntry ho
  have hnojump : e.is .jumpi = false := by
    rw [← Bool.not_eq_true]
    intro hjump
    exact Node.instruction_ne_none_of_is hjump (congrArg Outline.instruction ho)
  have hfirst : g.chainTo (some s.entry) s.entry = [s.entry] := by
    rw [chainTo]
    simp [stepBack, he, hentry]
  have hstay : ∀ {a : NodeId} {m : Node}, g.node? a = some m → g.isTaken? s.entry a = some false :=
    fun hm => isTaken?_eq_false he hm (by simp [hnojump])
  rw [leadersTo, leaderChain_of_sentinels? hn hl hs]
  dsimp only
  rw [chainTo]
  rcases h with hnil | ⟨p, m, hp, hm, hmentry, hml⟩
  · have hback : g.stepBack (some s.entry) n.uid = (some s.entry, []) := by
      simp [stepBack, hn, hformed.isEntry_eq_false hn hinstr, hdest, hnil]
    simp [hback, hlt, hfirst, trail?, hstay hn]
  · have hback : g.stepBack (some s.entry) n.uid =
        (some s.entry, if m.is .jumpi then [p] else []) := by
      simp [stepBack, hn, hformed.isEntry_eq_false hn hinstr, hdest, hp, hm, hmentry, hml]
    -- the conditional jump that was taken stands for the other branch
    by_cases hjump : m.is .jumpi = true
    · have htaken : g.isTaken? p n.uid = some true :=
        isTaken?_eq_true hm hn hjump hdest (by simp [hp])
      simp [hback, hlt, hfirst, hjump, trail?, hstay hm, htaken]
    · simp [hback, hlt, hfirst, hjump, trail?, hstay hn]

/-- Once all its slots are linked, the producers of a node are looked for among the same nodes. -/
theorem candidates_linkSlots {host : Host} (hg : g.Blocked) (hn : g.node? n.uid = some n)
    (hinstr : n.instruction ≠ none)
    (hn' : (g.linkSlots host n).value.1.node? n.uid = some n') (limit : Nat) :
    ((g.linkSlots host n).value.1.candidates limit n').map Node.upstream =
      (g.candidates limit n).map Node.upstream := by
  have hformed := hg.causal.formed
  have hlinks := links_linkSlots host hformed hn
  have hslots := slots_linkSlots hformed hn hinstr hn'
  have hpreds : n'.predsAt 0 = (n.slots[0]?.map fun s => s.preds ++
      (resolve host (g.candidates host.options.reach n) s).value.1.toList).getD [] := by
    rw [Node.predsAt, hslots, List.getElem?_map, Option.map_map]
    rfl
  cases hfound : n.slots[0]?.bind fun s =>
      (resolve host (g.candidates host.options.reach n) s).value.1 with
  | none =>
    apply candidates_links hg hn hinstr hlinks hn'
    intro _
    rw [hpreds, Node.predsAt]
    cases hs : n.slots[0]? with
    | none => rfl
    | some s =>
      rw [hs, Option.bind_some] at hfound
      simp [hfound]
  | some p =>
    obtain ⟨s, hs, hp⟩ := Option.bind_eq_some_iff.mp hfound
    by_cases hdest : n.is .jumpdest = true
    · obtain ⟨b, -, hb, -, -⟩ := hformed.boundaries hn
      have hnil := preds_of_resolve hp
      have hbefore : g.leadersTo n.uid = [b, n.uid] :=
        leadersTo_of_first hg hn hdest hb (Or.inl (by simp [Node.predsAt, hs, hnil]))
      -- the producer stands in the first block, which is the only one in reach
      obtain ⟨m, hm, rfl⟩ := resolve_value hp
      obtain ⟨l, hl, hlead⟩ := leader_of_mem_candidates hm
      obtain ⟨hnode, hlt, hfun, htx, -, -⟩ := mem_liveBefore hformed (List.mem_of_mem_filter hm)
      have hminstr := Node.instruction_ne_none_of_tx? htx.symm hinstr
      have hle : l ≤ m.uid := by
        obtain ⟨k, hk, -, hcases⟩ := hg.leader_cases hnode hminstr (hfun ▸ hb)
        rw [hlead] at hk
        cases hk
        rcases hcases with ⟨-, rfl⟩ | ⟨-, hlt'⟩
        · exact Nat.le_refl _
        · exact Nat.le_of_lt hlt'
      rw [hbefore, List.mem_pair] at hl
      obtain rfl : l = b := hl.resolve_right (Nat.ne_of_lt (Nat.lt_of_le_of_lt hle hlt))
      obtain ⟨m', hm', -, hsame⟩ := Keeps.links hformed hn hinstr hlinks (Nat.ne_of_lt hlt) m hnode
      have hm'_eq := hsame (hformed.kind_ne_exit hnode hminstr)
      have hmentry := hformed.isEntry_eq_false hnode hminstr
      obtain ⟨links, hgain⟩ := hlinks.gain hformed hn hinstr
      rw [hn'] at hgain
      cases hgain
      have hafter : (g.linkSlots host n).value.1.leadersTo n.uid = [l, n.uid] := by
        refine leadersTo_of_first (n := n.gain links) (hg.links hlinks) hn' hdest
          ((sentinels?_congr hlinks.outlines n.function).trans hb)
          (Or.inr ⟨m.uid, m', ?_, hm', ?_, ?_⟩)
        · rw [hpreds, hs]
          simp [hnil, hp]
        · rw [hm'_eq]
          exact hmentry
        · rw [hm'_eq]
          exact hlead
      exact candidates_congr (traceBefore_links hg hn hinstr hlinks hn' limit)
        fun _ => hafter.trans hbefore.symm
    · exact candidates_links hg hn hinstr hlinks hn' (fun h => absurd h hdest) limit

end Scope

section Finding

variable {host : Host} {l l' : List Node}

theorem resolve_congr (h : l'.map Node.upstream = l.map Node.upstream) (s : Slot) :
    (resolve host l' s).value = (resolve host l s).value := by
  have hfound : (producer? host l' s.datum).value = (producer? host l s.datum).value := by
    simp only [producer?, Logged.value_bind, Logged.value_find?, Logged.value_pure]
    exact find?_upstream (fun _ => rfl) h
  unfold resolve
  split_ifs
  · rfl
  · simp only [Logged.value_bind, Logged.value_pure, hfound]
  · rfl

/-- A slot that is resolved has a producer, from before or found. -/
theorem preds_of_resolved {s : Slot} (h : (resolve host l s).value.2 = true) :
    s.preds ++ (resolve host l s).value.1.toList ≠ [] := by
  intro hnil
  obtain ⟨hpreds, hfound⟩ := List.append_eq_nil_iff.mp hnil
  unfold resolve at h hfound
  simp only [hpreds, List.isEmpty_nil, Bool.not_true, Bool.false_eq_true, if_false] at h hfound
  split_ifs at h hfound
  simp only [Logged.value_bind, Logged.value_pure] at h hfound
  cases hp : (producer? host l s.datum).value <;> simp [hp] at h hfound

/-- For a slot that was linked to what was found, nothing is found any more. -/
theorem resolve_again (h : l'.map Node.upstream = l.map Node.upstream) (s : Slot) :
    (resolve host l' { s with preds := s.preds ++ (resolve host l s).value.1.toList }).value =
      (none, (resolve host l s).value.2) := by
  cases hfound : (resolve host l s).value.1 with
  | none =>
    rw [Option.toList_none, List.append_nil, resolve_congr h, ← hfound]
  | some pred =>
    have hnil := preds_of_resolve hfound
    have hresolved : (resolve host l s).value.2 = true := by
      by_contra hun
      rw [(resolve_unresolved (Bool.not_eq_true _ ▸ hun)).2] at hfound
      cases hfound
    rw [hresolved]
    simp [resolve, hnil]

end Finding

section Idle

variable {host : Host} {g : Graph} {n : Node}

/-- A node for whose slots nothing is found. -/
theorem idle_linkSlots (h : ∀ s ∈ n.slots,
    (resolve host (g.candidates host.options.reach n) s).value.1 = none) :
    (g.linkSlots host n).Idle (g, n.slots.map fun s =>
      (resolve host (g.candidates host.options.reach n) s).value.2) := by
  have hlooks := Logged.Idle.of_asking
    (asking_map (asking_resolve host (g.candidates host.options.reach n)) n.slots)
  rw [Logged.value_map] at hlooks
  refine hlooks.bind (Logged.Idle.bind (idle_linkEach ?_) ?_)
  · rintro ⟨f, i⟩ hf
    have hmem := List.fst_mem_of_mem_zipIdx hf
    simp only [List.map_map, List.mem_map] at hmem
    obtain ⟨s, hs, rfl⟩ := hmem
    exact h s hs
  · rw [List.map_map]
    exact .stop _

theorem idle_linkSlot {slot : Nat} {candidates : List Node}
    (h : ∀ s, n.slots[slot]? = some s → (resolve host candidates s).value.1 = none) :
    (g.linkSlot host n slot candidates).Idle g := by
  unfold linkSlot
  split
  · exact .stop g
  · rename_i s hs
    refine (Logged.Idle.of_asking (asking_resolve host candidates s)).bind ?_
    dsimp only
    rw [h s hs]
    exact .stop g

/-- A mask that stays as it is. -/
theorem idle_settleMask {resolved : List Bool} (h : (g.linkSlots host n).Idle (g, resolved))
    (hkept : resolved.length < 2 ∨
      2 ≤ ((resolved.zipIdx.filter (·.1)).map (·.2)).length) : (g.settleMask host n).Idle g := by
  refine h.bind ?_
  dsimp only
  split_ifs with hlen
  · exact .stop g
  · have hkept := hkept.resolve_left hlen
    split
    · rename_i hnil
      simp [hnil] at hkept
    · rename_i hone
      simp [hone] at hkept
    · exact .stop g

theorem idle_linkPreimage (h : n.predsAt 0 ≠ []) : (g.linkPreimage host n).Idle (.ok (), g) := by
  unfold linkPreimage
  cases hs : n.slots with
  | nil => exact .stop _
  | cons slot rest =>
    rw [Node.predsAt_zero hs] at h
    dsimp only
    rw [if_pos (by simpa using h)]
    exact .stop _

theorem idle_linkParameter (h : n.slots = [] ∨ n.predsAt 0 ≠ []) :
    (g.linkParameter host n).Idle g := by
  unfold linkParameter
  cases hs : n.slots with
  | nil => exact .stop _
  | cons slot rest =>
    have hpreds := h.resolve_left (by simp [hs])
    rw [Node.predsAt_zero hs] at hpreds
    dsimp only
    rw [if_pos (by simpa using hpreds)]
    exact .stop _

theorem idle_linkDestination (h : n.predsAt 0 ≠ []) : (g.linkDestination host n).Idle g := by
  unfold linkDestination
  rw [if_pos (by simpa using h)]
  exact .stop _

end Idle

section Again

variable {host : Host} {g g' : Graph} {n n' : Node}

section Search

variable (hg : g.Blocked) (hn : g.node? n.uid = some n) (hinstr : n.instruction ≠ none)
include hg hn hinstr

theorem relink_linkSlots (hn' : (g.linkSlots host n).value.1.node? n.uid = some n') :
    ((g.linkSlots host n).value.1.linkSlots host n').Idle (g.linkSlots host n).value := by
  have hformed := hg.causal.formed
  have hslots := slots_linkSlots hformed hn hinstr hn'
  have hscope := candidates_linkSlots hg hn hinstr hn' host.options.reach
  have hagain : ∀ t ∈ n'.slots, (resolve host ((g.linkSlots host n).value.1.candidates
      host.options.reach n') t).value.1 = none := by
    intro t ht
    rw [hslots] at ht
    obtain ⟨s, -, rfl⟩ := List.mem_map.mp ht
    rw [resolve_again hscope]
  have hresolved : (n'.slots.map fun t => (resolve host ((g.linkSlots host n).value.1.candidates
      host.options.reach n') t).value.2) = (g.linkSlots host n).value.2 := by
    rw [hslots, List.map_map, congrArg Prod.snd (linkSlots_value host g n)]
    apply List.map_congr_left
    intro s _
    rw [Function.comp_apply, resolve_again hscope]
  have hidle := idle_linkSlots hagain
  rw [hresolved] at hidle
  exact hidle

theorem relink_linkStore {key value : Slot} (hdest : n.is .jumpdest = false)
    (hslots : n.slots = [key, value])
    (hn' : (g.linkStore host n).value.node? n.uid = some n') :
    ((g.linkStore host n).value.linkStore host n').Idle (g.linkStore host n).value := by
  have hformed := hg.causal.formed
  have hscope := candidates_links hg hn hinstr (links_linkStore host hformed hn) hn'
    (by simp [hdest]) host.options.reach
  have hkeys := filter_upstream (p := (·.isOneOf storageKeyProducers)) (fun _ => rfl) hscope
  have hslots' : n'.slots = [{ key with preds := key.preds ++ (resolve host
        ((g.candidates host.options.reach n).filter (·.isOneOf storageKeyProducers))
          key).value.1.toList },
      { value with preds := value.preds ++ (resolve host
        (g.candidates host.options.reach n) value).value.1.toList }] := by
    rw [linkStore_value hslots, node?_linkAll hformed hn hinstr] at hn'
    cases hn'
    refine Node.slots_gain_pair hslots ?_ ?_
    · intro p hp
      obtain ⟨c, hc, huid⟩ := resolve_value hp
      rw [preds_of_resolve hp]
      exact ⟨ne_of_mem_candidates hformed ⟨c, List.mem_of_mem_filter hc, huid⟩, List.not_mem_nil⟩
    · intro p hp
      rw [preds_of_resolve hp]
      exact ⟨ne_of_mem_candidates hformed (resolve_value hp), List.not_mem_nil⟩
  refine Logged.Idle.bind (idle_linkSlot ?_) (idle_linkSlot ?_)
  · rw [hslots']
    rintro s ⟨rfl⟩
    rw [resolve_again hkeys]
  · rw [hslots']
    rintro s ⟨rfl⟩
    rw [resolve_again hscope]

theorem relink_linkLoad {key value : Slot} (hdest : n.is .jumpdest = false)
    (hslots : n.slots = [key, value])
    (hn' : (g.linkLoad host n).value.node? n.uid = some n') :
    ((g.linkLoad host n).value.linkLoad host n').Idle (g.linkLoad host n).value := by
  have hformed := hg.causal.formed
  have hscope := candidates_links hg hn hinstr (links_linkLoad host hformed hn) hn'
    (by simp [hdest]) host.options.reach
  have hkeys := filter_upstream (p := (·.isOneOf storageKeyProducers)) (fun _ => rfl) hscope
  generalize hwrite : (if value.preds.isEmpty then ((g.candidates host.options.reach n).find?
    (Node.writes host key.datum)).map (·.uid) else none) = write
  have hslots' : n'.slots = [{ key with preds := key.preds ++ (resolve host
        ((g.candidates host.options.reach n).filter (·.isOneOf storageKeyProducers))
          key).value.1.toList }, { value with preds := value.preds ++ write.toList }] := by
    rw [linkLoad_value hslots, hwrite, node?_linkAll hformed hn hinstr] at hn'
    cases hn'
    refine Node.slots_gain_pair hslots ?_ ?_
    · intro p hp
      obtain ⟨c, hc, huid⟩ := resolve_value hp
      rw [preds_of_resolve hp]
      exact ⟨ne_of_mem_candidates hformed ⟨c, List.mem_of_mem_filter hc, huid⟩, List.not_mem_nil⟩
    · intro p hp
      rw [hp] at hwrite
      split_ifs at hwrite with hnil
      obtain ⟨c, hc, huid⟩ := Option.map_eq_some_iff.mp hwrite
      rw [List.isEmpty_iff.mp hnil]
      exact ⟨ne_of_mem_candidates hformed ⟨c, List.mem_of_find?_eq_some hc, huid⟩,
        List.not_mem_nil⟩
  refine Logged.Idle.bind (idle_linkSlot ?_) ?_
  · rw [hslots']
    rintro s ⟨rfl⟩
    rw [resolve_again hkeys]
  · rw [hslots']
    dsimp only
    split_ifs with hif
    · exact .stop _
    -- a value without a producer had none before, and no write is in reach
    · rw [Bool.or_eq_true, not_or] at hif
      obtain ⟨hnil, rfl⟩ : value.preds = [] ∧ write = none := by simpa using hif.1
      have hnone : (((g.linkLoad host n).value.candidates host.options.reach n').find?
          fun m => (writesTo host key.datum m).value).map (·.uid) = none := by
        simp only [writesTo_value]
        rw [find?_upstream (fun _ => rfl) hscope, ← hwrite, hnil]
        rfl
      refine (Logged.Idle.of_asking (asking_find? (asking_writesTo host _) _)).bind ?_
      rw [Logged.value_find?, hnone]
      exact .stop _

theorem relink_settleMask (hsent : n.isSentinel = false)
    (hn' : (g.settleMask host n).value.node? n.uid = some n') (hlive : n'.isDeleted = false) :
    ((g.settleMask host n).value.settleMask host n').Idle (g.settleMask host n).value := by
  have hformed := hg.causal.formed
  have hlinks := links_linkSlots host hformed hn
  have hsettles := settles_settleMask host hformed hn hinstr
  generalize (g.settleMask host n).value = g' at hn' hsettles ⊢
  cases hsettles with
  | kept hkept =>
    have hidle : ((g.linkSlots host n).value.1.linkSlots host n').Idle
        ((g.linkSlots host n).value.1, (g.linkSlots host n).value.2) :=
      relink_linkSlots hg hn hinstr hn'
    exact idle_settleMask hidle (hkept.imp_left fun h => length_linkSlots host g n ▸ h)
  | removed =>
    have hg' : Formed (g.linkSlots host n).value.1.outlines := hlinks.outlines ▸ hformed
    obtain ⟨links, hk⟩ := hlinks.gain hformed hn hinstr
    rw [isDeleted_detach hg' hk hsent hn'] at hlive
    cases hlive
  | @collapsed only k t _ hkept hk ht =>
    rw [node?_update_self hk] at hn'
    cases hn'
    -- the slot that is left has a producer
    have hpreds : t.preds ≠ [] := by
      rw [slots_linkSlots hformed hn hinstr hk, List.getElem?_map, Option.map_eq_some_iff] at ht
      obtain ⟨s, hs, rfl⟩ := ht
      have honly := mem_resolved.mp (hkept ▸ List.mem_singleton_self only)
      rw [linkSlots_value, List.getElem?_map, hs] at honly
      exact preds_of_resolved (Option.some.inj honly)
    refine idle_settleMask (idle_linkSlots ?_) (Or.inl (by simp))
    intro s hs
    rw [List.mem_singleton.mp hs]
    simp [resolve, hpreds]

end Search

section Supplied

variable (hg : Formed g.outlines) (hn : g.node? n.uid = some n) (hinstr : n.instruction ≠ none)
include hg hn hinstr

/-- A link that was made is not made again. -/
theorem relink_linkFound (found : Option NodeId) (slot : Nat) :
    ((g.linkFound n.uid found slot).value.linkFound n.uid found slot).Idle
      (g.linkFound n.uid found slot).value := by
  cases found with
  | none => exact .stop _
  | some p =>
    have hnode := node?_link_self hg hn hinstr p slot
    unfold linkFound
    dsimp only
    generalize (g.link p n.uid slot).value = g₁ at hnode ⊢
    unfold link
    rw [hnode, Option.bind_some]
    cases hs : (n.gain [(p, slot)]).slots[slot]? with
    | none => exact .stop _
    | some s =>
      have hmem : p = n.uid ∨ p ∈ s.preds := by
        rw [n.slots_gain] at hs
        obtain ⟨t, -, rfl⟩ := Option.map_eq_some_iff.mp hs
        by_cases hp : p = n.uid
        · exact Or.inl hp
        · exact Or.inr (mem_gains.mpr (Or.inr ⟨List.mem_singleton.mpr rfl, hp⟩))
      dsimp only
      rw [if_pos hmem]
      exact .stop _

theorem relink_linkFromEntry :
    ((g.linkFromEntry n.uid).value.linkFromEntry n.uid).Idle (g.linkFromEntry n.uid).value := by
  have hout : (g.linkFromEntry n.uid).value.outlines = g.outlines := by
    rw [linkFromEntry, linkFound_value]
    exact outlines_of_cores (cores_linkAll g n.uid _)
  have hbounds := boundaries?_congr hout n.uid
  unfold linkFromEntry at hbounds ⊢
  rw [hbounds]
  exact relink_linkFound hg hn hinstr _ 0

theorem predsAt_linkFromEntry (hslot : n.slots ≠ [])
    (hn' : (g.linkFromEntry n.uid).value.node? n.uid = some n') : n'.predsAt 0 ≠ [] := by
  obtain ⟨b, hb, -, -⟩ := boundaries?_of_instruction hg hn hinstr
  have hlt := (mayLink_entry hg hn hinstr hb).1.1
  rw [linkFromEntry, hb, linkFound_value, node?_linkAll hg hn hinstr] at hn'
  cases hn'
  exact List.ne_nil_of_mem (Node.mem_predsAt_gain (List.mem_singleton.mpr rfl) (Nat.ne_of_lt hlt)
    (List.length_pos_iff.mpr hslot))

theorem relink_linkParameter (hn' : (g.linkParameter host n).value.node? n.uid = some n') :
    ((g.linkParameter host n).value.linkParameter host n').Idle
      (g.linkParameter host n).value := by
  apply idle_linkParameter
  unfold linkParameter at hn'
  cases hs : n.slots with
  | nil =>
    simp only [hs, Logged.value_pure] at hn'
    rw [hn] at hn'
    cases hn'
    exact Or.inl hs
  | cons offset rest =>
    right
    simp only [hs] at hn'
    split_ifs at hn' with hpreds hseek
    · rw [Logged.value_pure, hn] at hn'
      cases hn'
      rw [Node.predsAt_zero hs]
      simpa using hpreds
    · simp only [Logged.value_bind] at hn'
      have hlinks := links_linkSlots host hg hn
      obtain ⟨links, hk⟩ := hlinks.gain hg hn hinstr
      split_ifs at hn' with hfound
      · have hslots := slots_linkSlots hg hn hinstr hn'
        rw [hs, List.map_cons] at hslots
        rw [Node.predsAt_zero hslots]
        apply preds_of_resolved
        rw [linkSlots_value, hs] at hfound
        exact Option.some.inj hfound
      · refine predsAt_linkFromEntry (n := n.gain links) (hlinks.outlines ▸ hg) hk hinstr ?_ hn'
        have hlen : (n.gain links).slots.length = n.slots.length := List.length_mapIdx
        rw [← List.length_pos_iff, hlen, hs]
        exact Nat.succ_pos _
    · exact predsAt_linkFromEntry hg hn hinstr (by simp [hs]) hn'

theorem relink_linkDestination (hsent : n.isSentinel = false) (hslot : n.slots ≠ [])
    (hn' : (g.linkDestination host n).value.node? n.uid = some n') (hlive : n'.isDeleted = false) :
    ((g.linkDestination host n).value.linkDestination host n').Idle
      (g.linkDestination host n).value := by
  apply idle_linkDestination
  unfold linkDestination at hn'
  split_ifs at hn' with hpreds
  · rw [Logged.value_pure, hn] at hn'
    cases hn'
    simpa using hpreds
  · dsimp only at hn'
    split at hn'
    · rename_i source hsource
      have hlt := (mem_liveBefore hg (List.mem_of_find?_eq_some hsource)).2.1
      rw [node?_link_self hg hn hinstr] at hn'
      cases hn'
      exact List.ne_nil_of_mem (Node.mem_predsAt_gain (List.mem_singleton.mpr rfl)
        (Nat.ne_of_lt hlt) (List.length_pos_iff.mpr hslot))
    · split_ifs at hn'
      · have hgone : (g.detach n.uid).node? n.uid = some n' := hn'
        rw [isDeleted_detach hg hn hsent hgone] at hlive
        cases hlive
      · exact predsAt_linkFromEntry hg hn hinstr hslot hn'

/-- A hash that was linked stays as it is, and for one that was not nothing was found. -/
theorem relink_linkPreimage (h : (g.linkPreimage host n).value = (.ok (), g'))
    (hn' : g'.node? n.uid = some n') : (g'.linkPreimage host n').Idle (.ok (), g') := by
  -- either nothing was found and the same search is run again, or the slot is supplied
  have hsame : g' = g → Asking (g.linkPreimage host n).events →
      (g'.linkPreimage host n').Idle (.ok (), g') := by
    rintro rfl hevents
    rw [hn] at hn'
    cases hn'
    exact ⟨h, hevents⟩
  cases hs : n.slots with
  | nil =>
    simp only [linkPreimage, hs, Logged.value_pure, Logged.events_pure, Prod.mk.injEq,
      true_and] at h hsame
    exact hsame h.symm asking_nil
  | cons slot rest =>
    by_cases hnil : slot.preds = []
    · rw [linkPreimage_value hs hnil] at h
      cases hsources : preimageSources host (g.candidates host.options.reach n) n.uid
          slot.datum.rendering.text with
      | error e =>
        rw [hsources] at h
        cases h
      | ok sources =>
        rw [hsources] at h
        cases h
        cases hfirst : sources with
        | nil =>
          rw [hfirst] at hsources
          subst hfirst
          exact hsame rfl (asking_linkPreimage hs hnil (by rw [hsources]; rfl))
        | cons p others =>
          have hp : p ∈ sources := by simp [hfirst]
          rw [node?_linkAll hg hn hinstr] at hn'
          cases hn'
          rw [← hfirst]
          exact idle_linkPreimage (List.ne_nil_of_mem (Node.mem_predsAt_gain
            (List.mem_map.mpr ⟨p, hp, rfl⟩)
            (ne_of_mem_candidates hg (mem_preimageSources hsources hp)) (by simp [hs])))
    · have hidle : (g.linkPreimage host n).Idle (.ok (), g) :=
        idle_linkPreimage (by rw [Node.predsAt_zero hs]; exact hnil)
      rw [hidle.value] at h
      cases h
      exact hsame rfl hidle.asking

end Supplied

theorem relink_linkNode {o : Opcode} (hc : g.Consistent) (hg : g.Blocked)
    (hn : g.node? n.uid = some n) (hsent : n.isSentinel = false) (ho : n.opcode? = some o)
    (hn' : g'.node? n.uid = some n') (hkind : n'.kind = n.kind) (hlive : n'.isDeleted = false) :
    (g.linkNode host n o).value = (.ok (), g') →
      (g'.linkNode host n' o).Idle (.ok (), g') := by
  have hformed := hg.causal.formed
  have hinstr := hformed.instruction_ne_none hn hsent
  obtain ⟨k, hbegins, hevolves⟩ := hc.evolved hn
  have hslot : n.slots ≠ [] := List.length_pos_iff.mp (hevolves.slots_pos hbegins)
  have hstorage : o.isStorage = true → n.is .jumpdest = false ∧
      ∃ key value, n.slots = [key, value] := by
    intro h
    refine ⟨?_, List.length_eq_two.mp (hevolves.slots_storage hbegins ?_)⟩
    · rw [Node.is_eq ho]
      cases o <;> first | rfl | cases h
    · rw [ho]
      exact h
  have hsame : ∀ {g₁ : Graph}, g.Links n g₁ → g₁.node? n.uid = some n' →
      n'.leader? = n.leader? ∧ n'.uid = n.uid ∧
        n'.slots.all (·.value.isEmpty) = n.slots.all (·.value.isEmpty) := by
    intro g₁ hlinks hm
    obtain ⟨links, hgain⟩ := hlinks.gain hformed hn hinstr
    rw [hm] at hgain
    cases hgain
    have hdata := congrArg (List.all · fun d => d.value.isEmpty) (n.data_gain links)
    simp only [List.all_map] at hdata
    exact ⟨rfl, rfl, hdata⟩
  unfold linkNode
  rw [hkind]
  split
  · rintro ⟨rfl⟩
    obtain ⟨hdest, key, value, hslots⟩ := hstorage rfl
    exact (relink_linkStore hg hn hinstr hdest hslots hn').bind (.stop _)
  · rintro ⟨rfl⟩
    obtain ⟨hdest, key, value, hslots⟩ := hstorage rfl
    exact (relink_linkLoad hg hn hinstr hdest hslots hn').bind (.stop _)
  · intro h
    exact relink_linkPreimage hformed hn hinstr h hn'
  · rintro ⟨rfl⟩
    exact (relink_settleMask hg hn hinstr hsent hn' hlive).bind (.stop _)
  · rintro ⟨rfl⟩
    exact (relink_settleMask hg hn hinstr hsent hn' hlive).bind (.stop _)
  · rintro ⟨rfl⟩
    exact (relink_linkParameter hformed hn hinstr hn').bind (.stop _)
  · by_cases hall : n.slots.all (·.value.isEmpty) = true
    · rw [if_pos hall]
      rintro ⟨rfl⟩
      obtain ⟨-, huid, hall'⟩ := hsame ((Links.refl g n).linkFromEntry hformed hn hinstr) hn'
      rw [if_pos (hall'.trans hall), huid]
      exact (relink_linkFromEntry hformed hn hinstr).bind (.stop _)
    · rw [if_neg hall]
      rintro ⟨rfl⟩
      obtain ⟨-, -, hall'⟩ := hsame (links_linkSlots host hformed hn) hn'
      rw [if_neg (hall'.symm ▸ hall)]
      exact (relink_linkSlots hg hn hinstr hn').bind (.stop _)
  · rintro ⟨rfl⟩
    exact (relink_linkDestination hformed hn hinstr hsent hslot hn' hlive).bind (.stop _)
  · rename_i target _ hkind' _
    rintro ⟨rfl⟩
    obtain ⟨hleader, huid, -⟩ := hsame (links_linkFromLeader hformed hn hkind') hn'
    unfold linkFromLeader
    rw [hleader, huid]
    exact (relink_linkFound hformed hn hinstr n.leader? 0).bind (.stop _)
  -- Four kinds of nodes link all their slots, and four are not linked.
  iterate 4
    rintro ⟨rfl⟩
    exact (relink_linkSlots hg hn hinstr hn').bind (.stop _)
  all_goals
    rintro ⟨rfl⟩
    exact .stop _

/-- To search for the edges of a node once more changes nothing. -/
theorem idle_findEdges {uid : NodeId} (hc : g.Consistent) (hg : g.Blocked)
    (h : (g.findEdges host uid).value = (.ok (), g')) :
    (g'.findEdges host uid).Idle (.ok (), g') := by
  have hformed := hg.causal.formed
  have hsearched := searched_findEdges host hformed uid
  rw [h] at hsearched
  cases hn : g.node? uid with
  | none =>
    rw [findEdges, hn] at h
    cases h
  | some n =>
    obtain ⟨n', hn', hevolves⟩ := Extends.searched hformed hsearched hn
    have huid : n.uid = uid := hformed.uid_node hn
    subst huid
    unfold findEdges at h ⊢
    rw [hn] at h
    rw [hn']
    dsimp only at h ⊢
    rw [hevolves.opcode?_eq, hevolves.isSentinel_eq]
    cases hlive : n'.isDeleted with
    | true => exact .stop _
    | false =>
      have hkind : n'.kind = n.kind := by
        rcases hevolves.kind with hkind | ⟨-, hgone⟩
        · exact hkind
        · exact absurd hgone (of_decide_eq_false hlive)
      rw [hevolves.isDeleted_eq_false hlive] at h
      cases hsent : n.isSentinel with
      | true => exact .stop _
      | false =>
        cases ho : n.opcode? with
        | none => exact .stop _
        | some o =>
          rw [hsent, ho] at h
          have hstart : (Logged.emit (.edgeSearchStarted o n.uid)).Idle () :=
            ⟨rfl, by simp [Logged.emit, Asking, Event.isQuestion]⟩
          exact hstart.bind (relink_linkNode hc hg hn hsent ho hn' hkind hlive h)

/-- A search that fails only asks. -/
theorem asking_findEdges {uid : NodeId} {e : GraphError}
    (h : (g.findEdges host uid).value.1 = .error e) : Asking (g.findEdges host uid).events := by
  unfold findEdges at h ⊢
  split
  · exact asking_nil
  · rename_i n hn
    simp only [hn] at h
    split
    · rename_i o hflags ho
      simp only [hflags, ho, Logged.value_bind] at h
      obtain ⟨hkind, rfl, herror⟩ := linkNode_error h
      obtain ⟨slot, rest, hs, hnil, hsources⟩ := linkPreimage_error herror
      have hevents := asking_linkPreimage hs hnil (by rw [hsources]; rfl)
      have hstart : Asking (Logged.emit (.edgeSearchStarted .sha3 uid)).events := by
        simp [Logged.emit, Asking, Event.isQuestion]
      simp only [linkNode, hkind]
      exact hstart.append hevents
    · exact asking_nil

end Again
end Graph
end OperandFlow
