import OperandFlow.Proofs.Graph.Producers

/-! Operands that were resolved stay resolved, whatever else happens to the graph. -/
namespace OperandFlow

/-- Only instructions whose operands are not linked come without a kind. -/
theorem Arrival.opcode_of_unknown {a : Arrival} (h : a.kind a.opcode.category = .unknown) :
    a.opcode.computes = false ∧ a.opcode.isStorage = false := by
  unfold kind at h
  constructor
  · unfold Opcode.computes
    split <;> rename_i hopcode <;> simp_all [Opcode.category, Opcode.isCall]
  · unfold Opcode.isStorage
    split <;> rename_i hopcode <;> simp_all [Opcode.category]

theorem Arrival.opcode_of_controlFlow {a : Arrival} {target : Option Nat}
    (h : a.kind a.opcode.category = .controlFlow target) :
    a.opcode.category = .controlFlow ∧ a.opcode.isStorage = false := by
  have hcategory : a.opcode.category = .controlFlow := by
    unfold kind at h
    cases hcategory : a.opcode.category <;> simp_all
  refine ⟨hcategory, ?_⟩
  unfold Opcode.isStorage
  split <;> rename_i hopcode <;> simp_all [Opcode.category]

namespace Node.Fresh

variable {n m : Node}

theorem isDeleted (h : n.Fresh) : n.isDeleted = false := by
  obtain ⟨a, -, hkind⟩ := h.kind
  rw [Node.isDeleted, hkind]
  exact decide_eq_false (a.kind_ne _).2.2

/-- Only jump destinations lead themselves. -/
theorem leader_ne {o : Opcode} (h : n.Fresh) (ho : n.opcode? = some o) (hne : o ≠ .jumpdest) :
    n.leader? ≠ some n.uid := by
  intro hlead
  have hdest := h.leader.mp hlead
  rw [Node.is_eq ho, decide_eq_true_iff] at hdest
  exact hne hdest

theorem congr (h : n.Fresh) (huid : m.uid = n.uid) (hinstr : m.instruction = n.instruction)
    (hkind : m.kind = n.kind) (hunlinked : ∀ s ∈ m.slots, s.preds = [])
    (hlen : m.slots.length = n.slots.length) : m.Fresh where
  unlinked := hunlinked
  kind := by
    rw [hkind, opcode?, hinstr]
    exact h.kind
  storage := by
    intro o ho hstorage
    rw [opcode?, hinstr] at ho
    rw [hlen]
    exact h.storage o ho hstorage
  single := by
    intro target htarget
    rw [hlen]
    exact h.single target (hkind ▸ htarget)
  leader := by
    rw [leader?, Node.is, opcode?, hinstr, huid]
    exact h.leader

theorem supply (h : n.Fresh) (o : Options) (opcode : Opcode) (result : Value)
    (state : Option String) : (Graph.supply o opcode result state n).Fresh := by
  refine h.congr (m := Graph.supply o opcode result state n) rfl rfl rfl ?_ ?_
  · intro t ht
    rcases Graph.slots_supply ht with ht | hnil
    · exact h.unlinked t ht
    · exact hnil
  · unfold Graph.supply
    dsimp only
    split_ifs
    · exact List.length_modify _ _ _
    · rfl

end Node.Fresh

namespace Graph

theorem fresh_nodeOf {g : Graph} {a : Arrival} {s : Sentinels} (hg : Formed g.outlines)
    (hs : g.sentinels? a.function = some s) (o : Options) :
    (g.nodeOf o s a a.opcode.category).Fresh where
  unlinked := fun t ht => preds_fresh ht
  kind := ⟨a, rfl, rfl⟩
  storage := by
    intro opcode ho hstorage
    cases ho
    simp [nodeOf, Arrival.slotValues, hstorage, Options.slots]
  single := by
    intro target htarget
    obtain ⟨hcategory, hstorage⟩ := Arrival.opcode_of_controlFlow htarget
    simp [nodeOf, Arrival.slotValues, hstorage, hcategory, Options.slots]
  leader := by
    rw [Node.is_eq rfl, decide_eq_true_iff]
    exact leader_nodeOf hg hs o a.opcode.category

namespace Touches

variable {g g' : Graph} {uid : NodeId}

theorem lt_size_of_outlines (hout : g'.outlines = g.outlines) {i : NodeId} {m : Node}
    (hm : g'.node? i = some m) : i < g.size := by
  rw [← size_outlines, ← hout, size_outlines]
  exact lt_size_of_node? hm

theorem of_node? (hout : g'.outlines = g.outlines) (hlast : ∀ b, ¬ Precedes g.outlines uid b)
    (h : ∀ i, i ≠ uid → g'.node? i = g.node? i) : g.Touches uid g' where
  outlines := fun i _ => by rw [hout]
  last := hlast
  keeps := fun i hi => .of_node? fun n hn => (h i hi).trans hn
  added := fun _ _ _ hm _ => lt_size_of_outlines hout hm

theorem search (hg : g.Coherent) (hlink : g.Linkable uid)
    (hlast : ∀ b, ¬ Precedes g.outlines uid b) (host : Host) :
    g.Touches uid (g.runEdgeSearch host uid).value := by
  have hsearched := searched_runEdgeSearch host hg.causal.formed uid
  have hout := hsearched.outlines hg.causal.formed
  exact ⟨fun i _ => by rw [hout], hlast, fun i hi => .searched hg hlink hlast hsearched hi,
    fun _ _ _ hm _ => lt_size_of_outlines hout hm⟩

theorem not_precedes_size (g : Graph) (b : NodeId) : ¬ Precedes g.outlines g.size b := by
  rintro ⟨-, p, -, hp, -⟩
  have hlt := (Array.getElem?_eq_some_iff.mp hp).1
  rw [size_outlines] at hlt
  exact Nat.lt_irrefl _ hlt

theorem withFunction (o : Options) (function : String) :
    g.Touches g.size (g.withFunction o function).value.1 where
  outlines := by
    intro i hi
    obtain ⟨n, hn⟩ := exists_node?_of_lt (size_outlines g ▸ hi)
    rw [outlines_of_node? hn, outlines_of_node? (node?_withFunction_of_some hn o function)]
  last := not_precedes_size g
  keeps := fun i _ => .of_node? fun n hn => node?_withFunction_of_some hn o function
  added := by
    intro i _ m hm hinstr
    rcases node?_withFunction hm with hm | ⟨-, kind, -, rfl⟩
    · exact lt_size_of_node? hm
    · exact absurd rfl hinstr

theorem arrive {n : Node} {exit : NodeId} (hx : IsExit g.outlines exit) :
    g.Touches g.size (g.arrive n exit) where
  outlines := by
    intro i hi
    rw [outlines_arrive, Array.getElem?_push, if_neg (Nat.ne_of_lt hi)]
  last := not_precedes_size g
  keeps := fun i _ => .arrive hx
  added := by
    intro i hi m hm _
    have hlt := lt_size_of_node? hm
    rw [← size_outlines, outlines_arrive, Array.size_push, size_outlines] at hlt
    exact Nat.lt_of_le_of_ne (Nat.le_of_lt_succ hlt) hi

end Touches

/-- How an instruction stands: it waits and is not linked yet, lacks an operand, or is resolved. -/
def Accounts (host : Host) (lacks : NodeId → Prop) (g : Graph) (i : NodeId) : Prop :=
  ∀ n, g.node? i = some n → n.instruction ≠ none → n.isDeleted = false →
    (n.awaiting = true → n.Fresh) ∧
      (n.awaiting = false → lacks i ∨ n.Resolved host (g.candidates host.options.reach n))

def Accounted (host : Host) (lacks : NodeId → Prop) (g : Graph) : Prop :=
  ∀ i, g.Accounts host lacks i

section

variable {host : Host} {lacks : NodeId → Prop} {g g' : Graph} {uid i : NodeId}

/-- An instruction that is not touched stands as before. -/
theorem Accounts.touches (h : g.Touches uid g') (hg : g.Coherent) (hg' : Formed g'.outlines)
    (hi : i ≠ uid) (hold : g.Accounts host lacks i) : g'.Accounts host lacks i := by
  intro m hm hinstr hlive
  obtain ⟨n, successors, hn, hexit, rfl⟩ := h.exists_node? hg' hi hm hinstr
  obtain ⟨hfresh, hresolved⟩ := hold n hn hinstr hlive
  refine ⟨fun hwait => (hfresh hwait).congr rfl rfl rfl (hfresh hwait).unlinked rfl, ?_⟩
  intro hwait
  have hcandidates := h.candidates hg hg' hn hm (fun _ => ⟨hi, n, hn, hwait, hexit⟩)
    host.options.reach
  exact (hresolved hwait).imp_right fun hres => (hres.congr hcandidates).redirect successors

/-- A node that waits no longer does not wait after a search for its edges. -/
theorem awaiting_runEdgeSearch {n m : Node} (hg : Formed g.outlines) (hn : g.node? uid = some n)
    (hwait : n.awaiting = false) (hm : (g.runEdgeSearch host uid).value.node? uid = some m) :
    m.awaiting = false := by
  rcases (searched_runEdgeSearch host hg uid).cores_cases hg with
    ⟨hcores, -⟩ | ⟨k, -, -, -, hcores⟩
  · obtain ⟨k, hk, hcore⟩ := node?_of_cores hcores hn
    rw [hm] at hk
    cases hk
    rw [(Node.of_core hcore).2.2, hwait]
  · have hcore := hcores uid
    rw [getElem?_cores, hm, if_pos rfl, Option.map_some] at hcore
    exact (Node.of_core (n := k.bury) (Option.some.inj hcore)).2.2

/-- The search for its edges does not change where the producers of a node are looked for. -/
theorem candidates_search {n m : Node} (hg : g.Coherent) (hlink : g.Linkable uid)
    (hlast : ∀ b, ¬ Precedes g.outlines uid b) (hn : g.node? uid = some n)
    (hlead : n.leader? ≠ some uid) (hm : (g.runEdgeSearch host uid).value.node? uid = some m)
    (limit : Nat) :
    ((g.runEdgeSearch host uid).value.candidates limit m).map Node.upstream =
      (g.candidates limit n).map Node.upstream :=
  (Touches.search hg hlink hlast host).candidates hg
    (hg.searched hlink (searched_runEdgeSearch host hg.causal.formed uid)).causal.formed hn hm
    (fun h => absurd h hlead) limit

/-- The search for its edges resolves a fresh node that nothing follows. -/
theorem accounts_search {n : Node} (hg : g.Coherent) (hlink : g.Linkable uid)
    (hlast : ∀ b, ¬ Precedes g.outlines uid b) (hn : g.node? uid = some n) (hfresh : n.Fresh) :
    (g.runEdgeSearch host uid).value.Accounts host lacks uid := by
  have hformed := hg.causal.formed
  intro m hm _ hlive
  have hwait := awaiting_runEdgeSearch hformed hn (hlink n hn).1 hm
  refine ⟨fun h => absurd (hwait.symm.trans h) Bool.false_ne_true, fun _ => Or.inr ?_⟩
  by_cases hlead : n.leader? = some uid
  · -- A jump destination leads itself, and its operands are not linked.
    have hdest : n.is .jumpdest = true := hfresh.leader.mp (hformed.uid_node hn ▸ hlead)
    have hout := (Touches.search hg hlink hlast host).outline_eq hn hm
    have ho : m.opcode? = some .jumpdest := by
      rw [Node.opcode?, show m.instruction = n.instruction from congrArg Outline.instruction hout]
      simpa [Node.is, Node.opcode?] using hdest
    exact Node.resolved_of_other ho rfl rfl
  · have hres := resolved_runEdgeSearch hformed hn hfresh hfresh.isDeleted hm hlive
    exact hres.congr (candidates_search hg hlink hlast hn hlead hm _)

end

/-- The graph `g₁` comes from `g` by a change to one node, which is `n` then and can be linked. -/
structure Primes (g : Graph) (uid : NodeId) (g₁ : Graph) (n : Node) : Prop where
  touches : g.Touches uid g₁
  coherent : g₁.Coherent
  linkable : g₁.Linkable uid
  last : ∀ b, ¬ Precedes g₁.outlines uid b
  node : g₁.node? uid = some n

section

variable {g : Graph} {uid : NodeId} {n : Node}

theorem primes_unpend (hg : g.Coherent) (huid : uid ∈ g.pending) (hn : g.node? uid = some n) :
    g.Primes uid (g.unpend uid) { n with awaiting := false } where
  touches := by
    apply Touches.of_node? (outlines_unpend g uid) fun _ => hg.paced.last huid
    intro j hj
    rw [node?_unpend, if_neg hj]
  coherent := hg.unpend uid
  linkable := hg.linkable_unpend huid
  last := fun b => by rw [outlines_unpend]; exact hg.paced.last huid
  node := by
    rw [node?_unpend, if_pos rfl, hn]
    rfl

theorem primes_supply (hg : g.Coherent) (huid : uid ∈ g.pending) (hn : g.node? uid = some n)
    (o : Options) (opcode : Opcode) (result : Value) (state : Option String) :
    g.Primes uid ((g.unpend uid).update uid (supply o opcode result state))
      (supply o opcode result state { n with awaiting := false }) := by
  have hout : ((g.unpend uid).update uid (supply o opcode result state)).outlines =
      g.outlines := by
    rw [outlines_update (by intro m _; rfl), outlines_unpend]
  obtain ⟨hg₁, hlink⟩ := hg.supplied huid o opcode result state
  refine ⟨?_, hg₁, hlink, fun b => by rw [hout]; exact hg.paced.last huid,
    node?_update_self (primes_unpend hg huid hn).node _⟩
  apply Touches.of_node? hout fun _ => hg.paced.last huid
  intro j hj
  rw [node?_update_of_ne hj, node?_unpend, if_neg hj]

end

/-- What is known of a node from its arrival until it is linked, whether its result comes or not. -/
structure Outset where
  holds : NodeId → Node → Prop
  fresh : ∀ {i : NodeId} {n : Node}, holds i n → n.Fresh
  settle : ∀ {i : NodeId} {n : Node}, holds i n → holds i { n with awaiting := false }
  supply : ∀ {i : NodeId} {n : Node} {opcode : Opcode}, holds i n → n.is opcode = true →
    ∀ (o : Options) (result : Value) (state : Option String),
      holds i (Graph.supply o opcode result state n)

/-- A node is as it arrived until it is linked. -/
def Outset.plain : Outset where
  holds := fun _ n => n.Fresh
  fresh := id
  settle := fun h => h.congr rfl rfl rfl h.unlinked rfl
  supply := fun h _ o result state => h.supply o _ result state

/-- A property of single instructions that holds while a graph grows: a change elsewhere leaves it
alone, and the search for its edges gives it to a node at its outset that nothing follows. -/
structure Sustained (host : Host) (F : Outset) (Q : Graph → NodeId → Prop) : Prop where
  bare : ∀ {g : Graph} {i : NodeId}, (∀ n, g.node? i = some n → n.instruction = none) → Q g i
  fresh : ∀ {g : Graph} {i : NodeId} {n : Node}, Q g i → g.node? i = some n →
    n.instruction ≠ none → n.isDeleted = false → n.awaiting = true → F.holds i n
  elsewhere : ∀ {g g' : Graph} {uid i : NodeId}, g.Touches uid g' → g.Coherent →
    Formed g'.outlines → i ≠ uid → Q g i → Q g' i
  searched : ∀ {g : Graph} {uid : NodeId} {n : Node}, g.Coherent → g.Linkable uid →
    (∀ b, ¬ Precedes g.outlines uid b) → g.node? uid = some n → F.holds uid n →
    Q (g.runEdgeSearch host uid).value uid

namespace Sustained

variable {host : Host} {F : Outset} {Q : Graph → NodeId → Prop} (hQ : Sustained host F Q)
  {g g' : Graph} {uid : NodeId}
include hQ

theorem empty (i : NodeId) : Q Graph.empty i :=
  hQ.bare fun _ hn => by cases hn

/-- After a change to one node, which is at its outset then, and the search for its edges. -/
theorem search {g₁ : Graph} {n : Node} (h : ∀ i, Q g i) (hg : g.Coherent)
    (hprimes : g.Primes uid g₁ n) (hholds : F.holds uid n) :
    ∀ i, Q (g₁.runEdgeSearch host uid).value i := by
  obtain ⟨htouch, hg₁, hlink, hlast, hn⟩ := hprimes
  have hg₂ := hg₁.searched hlink (searched_runEdgeSearch host hg₁.causal.formed uid)
  intro j
  by_cases hj : j = uid
  · rw [hj]
    exact hQ.searched hg₁ hlink hlast hn hholds
  · exact hQ.elsewhere (Touches.search hg₁ hlink hlast host) hg₁ hg₂.causal.formed hj
      (hQ.elsewhere htouch hg hg₁.causal.formed hj (h j))

/-- A waiting node is at its outset. -/
theorem fresh_of_pending {n : Node} (h : ∀ i, Q g i) (hg : g.Coherent) (huid : uid ∈ g.pending)
    (hn : g.node? uid = some n) : F.holds uid n := by
  obtain ⟨m, hm, hinstr, hlive⟩ := hg.paced.live huid
  rw [hn] at hm
  cases hm
  exact hQ.fresh (h uid) hn hinstr hlive ((hg.paced.awaiting_iff hn).mpr huid)

theorem finish (h : ∀ i, Q g i) (hg : g.Coherent) (huid : uid ∈ g.pending) :
    ∀ i, Q (finish host g uid).value i := by
  obtain ⟨n, hn, -, -⟩ := hg.paced.live huid
  exact hQ.search h hg (primes_unpend hg huid hn) (F.settle (hQ.fresh_of_pending h hg huid hn))

theorem flushWhere (h : ∀ i, Q g i) (hg : g.Coherent) (p : Node → Bool) :
    ∀ i, Q (g.flushWhere host p).value i := by
  rw [flushWhere_value]
  exact (finishAll_induction host (P := fun g => g.Coherent ∧ ∀ i, Q g i)
    (fun g hg => hg.1.causal.formed)
    (fun g uid hg huid => ⟨hg.1.finish host huid, hQ.finish hg.2 hg.1 huid⟩)
    (hg.nodup_pendingWhere p) (fun uid huid => List.mem_of_mem_filter huid) ⟨hg, h⟩).2

theorem complete {function : String} {opcode : Opcode} {result : Value} {state : Option String}
    (h : ∀ i, Q g i) (hg : g.Coherent)
    (hcomplete : (g.complete host function opcode result state).value = (.ok uid, g')) :
    ∀ i, Q g' i := by
  obtain ⟨hwait, rfl⟩ := complete_cases hcomplete
  obtain ⟨huid, n, hn, -, hopcode⟩ := of_awaiting? hwait
  exact hQ.search h hg (primes_supply hg huid hn host.options opcode result state)
    (F.supply (F.settle (hQ.fresh_of_pending h hg huid hn)) hopcode host.options result state)

theorem readyFor (h : ∀ i, Q g i) (hg : g.Coherent) (a : Arrival) :
    ∀ i, Q (g.readyFor host a).1 i := by
  have hg₁ := hg.flushWhere host fun n => n.function = a.function && n.tx? = some a.tx
  have h₁ := hQ.flushWhere h hg fun n => n.function = a.function && n.tx? = some a.tx
  intro i
  by_cases hi : i = (g.flushWhere host
      fun n => n.function = a.function && n.tx? = some a.tx).value.size
  · apply hQ.bare
    intro n hn
    rcases node?_withFunction hn with hn | ⟨-, kind, -, rfl⟩
    · exact absurd (lt_size_of_node? hn) (hi ▸ Nat.lt_irrefl _)
    · rfl
  · exact hQ.elsewhere (Touches.withFunction host.options a.function) hg₁
      (hg.readyFor host a).causal.formed hi (h₁ i)

/-- An instruction arrives. Unless it is linked at once, the property has to hold of it as it is. -/
theorem add {a : Arrival} (h : ∀ i, Q g i) (hg : g.Coherent) (ha : a.category = .unknown)
    (hadd : (g.add host a).value = (.ok uid, g'))
    (harrives : ∀ n : Node, n.opcode? = some a.opcode →
      n.slots = host.options.slots uid (a.slotValues a.opcode.category) → n.Fresh → F.holds uid n)
    (hnew : ∀ n, g'.node? uid = some n → n.uid = uid → n.opcode? = some a.opcode →
      n.kind = a.kind a.opcode.category →
      n.slots = host.options.slots uid (a.slotValues a.opcode.category) → F.holds uid n →
      linksAtOnce a n = false → Q g' uid) :
    ∀ i, Q g' i := by
  have hg₂ := hg.readyFor host a
  have h₂ := hQ.readyFor h hg a
  have hs := hg.causal.sentinels?_readyFor host a
  obtain ⟨hg₃, rfl, rfl, hlink⟩ := hg.arrival ha hadd
  generalize (g.readyFor host a).1 = g₂ at *
  generalize (g.readyFor host a).2 = s at *
  obtain ⟨-, -, hx⟩ := hg₂.causal.formed.of_sentinels? hs
  have hlt : s.exit < g₂.size := size_outlines g₂ ▸ (Array.getElem?_eq_some_iff.mp hx).1
  have htouch : g₂.Touches g₂.size
      (g₂.arrive (g₂.nodeOf host.options s a a.opcode.category) s.exit) :=
    Touches.arrive ⟨_, hx, rfl⟩
  have hfresh := harrives _ rfl rfl (fresh_nodeOf hg₂.causal.formed hs host.options)
  have hn : (g₂.arrive (g₂.nodeOf host.options s a a.opcode.category) s.exit).node? g₂.size =
      some (g₂.nodeOf host.options s a a.opcode.category) := by
    rw [node?_arrive hlt, if_pos rfl]
  unfold receive at hnew ⊢
  dsimp only at hnew ⊢
  split_ifs at hnew ⊢ with honce
  · have hwait : (g₂.nodeOf host.options s a a.opcode.category).awaiting = false := by
      simp only [linksAtOnce, Bool.and_eq_true, Bool.not_eq_true'] at honce
      exact honce.2
    exact hQ.search h₂ hg₂ ⟨htouch, hg₃, hlink hwait, not_precedes_arrive g₂ _ _, hn⟩ hfresh
  · intro j
    by_cases hj : j = g₂.size
    · subst hj
      exact hnew _ hn rfl rfl rfl rfl hfresh (by simpa using honce)
    · exact hQ.elsewhere htouch hg₂ hg₃.causal.formed hj (h₂ j)

end Sustained

/-- Most properties only need the node to be fresh at its outset. -/
abbrev Upheld (host : Host) (Q : Graph → NodeId → Prop) : Prop := Sustained host .plain Q

theorem Upheld.add {host : Host} {Q : Graph → NodeId → Prop} (hQ : Upheld host Q) {g g' : Graph}
    {uid : NodeId} {a : Arrival} (h : ∀ i, Q g i) (hg : g.Coherent) (ha : a.category = .unknown)
    (hadd : (g.add host a).value = (.ok uid, g'))
    (hnew : ∀ n, g'.node? uid = some n → n.uid = uid → n.opcode? = some a.opcode →
      n.kind = a.kind a.opcode.category → n.Fresh → linksAtOnce a n = false → Q g' uid) :
    ∀ i, Q g' i :=
  Sustained.add hQ h hg ha hadd (fun _ _ _ hfresh => hfresh)
    fun n hn huid ho hkind _ => hnew n hn huid ho hkind

/-- Such a property may rest on which nodes lack an operand. It holds of an arrival that is not
linked yet, provided that one without an operand is known to lack it. -/
structure Recorded (host : Host) (Q : (NodeId → Prop) → Graph → NodeId → Prop) : Prop where
  upheld : ∀ lacks, Upheld host (Q lacks)
  mono : ∀ {lacks lacks' : NodeId → Prop} {g : Graph} {i : NodeId},
    (∀ i, lacks i → lacks' i) → Q lacks g i → Q lacks' g i
  arrived : ∀ {lacks : NodeId → Prop} {g : Graph} {i : NodeId} {a : Arrival} {n : Node},
    g.Coherent → g.node? i = some n → n.opcode? = some a.opcode →
    n.kind = a.kind a.opcode.category → n.Fresh →
    (n.awaiting = false → n.kind ≠ .unknown → a.missing? i ≠ none ∧ lacks i) → Q lacks g i

theorem Recorded.add {host : Host} {Q : (NodeId → Prop) → Graph → NodeId → Prop}
    (hQ : Recorded host Q) {lacks : NodeId → Prop} {g g' : Graph} {uid : NodeId} {a : Arrival}
    (h : ∀ i, Q lacks g i) (hg : g.Coherent) (ha : a.category = .unknown)
    (hadd : (g.add host a).value = (.ok uid, g'))
    (hlacks : a.kind a.opcode.category ≠ .unknown → a.missing? uid ≠ none → lacks uid) :
    ∀ i, Q lacks g' i := by
  refine (hQ.upheld lacks).add h hg ha hadd ?_
  intro n hn huid ho hkind hfresh hidle
  refine hQ.arrived (hg.add ha hadd) hn ho hkind hfresh ?_
  intro hwait hunknown
  have hmissing : a.missing? uid ≠ none := by
    intro hmissing
    rw [hkind] at hunknown
    simp [linksAtOnce, hkind, hunknown, huid, hmissing, hwait] at hidle
  exact ⟨hmissing, hlacks (hkind ▸ hunknown) hmissing⟩

section

variable {host : Host} {lacks : NodeId → Prop} {g g' : Graph} {uid i : NodeId}

/-- As long as nothing is asked of settled nodes, a fresh one stands as it should. -/
theorem accounts_of_fresh {n : Node} (hn : g.node? i = some n) (hfresh : n.Fresh) :
    g.Accounts host (fun _ => True) i := by
  intro m hm _ _
  cases hn.symm.trans hm
  exact ⟨fun _ => hfresh, fun _ => Or.inl trivial⟩

theorem upheld_accounts (host : Host) (lacks : NodeId → Prop) :
    Upheld host fun g i => g.Accounts host lacks i where
  bare := fun h n hn hinstr => absurd (h n hn) hinstr
  fresh := fun h hn hinstr hlive => (h _ hn hinstr hlive).1
  elsewhere := fun htouch hg hg' hi h => h.touches htouch hg hg' hi
  searched := accounts_search

/-- Beside how waiting nodes stand, a property is upheld that changes elsewhere leave alone and that
the search for its edges gives to a fresh node. -/
theorem upheld_beside_accounts {P : Graph → NodeId → Prop}
    (bare : ∀ {g : Graph} {i : NodeId}, (∀ n, g.node? i = some n → n.instruction = none) → P g i)
    (elsewhere : ∀ {g g' : Graph} {uid i : NodeId}, g.Touches uid g' → g.Coherent →
      Formed g'.outlines → i ≠ uid → P g i → P g' i)
    (searched : ∀ {g : Graph} {uid : NodeId} {n : Node}, g.Coherent → g.Linkable uid →
      (∀ b, ¬ Precedes g.outlines uid b) → g.node? uid = some n → n.Fresh →
      P (g.runEdgeSearch host uid).value uid) :
    Upheld host fun g i => g.Accounts host (fun _ => True) i ∧ P g i where
  bare := fun h => ⟨(upheld_accounts host _).bare h, bare h⟩
  fresh := fun h hn hinstr hlive hwait => (upheld_accounts host _).fresh h.1 hn hinstr hlive hwait
  elsewhere := fun htouch hg hg' hi h =>
    ⟨h.1.touches htouch hg hg' hi, elsewhere htouch hg hg' hi h.2⟩
  searched := fun hg hlink hlast hn hfresh =>
    ⟨accounts_search hg hlink hlast hn hfresh, searched hg hlink hlast hn hfresh⟩

theorem recorded_accounts (host : Host) :
    Recorded host fun lacks g i => g.Accounts host lacks i where
  upheld := upheld_accounts host
  mono := fun hlacks h n hn hinstr hlive =>
    ⟨(h n hn hinstr hlive).1, fun hwait => ((h n hn hinstr hlive).2 hwait).imp_left (hlacks _)⟩
  arrived := by
    intro lacks g i a n _ hn ho hkind hfresh hlacks m hm _ _
    rw [hn] at hm
    cases hm
    refine ⟨fun _ => hfresh, ?_⟩
    intro hwait
    by_cases hunknown : n.kind = .unknown
    · -- Without a kind there is nothing to resolve.
      obtain ⟨hcomputes, hstorage⟩ := Arrival.opcode_of_unknown (hkind ▸ hunknown)
      exact Or.inr (Node.resolved_of_other ho hcomputes hstorage)
    · exact Or.inl (hlacks hwait hunknown).2

theorem accounted_empty : empty.Accounted host lacks := (upheld_accounts host lacks).empty

theorem Accounted.fresh {n : Node} (h : g.Accounted host lacks) (hg : g.Coherent)
    (huid : uid ∈ g.pending) (hn : g.node? uid = some n) : n.Fresh :=
  (upheld_accounts host lacks).fresh_of_pending h hg huid hn

theorem Accounted.finish (h : g.Accounted host lacks) (hg : g.Coherent) (huid : uid ∈ g.pending) :
    (finish host g uid).value.Accounted host lacks :=
  (upheld_accounts host lacks).finish h hg huid

theorem Accounted.flushWhere (h : g.Accounted host lacks) (hg : g.Coherent) (p : Node → Bool) :
    (g.flushWhere host p).value.Accounted host lacks :=
  (upheld_accounts host lacks).flushWhere h hg p

theorem Accounted.complete {function : String} {opcode : Opcode} {result : Value}
    {state : Option String} (h : g.Accounted host lacks) (hg : g.Coherent)
    (hcomplete : (g.complete host function opcode result state).value = (.ok uid, g')) :
    g'.Accounted host lacks :=
  (upheld_accounts host lacks).complete h hg hcomplete

theorem Accounted.readyFor (h : g.Accounted host lacks) (hg : g.Coherent) (a : Arrival) :
    (g.readyFor host a).1.Accounted host lacks :=
  (upheld_accounts host lacks).readyFor h hg a

/-- An instruction arrives. It is linked, waits for its result, or lacks an operand. -/
theorem Accounted.add {a : Arrival} (h : g.Accounted host lacks) (hg : g.Coherent)
    (ha : a.category = .unknown) (hadd : (g.add host a).value = (.ok uid, g'))
    (hlacks : a.kind a.opcode.category ≠ .unknown → a.missing? uid ≠ none → lacks uid) :
    g'.Accounted host lacks :=
  (recorded_accounts host).add h hg ha hadd hlacks

end
end Graph
end OperandFlow
