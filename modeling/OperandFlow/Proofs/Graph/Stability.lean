import OperandFlow.Proofs.Graph.Upkeep

/-! What is settled stays as it is: only a node that waits, or the newest one, gets other slots. -/
namespace OperandFlow.Graph

/-- From `g` to `g'` the node keeps its kind and, unless it is an exit, all but its successors. -/
def Keeps (g g' : Graph) (i : NodeId) : Prop :=
  ∀ n, g.node? i = some n → ∃ m, g'.node? i = some m ∧ m.kind = n.kind ∧
    (n.kind ≠ .exit → m = { n with successors := m.successors })

/-- The node at `e` is an exit. -/
def IsExit (os : Outlines) (e : NodeId) : Prop :=
  ∃ o, os[e]? = some o ∧ o.isExit = true

/-- Nothing follows a node that has just arrived. -/
theorem not_precedes_arrive (g : Graph) (n : Node) (exit b : NodeId) :
    ¬ Precedes (g.arrive n exit).outlines g.size b := by
  rintro ⟨hb, -, q, -, hq, -⟩
  have hsize := (Array.getElem?_eq_some_iff.mp hq).1
  rw [outlines_arrive, Array.size_push, size_outlines] at hsize
  exact Nat.not_lt.mpr (Nat.le_of_lt_succ hsize) hb

namespace Keeps

variable {g g₁ g₂ : Graph} {i uid : NodeId} {f : Node → Node}

theorem of_node? (h : ∀ n, g.node? i = some n → g₁.node? i = some n) : g.Keeps g₁ i := by
  intro n hn
  exact ⟨n, h n hn, rfl, fun _ => rfl⟩

theorem refl (g : Graph) (i : NodeId) : g.Keeps g i := of_node? fun _ hn => hn

theorem trans (h : g.Keeps g₁ i) (h₁ : g₁.Keeps g₂ i) : g.Keeps g₂ i := by
  intro n hn
  obtain ⟨m, hm, hkind, hsame⟩ := h n hn
  obtain ⟨k, hk, hkind₁, hsame₁⟩ := h₁ m hm
  refine ⟨k, hk, hkind₁.trans hkind, ?_⟩
  intro hexit
  rw [hsame₁ (hkind ▸ hexit), hsame hexit]

theorem update_of_ne (hi : i ≠ uid) (g : Graph) (f : Node → Node) : g.Keeps (g.update uid f) i :=
  of_node? fun _ hn => (node?_update_of_ne hi g f).trans hn

theorem update (hf : ∀ n, g.node? uid = some n → (f n).kind = n.kind ∧
    (n.kind ≠ .exit → f n = { n with successors := (f n).successors })) :
    g.Keeps (g.update uid f) i := by
  by_cases hi : i = uid
  · subst hi
    intro n hn
    exact ⟨f n, node?_update_self hn f, hf n hn⟩
  · exact update_of_ne hi g f

theorem update_successors (hf : ∀ n, f n = { n with successors := (f n).successors }) :
    g.Keeps (g.update uid f) i := by
  apply update
  intro n _
  exact ⟨by rw [hf n], fun _ => hf n⟩

theorem update_exit (hx : IsExit g.outlines uid) (hf : ∀ n, (f n).kind = n.kind) :
    g.Keeps (g.update uid f) i := by
  apply update
  intro n hn
  refine ⟨hf n, ?_⟩
  intro hexit
  obtain ⟨o, ho, hisExit⟩ := hx
  rw [outlines_of_node? hn] at ho
  cases ho
  exact absurd (by simpa using hisExit) hexit

theorem connect {pred : NodeId} {slot : Nat} {n : Node} (hg : Formed g.outlines)
    (hn : g.node? uid = some n) (hinstr : n.instruction ≠ none) (hi : i ≠ uid) :
    g.Keeps (g.connect pred uid slot) i := by
  obtain ⟨s, hs, -, hx⟩ := boundaries?_of_instruction hg hn hinstr
  unfold Graph.connect
  simp only [hs, Option.map_some]
  refine trans (trans (update_of_ne hi g _) (update_successors ?_)) (update_exit ?_ ?_)
  · intro m
    rw [Node.addSuccessor_eq]
    rfl
  · rw [outlines_update (fun m _ => (m.eraseSuccessor _).outline_addSuccessor uid),
      outlines_update (by intro m _; rfl)]
    exact ⟨_, hx, rfl⟩
  · intro m
    rfl

theorem links {n : Node} (hg : Formed g.outlines) (hn : g.node? n.uid = some n)
    (hinstr : n.instruction ≠ none) (h : g.Links n g₁) (hi : i ≠ n.uid) : g.Keeps g₁ i := by
  obtain ⟨links, -, rfl⟩ := h
  have key : (g.linkAll n.uid links).cores = g.cores ∧ g.Keeps (g.linkAll n.uid links) i := by
    apply linkAll_induction (P := fun g' => g'.cores = g.cores ∧ g.Keeps g' i) ⟨rfl, refl g i⟩
    intro g' pred slot m s ⟨hcores, hkeeps⟩ _ hm _ _ _
    obtain ⟨k, hk, hcore⟩ := node?_of_cores hcores hn
    rw [hm] at hk
    cases hk
    refine ⟨by rw [cores_connect, hcores], hkeeps.trans ?_⟩
    exact connect (outlines_of_cores hcores ▸ hg) hm ((Node.of_core hcore).1 ▸ hinstr) hi
  exact key.2

theorem release {pred exit : NodeId} (hx : IsExit g.outlines exit) :
    g.Keeps (release (some exit) uid g pred) i := by
  by_cases h : g.Stranded uid pred
  · rw [release_of_stranded h]
    refine trans (update_successors fun _ => rfl) (update_exit ?_ fun _ => rfl)
    rwa [outlines_update (by intro m _; rfl)]
  · rw [release_of_not_stranded h]
    exact update_successors fun _ => rfl

theorem releaseAll {exit : NodeId} (hx : IsExit g.outlines exit) (preds : List NodeId) :
    g.Keeps (preds.foldl (Graph.release (some exit) uid) g) i := by
  have key : (preds.foldl (Graph.release (some exit) uid) g).cores = g.cores ∧
      g.Keeps (preds.foldl (Graph.release (some exit) uid) g) i := by
    apply List.foldlRecOn preds
      (motive := fun g' : Graph => g'.cores = g.cores ∧ g.Keeps g' i) _ ⟨rfl, refl g i⟩
    intro g' ⟨hcores, hkeeps⟩ pred _
    refine ⟨by rw [cores_release, hcores], hkeeps.trans (release ?_)⟩
    rw [outlines_of_cores hcores]
    exact hx
  exact key.2

/-- A node that goes to exits only can be removed unnoticed. -/
theorem detach {n : Node} (hg : Formed g.outlines) (hn : g.node? uid = some n)
    (hsent : n.isSentinel = false) (hsucc : ∀ b ∈ n.successors, IsExit g.outlines b)
    (hi : i ≠ uid) : g.Keeps (g.detach uid) i := by
  obtain ⟨s, hs, -, hx⟩ := boundaries?_of_instruction hg hn (hg.instruction_ne_none hn hsent)
  have hwithdrawn : ∀ g', g'.cores = g.cores → g.Keeps g' i →
      g.Keeps (g'.withdraw uid n.successors) i := by
    intro g' hcores hkeeps
    have key : (g'.withdraw uid n.successors).cores = g.cores ∧
        g.Keeps (g'.withdraw uid n.successors) i := by
      unfold withdraw
      apply List.foldlRecOn n.successors
        (motive := fun g' : Graph => g'.cores = g.cores ∧ g.Keeps g' i) _ ⟨hcores, hkeeps⟩
      intro g' ⟨hcores, hkeeps⟩ b hb
      refine ⟨by rw [cores_update (by intro m _; rfl), hcores], hkeeps.trans ?_⟩
      exact update_exit (outlines_of_cores hcores ▸ hsucc b hb) fun _ => rfl
    exact key.2
  rw [detach_eq hn hs]
  have hreleased := hwithdrawn _ (cores_releaseAll uid s.exit n.predecessors g)
    (releaseAll ⟨_, hx, rfl⟩ n.predecessors)
  exact hreleased.trans (update_of_ne hi _ Node.bury)

/-- The search for the edges of a node that nothing follows leaves the other nodes alone. -/
theorem searched (hg : g.Coherent) (hlink : g.Linkable uid)
    (hlast : ∀ b, ¬ Precedes g.outlines uid b) (h : g.Searched uid g₁) (hi : i ≠ uid) :
    g.Keeps g₁ i := by
  have hformed := hg.causal.formed
  have hlinked : ∀ {n : Node} {g₂ : Graph}, g.node? uid = some n → n.isSentinel = false →
      g.Links n g₂ → g.Keeps g₂ i := by
    intro n g₂ hn hsent hlinks
    have huid : n.uid = uid := hformed.uid_node hn
    subst huid
    exact links hformed hn (hformed.instruction_ne_none hn hsent) hlinks hi
  cases h with
  | unchanged => exact refl g i
  | linked hn hlive hsent hlinks => exact hlinked hn hsent hlinks
  | removed hn hlive hsent hlinks =>
    rename_i n g₂
    have hg₂ : g₂.Coherent := hg.links hn (hlink _ hn).1 (hlink _ hn).2 hlinks
    obtain ⟨m, hm, -⟩ := node?_of_cores hlinks.cores hn
    refine (hlinked hn hsent hlinks).trans (detach hg₂.causal.formed hm
      (isSentinel_of_outlines hlinks.outlines hn hm ▸ hsent) ?_ hi)
    intro b hb
    have hfeeds : g₂.Feeds uid b := hg₂.agree.mp ((flows_iff hm).mpr hb)
    rcases hg₂.causal.sourced hfeeds with hprec | ⟨-, q, -, hq, -, -, hx⟩
    · exact absurd (hlinks.outlines ▸ hprec) (hlast b)
    · exact ⟨q, hq, hx⟩
  | collapsed hn hlive hsent hlinks hm hs hrest =>
    exact (hlinked hn hsent hlinks).trans (update_of_ne hi _ _)

theorem finish (hg : g.Coherent) (host : Host) (huid : uid ∈ g.pending) (hi : i ≠ uid) :
    g.Keeps (finish host g uid).value i := by
  have hunpend : g.Keeps (g.unpend uid) i := of_node? fun n hn => by
    rw [node?_unpend, if_neg hi, hn]
  refine hunpend.trans (searched (hg.unpend uid) (hg.linkable_unpend huid) ?_
    (searched_runEdgeSearch host (hg.unpend uid).causal.formed uid) hi)
  intro b
  rw [outlines_unpend]
  exact hg.paced.last huid

theorem flushWhere (hg : g.Coherent) (host : Host) (p : Node → Bool) (hi : i ∉ g.pending) :
    g.Keeps (g.flushWhere host p).value i := by
  rw [flushWhere_value]
  have hstep : ∀ (g' : Graph) (uid : NodeId), g'.Coherent ∧ i ∉ g'.pending ∧ g.Keeps g' i →
      uid ∈ g'.pending → (Graph.finish host g' uid).value.Coherent ∧
        i ∉ (Graph.finish host g' uid).value.pending ∧
        g.Keeps (Graph.finish host g' uid).value i := by
    intro g' uid ⟨hg', hi', hkeeps⟩ huid
    have hne : i ≠ uid := fun h => hi' (h ▸ huid)
    refine ⟨hg'.finish host huid, ?_, hkeeps.trans (finish hg' host huid hne)⟩
    rw [pending_finish host hg'.causal.formed, List.mem_filter]
    exact fun h => hi' h.1
  exact (finishAll_induction host (P := fun g' => g'.Coherent ∧ i ∉ g'.pending ∧ g.Keeps g' i)
    (fun g' h => h.1.causal.formed) hstep (hg.nodup_pendingWhere p)
    (fun uid huid => List.mem_of_mem_filter huid) ⟨hg, hi, refl g i⟩).2.2

theorem complete {host : Host} {function : String} {opcode : Opcode} {result : Value}
    {state : Option String} (hg : g.Coherent)
    (h : (g.complete host function opcode result state).value = (.ok uid, g₁))
    (hi : i ∉ g.pending) : g.Keeps g₁ i := by
  obtain ⟨hwait, rfl⟩ := complete_cases h
  have huid := (of_awaiting? hwait).1
  have hne : i ≠ uid := fun h => hi (h ▸ huid)
  obtain ⟨hg', hlink⟩ := hg.supplied huid host.options opcode result state
  have hkeeps : g.Keeps ((g.unpend uid).update uid
      (supply host.options opcode result state)) i := of_node? fun n hn => by
    rw [node?_update_of_ne hne, node?_unpend, if_neg hne, hn]
  refine hkeeps.trans (searched hg' hlink ?_
    (searched_runEdgeSearch host hg'.causal.formed uid) hne)
  intro b
  rw [outlines_update (by intro m _; rfl), outlines_unpend]
  exact hg.paced.last huid

theorem arrive {n : Node} {exit : NodeId} (hx : IsExit g.outlines exit) :
    g.Keeps (g.arrive n exit) i := by
  have hpush : g.Keeps (g.push n) i := of_node? fun m hm => node?_push_of_some hm n
  refine hpush.trans (update_exit (g := g.push n) ?_ fun _ => rfl)
  obtain ⟨o, ho, hexit⟩ := hx
  have hlt : exit < g.outlines.size := (Array.getElem?_eq_some_iff.mp ho).1
  refine ⟨o, ?_, hexit⟩
  rw [outlines_push, Array.getElem?_push, if_neg (Nat.ne_of_lt hlt), ho]

theorem readyFor (hg : g.Coherent) (host : Host) (a : Arrival) (hi : i ∉ g.pending) :
    g.Keeps (g.readyFor host a).1 i :=
  (flushWhere hg host _ hi).trans
    (of_node? fun _ hn => node?_withFunction_of_some hn host.options a.function)

theorem add {host : Host} {a : Arrival} (hg : g.Coherent) (ha : a.category = .unknown)
    (h : (g.add host a).value = (.ok uid, g₁)) (hi : i ∉ g.pending) : g.Keeps g₁ i := by
  intro n hn
  obtain ⟨hg₃, -, rfl, hlink⟩ := hg.arrival ha h
  obtain ⟨-, -, hx⟩ := (hg.readyFor host a).causal.formed.of_sentinels?
    (hg.causal.sentinels?_readyFor host a)
  have hkeeps₂ := readyFor hg host a hi
  obtain ⟨k, hk, -⟩ := hkeeps₂ n hn
  have hlt : i < (g.readyFor host a).1.size := lt_size_of_node? hk
  have hkeeps₃ := hkeeps₂.trans (arrive (n := (g.readyFor host a).1.nodeOf host.options
    (g.readyFor host a).2 a a.opcode.category) ⟨_, hx, rfl⟩)
  rcases receive_cases host a a.opcode.category (g.readyFor host a).1 (g.readyFor host a).2 with
    heq | ⟨hwait, heq⟩
  · rw [heq]
    exact hkeeps₃ n hn
  · rw [heq]
    refine hkeeps₃.trans (searched hg₃ (hlink hwait) (not_precedes_arrive _ _ _)
      (searched_runEdgeSearch host hg₃.causal.formed _) (Nat.ne_of_lt hlt)) n hn

end Keeps

/-- The node is there and waits for nothing. -/
def Settled (g : Graph) (i : NodeId) : Prop :=
  ∃ n, g.node? i = some n ∧ n.awaiting = false

theorem Settled.not_pending {g : Graph} {i : NodeId} (hg : g.Paced) (h : g.Settled i) :
    i ∉ g.pending := by
  obtain ⟨n, hn, hwait⟩ := h
  rw [← hg.awaiting_iff hn, hwait]
  exact Bool.false_ne_true

theorem Settled.keeps {g g' : Graph} {i : NodeId} (hg' : g'.Coherent) (h : g.Settled i)
    (hkeeps : g.Keeps g' i) : g'.Settled i := by
  obtain ⟨n, hn, hwait⟩ := h
  obtain ⟨m, hm, hkind, hsame⟩ := hkeeps n hn
  refine ⟨m, hm, ?_⟩
  by_cases hexit : n.kind = .exit
  · apply hg'.not_awaiting_of_bare hm
    exact (hg'.causal.formed.sentinel_iff hm).mp (m.isSentinel_iff.mpr (Or.inr (hkind.trans hexit)))
  · rw [hsame hexit]
    exact hwait

/-- What comes before an instruction of its call is settled and no exit. -/
theorem Coherent.settled_of_precedes {g : Graph} {a b : NodeId} (hg : g.Coherent)
    (h : Precedes g.outlines a b) :
    ∃ m, g.node? a = some m ∧ m.awaiting = false ∧ m.kind ≠ .exit := by
  obtain ⟨-, o, -, ho, -, -, hexit, -⟩ := id h
  obtain ⟨m, hm, rfl⟩ := node?_of_outlines ho
  refine ⟨m, hm, ?_, by simpa using hexit⟩
  by_contra hwait
  exact hg.paced.last ((hg.paced.awaiting_iff hm).mp (by simpa using hwait)) h

/-- What supplies a node, other than an exit, is settled and no exit. -/
theorem Coherent.settled_of_fedBy {g : Graph} {i p : NodeId} {n : Node} (hg : g.Coherent)
    (hn : g.node? i = some n) (hkind : n.kind ≠ .exit) (hfed : n.FedBy p) :
    ∃ m, g.node? p = some m ∧ m.awaiting = false ∧ m.kind ≠ .exit :=
  hg.settled_of_precedes (hg.causal.precedes_of_feeds hn hkind ⟨n, hn, hfed⟩)

end OperandFlow.Graph
