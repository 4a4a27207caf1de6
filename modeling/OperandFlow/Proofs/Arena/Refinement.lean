import OperandFlow.Proofs.Arena.Answers

/-! Sessions with an arena are sessions with an analysis: whatever is called, an arena finds all
that it looks for, gives the answer that the analysis gives, and stands for the same graph then. -/
namespace OperandFlow

namespace Analysis

variable {s : Analysis}

theorem sound_perform (hs : s.graph.Sound) (a : Action) : (s.perform a).graph.Sound := by
  by_cases ha : a = .reset
  · subst ha
    exact Graph.sound_empty
  · exact hs.becomes (becomes_perform hs.consistent.causal ha)

theorem sound_act (hs : s.graph.Sound) (a : Action) : (s.act a).2.graph.Sound := by
  rw [act_eq_perform]
  exact sound_perform hs a

theorem sound_apply (hs : s.graph.Sound) (r : HookRecord) : (s.apply r).graph.Sound := by
  cases r with
  | pre e =>
    have hpre : s.apply (.pre e) = s.perform (.pre e none) := rfl
    rw [hpre]
    exact sound_perform hs (.pre e none)
  | post e =>
    have hpost : s.apply (.post e) = s.perform (.post e none) := rfl
    rw [hpost]
    exact sound_perform hs (.post e none)

theorem sound_replayLines (hs : s.graph.Sound) (line records : Nat) (lines : List (List UInt8)) :
    (s.replayLines line records lines).2.graph.Sound := by
  induction lines generalizing s line records with
  | nil => exact hs
  | cons bytes rest ih =>
    unfold replayLines
    split
    · exact hs
    · split
      · exact ih hs (line + 1) records
      · split
        · exact hs
        · exact ih (sound_apply hs _) (line + 1) (records + 1)

theorem sound_call (hs : s.graph.Sound) (c : Call) : (s.call c).2.graph.Sound := by
  cases c with
  | action a => exact sound_act hs a
  | query q => exact (s.graph_ask q).symm ▸ hs

theorem sound_run (host : Host) (calls : List Call) : ((start host).run calls).2.graph.Sound :=
  run_induction host Graph.sound_empty (fun _ _ _ hg hmove => hg.moves hmove) calls

end Analysis

namespace Journal

/-- What an arena keeps of the events. -/
def ledger (j : Journal) : Ledger := ⟨j.anomalies, j.profile, j.queries⟩

theorem queries_note (j : Journal) (e : Event) :
    (j.note e).queries = (j.ledger.note e).queries := by
  have hpush : (j.note e).history = j.history.push e := by cases e <;> rfl
  rw [queries, hpush, Array.toList_push, List.filterMap_append]
  cases e <;> simp [ledger, Ledger.note, queries]

theorem ledger_observe (j : Journal) (e : Event) : (j.observe e).ledger = j.ledger.note e := by
  unfold observe
  split_ifs with h
  · cases e with
    | consulted => rfl
    | _ => cases h
  · have hqueries := j.queries_note e
    cases e <;> exact congrArg (Ledger.mk _ _) hqueries

theorem ledger_observeAll (j : Journal) (es : List Event) :
    (j.observeAll es).ledger = j.ledger.noteAll es := by
  induction es generalizing j with
  | nil => rfl
  | cons e es ih =>
    change ((j.observe e).observeAll es).ledger = (j.ledger.note e).noteAll es
    rw [ih, ledger_observe]

end Journal

/-- The cell without the canonical form that is kept there. -/
def Cell.bare (c : Cell) : Cell := { c with rendering := none }

/-- The node without the canonical forms that are kept there. -/
def Item.bare (x : Item) : Item :=
  { x with
    fields := x.fields.map fun f => { f with cell := f.cell.bare }
    output := x.output.map Cell.bare }

/-- The node as it is stored before anything is looked at. -/
def Item.ofNode (n : Node) : Item where
  uid := n.uid
  function := n.function
  instruction := n.instruction
  kind := n.kind
  fields := n.slots.map fun s => ⟨⟨s.datum.id, s.datum.value, none⟩, s.preds⟩
  successors := n.successors
  awaiting := n.awaiting
  output := n.output.map fun d => ⟨d.id, d.value, none⟩
  state := n.state

theorem Item.ofNode_node {o : Options} (x : Item) : ofNode (x.node o) = x.bare := by
  unfold ofNode node bare
  simp only [List.map_map, Option.map_map]
  rfl

namespace Arena

/-- The arena stands for the analysis. -/
structure Represents (st : Arena) (s : Analysis) : Prop where
  holds : st.Holds s.host s.graph
  ledger : st.ledger = s.journal.ledger

theorem holds_start (host : Host) : (start host).Holds host .empty where
  host_eq := rfl
  graph_eq := congrArg (Graph.mk · []) Array.map_empty
  consistent x hx := absurd hx (Array.not_mem_empty x)
  sentinels _ := rfl
  ordered := List.Pairwise.nil
  members _ := rfl
  starts _ := rfl

theorem represents_start (host : Host) : (start host).Represents (Analysis.start host) :=
  ⟨holds_start host, rfl⟩

/-- From any arena that stands for `s` the computation gives the same answer as `y`, and leaves one
that stands for the analysis there. -/
def Follows {α : Type} (s : Analysis) (x : InPlace α) (y : α × Analysis) : Prop :=
  ∀ st : Arena, st.Represents s → ∃ st' : Arena, x st = some (y.1, st') ∧ st'.Represents y.2

variable {α β : Type} {s : Analysis} {x : InPlace α} {a : α}

theorem Meets.follows {g' : Graph} {es : List Event} (h : Meets s.host s.graph x a g' es) :
    Follows s x (a, { s with graph := g' }.log es) := by
  intro st hst
  obtain ⟨st', hrun, hholds, hledger⟩ := h st hst.holds
  refine ⟨st', hrun, hholds, ?_⟩
  rw [hledger, hst.ledger]
  exact (s.journal.ledger_observeAll es).symm

namespace Follows

theorem pure (s : Analysis) (a : α) : Follows s (pure a) (a, s) :=
  fun st h => ⟨st, rfl, h⟩

theorem bind {y : α × Analysis} {f : α → InPlace β} {z : β × Analysis} (hx : Follows s x y)
    (hf : Follows y.2 (f y.1) z) : Follows s (x >>= f) z := by
  intro st h
  obtain ⟨st₁, hrun₁, h₁⟩ := hx st h
  obtain ⟨st₂, hrun₂, h₂⟩ := hf st₁ h₁
  refine ⟨st₂, ?_, h₂⟩
  rw [bind_apply, hrun₁]
  exact hrun₂

/-- What is read from the arena is known from the analysis. -/
theorem get_bind {f : Arena → InPlace β} {z : β × Analysis}
    (hf : ∀ st : Arena, st.Represents s → Follows s (f st) z) : Follows s (get >>= f) z :=
  fun st h => hf st h st h

theorem note (s : Analysis) (e : Event) : Follows s (note e) ((), s.log [e]) :=
  (Meets.note e).follows

/-! ### Questions -/

theorem read {f : Arena → α} (hf : ∀ st : Arena, st.Represents s → f st = a) :
    Follows s (do return f (← get)) (a, s) :=
  get_bind fun st h => hf st h ▸ pure s (f st)

theorem ask (hs : s.graph.Sound) (q : Query) : Follows s (ask q) (s.ask q) := by
  cases q with
  | size => exact read fun st h => h.holds.size
  | node uid => exact (Meets.node uid).follows
  | report uid => exact (Meets.report hs uid).follows
  | hasOpcode uid opcode => exact (Meets.hasOpcode uid opcode).follows
  | leaderChain uid => exact (Meets.leaderChain hs uid).follows
  | trail chain => exact fun st h => ⟨st, attempt_apply (h.holds.trail hs chain), h⟩
  | loopBounds chain => exact fun st h => ⟨st, attempt_apply (h.holds.loopBounds chain), h⟩
  | origins seeds limit => exact (Meets.origins hs seeds limit).follows
  | originsOfSlot uid slot => exact (Meets.originsOfSlot hs uid slot).follows
  | isOrigin uid => exact (Meets.isOrigin hs uid).follows
  | ancestor uid opcode => exact (Meets.ancestor hs uid opcode).follows
  | unsupplied uid => exact (Meets.unsupplied uid).follows
  | terminals function => exact (Meets.terminals function).follows
  | paths function => exact (Meets.paths hs function).follows
  | repetitions => exact (Meets.repetitions hs).follows
  | shape function => exact (Meets.shape hs function).follows
  | fingerprint function => exact (Meets.fingerprint hs function).follows
  | dot function => exact read fun st h => congrArg (Graph.dot · function) h.holds.graph_eq
  | functions => exact read fun st h => h.holds.functions hs.consistent.causal.formed
  | sentinels function => exact read fun st h => h.holds.sentinels function
  | anomalies => exact read fun st h => congrArg Ledger.anomalies h.ledger
  | profile => exact read fun st h => congrArg Ledger.profile h.ledger

/-! ### Actions -/

theorem hookedOpcode (s : Analysis) (mnemonic : String) (hooked : Opcode → Bool) :
    Follows s (hookedOpcode mnemonic hooked) (s.hookedOpcode mnemonic hooked) := by
  unfold Arena.hookedOpcode Analysis.hookedOpcode
  cases Opcode.ofMnemonic mnemonic with
  | ok opcode => exact pure s _
  | error e => exact bind (note s _) (pure _ _)

theorem decodeCallData (s : Analysis) (opcode : Opcode) (address : UInt64) (data : Option String) :
    Follows s (decodeCallData opcode address data) (s.decodeCallData opcode address data) := by
  unfold Arena.decodeCallData Analysis.decodeCallData
  cases data.map fun text => Text.unhex (dropMarks text.toUTF8.toList) with
  | none => exact pure s _
  | some decoded =>
    cases decoded with
    | ok bytes => exact pure s _
    | error e => exact bind (note s _) (pure _ _)

theorem add (hs : s.graph.Sound) (a : Arrival) : Follows s (add a) (s.add a) :=
  (Meets.add hs a).follows

theorem complete (hs : s.graph.Sound) (function : String) (opcode : Opcode) (result : Value)
    (state : Option String) :
    Follows s (complete function opcode result state) (s.complete function opcode result state) :=
  (Meets.complete hs function opcode result state).follows

theorem flush (hs : s.graph.Sound) (function : Option String) :
    Follows s (flush function) ((), s.flush function) := by
  have hflush : s.flush function = { s with graph := (s.graph.flush s.host function).value }.log
      (s.graph.flush s.host function).events := by
    simp [Analysis.flush, Analysis.change]
  rw [hflush]
  exact (Meets.flush hs function).follows

theorem onPre (hs : s.graph.Sound) (e : PreEvent) (state : Option String) :
    Follows s (onPre e state) (s.onPre e state) := by
  obtain ⟨es, -, hhooked⟩ := s.hookedOpcode_eq e.opcode Opcode.reportsOperands
  have hstart := hookedOpcode s e.opcode Opcode.reportsOperands
  unfold Arena.onPre Analysis.onPre
  rw [hhooked] at hstart ⊢
  refine bind hstart ?_
  cases (Opcode.ofMnemonic? e.opcode).filter Opcode.reportsOperands with
  | none => exact pure _ _
  | some opcode =>
    obtain ⟨fs, -, hdecoded⟩ := (s.log es).decodeCallData_eq opcode e.address e.callData
    have hdecode := decodeCallData (s.log es) opcode e.address e.callData
    dsimp only
    rw [hdecoded] at hdecode ⊢
    refine bind hdecode ?_
    dsimp only
    generalize Arrival.mk e.function e.tx opcode e.address .unknown e.operands _ e.logData state = a
    have hlogged : ((s.log es).log fs).graph.Sound := hs
    refine bind (add hlogged a) ?_
    obtain ⟨answer, t⟩ := ((s.log es).log fs).add a
    cases answer with
    | ok uid => exact pure _ _
    | error error => exact bind (note _ _) (pure _ _)

theorem onPost (hs : s.graph.Sound) (e : PostEvent) (state : Option String) :
    Follows s (onPost e state) (s.onPost e state) := by
  obtain ⟨es, -, hhooked⟩ := s.hookedOpcode_eq e.opcode Opcode.reportsResult
  have hstart := hookedOpcode s e.opcode Opcode.reportsResult
  unfold Arena.onPost Analysis.onPost
  rw [hhooked] at hstart ⊢
  refine bind hstart ?_
  cases (Opcode.ofMnemonic? e.opcode).filter Opcode.reportsResult with
  | none => exact pure _ _
  | some opcode =>
    have hlogged : (s.log es).graph.Sound := hs
    refine bind (complete hlogged e.function opcode e.result state) ?_
    dsimp only
    obtain ⟨answer, t⟩ := (s.log es).complete e.function opcode e.result state
    cases answer with
    | ok uid => exact pure _ _
    | error error => exact bind (note _ _) (pure _ _)

theorem apply (hs : s.graph.Sound) (r : HookRecord) : Follows s (apply r) ((), s.apply r) := by
  cases r with
  | pre e => exact bind (onPre hs e none) (pure _ _)
  | post e => exact bind (onPost hs e none) (pure _ _)

theorem replayLines (hs : s.graph.Sound) (line records : Nat) (lines : List (List UInt8)) :
    Follows s (replayLines line records lines) (s.replayLines line records lines) := by
  induction lines generalizing s line records with
  | nil => exact pure _ _
  | cons bytes rest ih =>
    unfold Arena.replayLines Analysis.replayLines
    cases String.fromUTF8? (ByteArray.mk bytes.toArray) with
    | none => exact pure _ _
    | some text =>
      dsimp only
      split_ifs
      · exact ih hs (line + 1) records
      · cases HookRecord.read? text with
        | none => exact pure _ _
        | some record =>
          exact bind (apply hs record)
            (ih (Analysis.sound_apply hs record) (line + 1) (records + 1))

theorem replay (hs : s.graph.Sound) (trace : List UInt8) :
    Follows s (replay trace) (s.replay trace) := by
  have hlines := replayLines hs 1 0 (Analysis.linesOf [] trace)
  have hsound := Analysis.sound_replayLines hs 1 0 (Analysis.linesOf [] trace)
  unfold Arena.replay Analysis.replay
  refine get_bind fun st h => bind hlines ?_
  rw [h.holds.size]
  generalize s.replayLines 1 0 (Analysis.linesOf [] trace) = y at hsound
  obtain ⟨replayed, t⟩ := y
  cases replayed with
  | error e => exact pure _ _
  | ok records =>
    refine bind (flush hsound none) (get_bind fun st' h' => ?_)
    rw [h'.holds.size]
    exact bind (note _ _) (pure _ _)

theorem reset (s : Analysis) : Follows s reset ((), s.reset) := by
  intro st h
  have hledger : { Ledger.empty with queries := st.ledger.queries } = s.journal.reset.ledger := by
    rw [h.ledger]
    rfl
  obtain ⟨⟨hhost, hgraph, hconsistent, hsentinels, hordered⟩, hmembers, hstarts⟩ :=
    holds_start st.host
  exact ⟨_, rfl, ⟨⟨h.holds.host_eq, hgraph, h.holds.host_eq ▸ hconsistent, hsentinels, hordered⟩,
    hmembers, hstarts⟩, hledger⟩

theorem act (hs : s.graph.Sound) (a : Action) : Follows s (act a) (s.act a) := by
  cases a with
  | pre e state => exact onPre hs e state
  | post e state => exact onPost hs e state
  | replay trace => exact replay hs trace
  | flush function => exact flush hs function
  | add a => exact add hs a
  | complete function opcode result state => exact complete hs function opcode result state
  | findEdges uid => exact (Meets.findEdges hs uid).follows
  | remove uid => exact (Meets.discard hs uid).follows
  | reset => exact reset s

theorem call (hs : s.graph.Sound) (c : Call) : Follows s (call c) (s.call c) := by
  cases c with
  | action a => exact act hs a
  | query q => exact ask hs q

theorem run (hs : s.graph.Sound) (calls : List Call) : Follows s (run calls) (s.run calls) := by
  induction calls generalizing s with
  | nil => exact pure _ _
  | cons c calls ih => exact bind (call hs c) (bind (ih (Analysis.sound_call hs c)) (pure _ _))

end Follows

/-! ### Arenas that stand for one graph -/

/-- The same but for the canonical forms that are kept. -/
structure Alike (st st' : Arena) : Prop where
  items : st'.items.map Item.bare = st.items.map Item.bare
  sentinels : st'.sentinels = st.sentinels
  members : st'.members = st.members
  starts : st'.starts = st.starts
  pending : st'.pending = st.pending

/-- In a table in the order of its names none is listed twice. -/
theorem mem_iff_lookup {table : List (String × Sentinels)} (h : table.Pairwise (byName · ·))
    (name : String) (s : Sentinels) : (name, s) ∈ table ↔ table.lookup name = some s := by
  induction table with
  | nil => simp
  | cons first table ih =>
    obtain ⟨other, t⟩ := first
    obtain ⟨hfirst, hrest⟩ := List.pairwise_cons.mp h
    rw [List.mem_cons, lookup_cons, ih hrest, Prod.mk.injEq]
    split_ifs with hname
    · have hnone : table.lookup name = none := by
        rw [List.lookup_eq_none_iff]
        intro p hp
        have hlt : other < p.1 := of_decide_eq_true (hfirst p hp)
        exact bne_iff_ne.mpr (hname ▸ String.ne_of_lt hlt)
      simp [hname, hname ▸ hnone, eq_comm]
    · simp [hname]

theorem eq_of_lookup {l l' : List (String × Sentinels)} (hl : l.Pairwise (byName · ·))
    (hl' : l'.Pairwise (byName · ·)) (h : ∀ function, l.lookup function = l'.lookup function) :
    l = l' := by
  have hne : ∀ {a b : String × Sentinels}, byName a b = true → a ≠ b := by
    rintro a b hab rfl
    exact String.lt_irrefl a.1 (of_decide_eq_true hab)
  have hperm : l.Perm l' := by
    rw [List.perm_ext_iff_of_nodup (hl.imp hne) (hl'.imp hne)]
    rintro ⟨name, s⟩
    rw [mem_iff_lookup hl, mem_iff_lookup hl', h]
  refine hperm.eq_of_pairwise (fun a b _ _ hab hba => ?_) hl hl'
  exact absurd rfl (hne (isRanking_byName.trans a b a hab hba))

theorem Holds.alike {host host' : Host} {g : Graph} {st st' : Arena} (h : st.Holds host g)
    (h' : st'.Holds host' g) : st.Alike st' where
  items := by
    have hbare : ∀ {host : Host} {st : Arena}, st.Holds host g →
        st.items.map Item.bare = g.nodes.map Item.ofNode := by
      intro host st h
      rw [← h.graph_eq, graph, Array.map_map]
      exact Array.map_congr_left fun x _ => x.ofNode_node.symm
    rw [hbare h, hbare h']
  sentinels := eq_of_lookup h'.ordered h.ordered fun function =>
    (h'.sentinels function).trans (h.sentinels function).symm
  members := funext fun key => (h'.members key).trans (h.members key).symm
  starts := funext fun key => (h'.starts key).trans (h.starts key).symm
  pending := h'.pending.trans h.pending.symm

end Arena
end OperandFlow
