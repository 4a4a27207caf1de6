import OperandFlow.Proofs.Arena.Refinement
import OperandFlow.Proofs.Graph.Data
import OperandFlow.Proofs.Simulation

/-! Looking at renderings ahead of time changes nothing but which of them were looked at. -/
namespace OperandFlow

/-- The host, eager to look at renderings or not. -/
def Host.withEager (host : Host) (eager : Bool) : Host :=
  { host with options := { host.options with eager := eager } }

namespace Event

def isLook : Event → Bool
  | consulted _ => true
  | _ => false

end Event

/-- The second row of events differs from the first by more looks at renderings. -/
structure Looks (es fs : List Event) : Prop where
  others : fs.filter (!·.isLook) = es.filter (!·.isLook)
  more : ∀ d, .consulted d ∈ es → .consulted d ∈ fs

namespace Looks

variable {es fs es' fs' : List Event}

theorem refl (es : List Event) : Looks es es := ⟨rfl, fun _ h => h⟩

theorem append (h : Looks es fs) (h' : Looks es' fs') : Looks (es ++ es') (fs ++ fs') where
  others := by rw [List.filter_append, List.filter_append, h.others, h'.others]
  more := by
    intro d hd
    rcases List.mem_append.mp hd with hd | hd
    · exact List.mem_append_left _ (h.more d hd)
    · exact List.mem_append_right _ (h'.more d hd)

end Looks

namespace Journal

/-- A journal that does not tell which renderings were looked at. -/
def bare (j : Journal) : Journal :=
  { j with history := j.history.filter (!·.isLook), rendered := {} }

theorem bare_observe_look (j : Journal) (d : Datum) :
    (j.observe (.consulted d)).bare = j.bare := by
  unfold observe
  split
  · rfl
  · simp [note, bare, Event.isLook, Profile.observe]

theorem bare_observe {e : Event} (h : e.isLook = false) (j : Journal) :
    (j.observe e).bare = j.bare.observe e := by
  cases e with
  | consulted d => cases h
  | _ => simp [observe, isRepeated, note, bare, Event.isLook]

theorem bare_observeAll (j : Journal) (es : List Event) :
    (j.observeAll es).bare = j.bare.observeAll (es.filter (!·.isLook)) := by
  induction es generalizing j with
  | nil => rfl
  | cons e es ih =>
    have hrest : (j.observeAll (e :: es)).bare =
        (j.observe e).bare.observeAll (es.filter (!·.isLook)) := ih (j.observe e)
    rw [hrest]
    cases hlook : e.isLook with
    | false =>
      rw [bare_observe hlook, List.filter_cons_of_pos (by simp [hlook])]
      rfl
    | true =>
      cases e with
      | consulted d => rw [bare_observe_look, List.filter_cons_of_neg (by simp [Event.isLook])]
      | _ => cases hlook

theorem mem_rendered_observe (j : Journal) (e : Event) (id : DatumId) :
    id ∈ (j.observe e).rendered ↔ id ∈ j.rendered ∨ ∃ d, e = .consulted d ∧ d.id = id := by
  cases e with
  | consulted d =>
    have hlook : (∃ d', Event.consulted d = .consulted d' ∧ d'.id = id) ↔ d.id = id := by simp
    rw [hlook]
    unfold observe
    split
    · next hrepeated =>
      have hmem : d.id ∈ j.rendered := hrepeated
      exact ⟨Or.inl, fun h => h.elim (fun h => h) (· ▸ hmem)⟩
    · rw [note, Std.HashSet.mem_insert, beq_iff_eq, or_comm]
  | _ => simp [observe, isRepeated, note]

theorem mem_rendered_observeAll (j : Journal) (es : List Event) (id : DatumId) :
    id ∈ (j.observeAll es).rendered ↔
      id ∈ j.rendered ∨ ∃ d, .consulted d ∈ es ∧ d.id = id := by
  induction es generalizing j with
  | nil => simp [observeAll]
  | cons e es ih =>
    have hrest : id ∈ (j.observeAll (e :: es)).rendered ↔
        id ∈ (j.observe e).rendered ∨ ∃ d, .consulted d ∈ es ∧ d.id = id := ih (j.observe e)
    rw [hrest, mem_rendered_observe]
    simp only [List.mem_cons]
    grind

theorem queries_bare (j : Journal) : j.bare.queries = j.queries := by
  unfold queries bare
  rw [Array.toList_filter, List.filterMap_filter]
  congr
  funext e
  cases e <;> rfl

/-- The second journal differs from the first by more looks at renderings. -/
structure Alike (j k : Journal) : Prop where
  bare : k.bare = j.bare
  rendered : ∀ id, id ∈ j.rendered → id ∈ k.rendered

theorem Alike.anomalies {j k : Journal} (h : j.Alike k) : k.anomalies = j.anomalies :=
  (congrArg Journal.anomalies h.bare :)

theorem Alike.profile {j k : Journal} (h : j.Alike k) : k.profile = j.profile :=
  (congrArg Journal.profile h.bare :)

theorem Alike.queries {j k : Journal} (h : j.Alike k) : k.queries = j.queries := by
  rw [← k.queries_bare, h.bare, j.queries_bare]

theorem Alike.observeAll {j k : Journal} {es fs : List Event} (h : j.Alike k) (he : Looks es fs) :
    (j.observeAll es).Alike (k.observeAll fs) where
  bare := by rw [bare_observeAll, bare_observeAll, h.bare, he.others]
  rendered := by
    intro id hid
    rw [mem_rendered_observeAll] at hid ⊢
    rcases hid with hid | ⟨d, hd, rfl⟩
    · exact Or.inl (h.rendered id hid)
    · exact Or.inr ⟨d, he.more d hd, rfl⟩

end Journal

/-- The second computation has the result of the first and looks at more renderings. -/
structure Logged.Looks {α : Type} (x y : Logged α) : Prop where
  value : y.value = x.value
  events : OperandFlow.Looks x.events y.events

namespace Logged.Looks

variable {α β : Type}

theorem refl (x : Logged α) : x.Looks x := ⟨rfl, .refl x.events⟩

theorem bind {x y : Logged α} {f h : α → Logged β} (hxy : x.Looks y)
    (hfh : ∀ a, (f a).Looks (h a)) :
    (x >>= f).Looks (y >>= h) where
  value := by rw [value_bind, value_bind, hxy.value, (hfh x.value).value]
  events := by
    rw [events_bind, events_bind, hxy.value]
    exact hxy.events.append (hfh x.value).events

end Logged.Looks

namespace Graph

variable (host : Host) (eager : Bool)

theorem resolve_withEager : resolve (host.withEager eager) = resolve host := by
  rfl

theorem linkSlots_withEager : linkSlots (host.withEager eager) = linkSlots host := by
  funext g n
  rw [linkSlots, resolve_withEager]
  rfl

theorem linkSlot_withEager : linkSlot (host.withEager eager) = linkSlot host := by
  funext g n slot candidates
  rw [linkSlot, resolve_withEager]
  rfl

theorem findEdges_withEager : findEdges (host.withEager eager) = findEdges host := by
  funext g uid
  unfold findEdges linkNode settleMask linkParameter linkStore linkLoad linkKey
  simp only [linkSlots_withEager, linkSlot_withEager]
  rfl

theorem runEdgeSearch_withEager : runEdgeSearch (host.withEager eager) = runEdgeSearch host := by
  funext g uid
  rw [runEdgeSearch, findEdges_withEager]
  rfl

theorem flushWhere_withEager : flushWhere (host.withEager eager) = flushWhere host := by
  have hfinish : finish (host.withEager eager) = finish host := by
    funext g uid
    rw [finish, runEdgeSearch_withEager]
    rfl
  funext p g
  rw [flushWhere, hfinish]
  rfl

theorem prepare_looks (data : List Datum) :
    (prepare (host.withEager false).options data).Looks
      (prepare (host.withEager true).options data) where
  value := rfl
  events := by
    refine ⟨?_, fun d hd => by cases hd⟩
    simp [prepare, Host.withEager, Event.isLook]

theorem add_looks (g : Graph) (a : Arrival) :
    (g.add (host.withEager false) a).Looks (g.add (host.withEager true) a) := by
  simp only [add, flushWhere_withEager, runEdgeSearch_withEager]
  cases a.category? with
  | error e => exact .refl _
  | ok category =>
    exact .bind (.refl _) fun _ => .bind (.refl _) fun _ => .bind (.refl _) fun _ =>
      .bind (prepare_looks host _) fun _ => .refl _

theorem complete_looks (g : Graph) (function : String) (opcode : Opcode) (result : Value)
    (state : Option String) :
    (g.complete (host.withEager false) function opcode result state).Looks
      (g.complete (host.withEager true) function opcode result state) := by
  simp only [complete, runEdgeSearch_withEager]
  cases g.awaiting? function opcode with
  | none => exact .refl _
  | some uid => exact .bind (prepare_looks host _) fun _ => .refl _

end Graph

namespace Analysis

/-- The same analysis for a host that is not eager and for one that is. -/
structure Alike (host : Host) (s t : Analysis) : Prop where
  lazy : s.host = host.withEager false
  eager : t.host = host.withEager true
  graph : t.graph = s.graph
  journal : s.journal.Alike t.journal

namespace Alike

variable {host : Host} {s t : Analysis} {α : Type}

theorem start (host : Host) :
    Alike host (start (host.withEager false)) (start (host.withEager true)) :=
  ⟨rfl, rfl, rfl, rfl, fun _ h => h⟩

theorem log (h : Alike host s t) (es : List Event) : Alike host (s.log es) (t.log es) :=
  ⟨h.lazy, h.eager, h.graph, h.journal.observeAll (.refl es)⟩

theorem reset (h : Alike host s t) : Alike host s.reset t.reset where
  lazy := h.lazy
  eager := h.eager
  graph := rfl
  journal := by
    refine ⟨?_, fun id hid => hid⟩
    have hhistory : t.journal.bare.history = s.journal.bare.history := by rw [h.journal.bare]
    exact congrArg (fun history => { Journal.empty with history := history }) hhistory

theorem query (h : Alike host s t) (question : Host → Graph → Logged α)
    (hq : question (host.withEager true) = question (host.withEager false)) :
    Agree (Alike host) (s.query question) (t.query question) := by
  unfold Analysis.query
  rw [h.eager, h.graph, hq, ← h.lazy]
  exact ⟨rfl, h.log _⟩

theorem change {action : Host → Graph → Logged (α × Graph)}
    (ha : ∀ g, (action (host.withEager false) g).Looks (action (host.withEager true) g))
    (h : Alike host s t) : Agree (Alike host) (s.change action) (t.change action) := by
  have hlooks := ha s.graph
  unfold Analysis.change
  rw [h.eager, h.graph, h.lazy]
  dsimp only
  rw [hlooks.value]
  exact ⟨rfl, rfl, rfl, rfl, h.journal.observeAll hlooks.events⟩

theorem add (h : Alike host s t) (a : Arrival) : Agree (Alike host) (s.add a) (t.add a) :=
  h.change (Graph.add_looks host · a)

theorem complete (h : Alike host s t) (function : String) (opcode : Opcode) (result : Value)
    (state : Option String) :
    Agree (Alike host) (s.complete function opcode result state)
      (t.complete function opcode result state) :=
  h.change (Graph.complete_looks host · function opcode result state)

theorem findEdges (h : Alike host s t) (uid : NodeId) :
    Agree (Alike host) (s.findEdges uid) (t.findEdges uid) := by
  apply h.change
  intro g
  rw [Graph.findEdges_withEager, Graph.findEdges_withEager]
  exact .refl _

theorem flush (h : Alike host s t) (function : Option String) :
    Alike host (s.flush function) (t.flush function) := by
  refine (h.change ?_).related
  intro g
  rw [Graph.flush, Graph.flush, Graph.flushWhere_withEager, Graph.flushWhere_withEager]
  exact .refl _

theorem remove (h : Alike host s t) (uid : NodeId) : Agree (Alike host) (s.remove uid) (t.remove uid) :=
  h.change fun _ => .refl _

theorem simulation (host : Host) : Simulation (Alike host) where
  graph := Alike.graph
  log := Alike.log
  reset := Alike.reset
  flush := Alike.flush
  add := Alike.add
  complete := Alike.complete
  findEdges := Alike.findEdges
  remove := Alike.remove

theorem pure (h : Alike host s t) (f : Graph → α) : Agree (Alike host) (f s.graph, s) (f t.graph, t) :=
  ⟨congrArg f h.graph, h⟩

theorem ask (h : Alike host s t) (q : Query) : Agree (Alike host) (s.ask q) (t.ask q) := by
  cases q with
  | size => exact h.pure Graph.size
  | node uid => exact h.pure (·.node uid)
  | report uid => exact h.query (fun _ g => g.report uid) rfl
  | hasOpcode uid opcode => exact h.pure fun g => (g.node? uid).any (·.is opcode)
  | leaderChain uid => exact h.pure (·.leaderChain uid)
  | trail chain => exact h.pure (·.trail? chain)
  | loopBounds chain =>
    refine ⟨?_, h⟩
    simp only [Analysis.ask, loopBounds?, h.graph, h.lazy, h.eager]
    rfl
  | origins seeds limit => exact h.query (fun host g => g.origins host seeds limit) rfl
  | originsOfSlot uid slot => exact h.query (fun host g => g.originsOfSlot host uid slot) rfl
  | isOrigin uid => exact h.pure (·.isOrigin uid)
  | ancestor uid opcode => exact h.query (fun host g => g.ancestor? host uid opcode) rfl
  | unsupplied uid => exact h.pure (·.unsupplied uid)
  | terminals function => exact h.pure (·.terminals function)
  | paths function => exact h.query (fun _ g => g.paths function) rfl
  | repetitions =>
    refine ⟨?_, h⟩
    simp only [Analysis.ask, repetitions?, h.graph, h.lazy, h.eager]
    rfl
  | shape function => exact h.pure (·.shape function)
  | fingerprint function => exact h.pure (·.fingerprint function)
  | dot function => exact h.pure (·.dot function)
  | functions => exact h.pure Graph.functions
  | sentinels function => exact h.pure (·.sentinels? function)
  | anomalies => exact ⟨h.journal.anomalies, h⟩
  | profile => exact ⟨h.journal.profile, h⟩

theorem call (h : Alike host s t) (c : Call) : Agree (Alike host) (s.call c) (t.call c) := by
  cases c with
  | action a => exact (simulation host).act h a
  | query q => exact h.ask q

theorem run (h : Alike host s t) (calls : List Call) : Agree (Alike host) (s.run calls) (t.run calls) := by
  induction calls generalizing s t with
  | nil => exact ⟨rfl, h⟩
  | cons c calls ih =>
    obtain ⟨answer, s₁, t₁, hs₁, ht₁, h₁⟩ := (h.call c).exists_eq
    obtain ⟨answers, s₂, t₂, hs₂, ht₂, h₂⟩ := (ih h₁).exists_eq
    simp only [Analysis.run, hs₁, ht₁, hs₂, ht₂]
    exact ⟨rfl, h₂⟩

end Alike

/-- Two hosts that differ in their eagerness get the same answers to the same calls, and find the
same graph, anomalies and queries to the oracle then. All that their journals disagree on is which
renderings were looked at. So it is in place: the arenas are the same but for the renderings that
are kept, and whatever is kept is what would be worked out instead. -/
theorem eager_agrees_with_lazy (host : Host) (calls : List Call) :
    let s := (start (host.withEager false)).run calls
    let t := (start (host.withEager true)).run calls
    t.1 = s.1 ∧ t.2.graph = s.2.graph ∧ t.2.journal.anomalies = s.2.journal.anomalies ∧
      t.2.journal.queries = s.2.journal.queries ∧ t.2.journal.bare = s.2.journal.bare ∧
      (∀ d, s.2.isRendered d = true → t.2.isRendered d = true) ∧
      (∀ i n, s.2.graph.node? i = some n → ∀ d ∈ n.data,
        d.rendering =
          .ofExpr host.options.maxExpressionLength host.options.deadline d.value.expr) ∧
      ∃ lazy eager : Arena,
        Arena.run calls (.start (host.withEager false)) = some (s.1, lazy) ∧
        Arena.run calls (.start (host.withEager true)) = some (s.1, eager) ∧
        lazy.Represents s.2 ∧ eager.Represents t.2 ∧ lazy.Alike eager ∧
        eager.ledger = lazy.ledger ∧
        (∀ x ∈ lazy.items, x.Consistent host.options) ∧
        ∀ x ∈ eager.items, x.Consistent host.options := by
  intro s t
  obtain ⟨hanswer, halike⟩ := (Alike.start host).run calls
  have hdata : s.2.graph.AllData fun d =>
      d.rendering = .ofExpr host.options.maxExpressionLength host.options.deadline d.value.expr := by
    refine run_induction (host.withEager false) ?_ ?_ calls
    · intro i n hn
      cases hn
    · intro g g' hg h hmoves
      refine h.moves hg ?_ hmoves
      intro uid place value
      rfl
  obtain ⟨lazy, hlazy, hs⟩ :=
    Arena.Follows.run Graph.sound_empty calls _ (Arena.represents_start (host.withEager false))
  obtain ⟨eager, heager, ht⟩ :=
    Arena.Follows.run Graph.sound_empty calls _ (Arena.represents_start (host.withEager true))
  have hledger : t.2.journal.ledger = s.2.journal.ledger := by
    unfold Journal.ledger
    rw [halike.journal.anomalies, halike.journal.profile, halike.journal.queries]
  have hkept := hs.holds.consistent
  have hkept' := ht.holds.consistent
  have hheld := ht.holds
  rw [halike.lazy] at hkept
  rw [halike.eager] at hkept'
  rw [halike.graph] at hheld
  exact ⟨hanswer, halike.graph, halike.journal.anomalies, halike.journal.queries,
    halike.journal.bare, fun d => halike.journal.rendered d.id, hdata, lazy, eager, hlazy,
    hanswer ▸ heager, hs, ht, hs.holds.alike hheld, by rw [ht.ledger, hs.ledger, hledger],
    fun x hx => ⟨(hkept x hx).fields, (hkept x hx).output⟩,
    fun x hx => ⟨(hkept' x hx).fields, (hkept' x hx).output⟩⟩

/-- The key that is stored to is a literal, which only an eager host looks at. -/
theorem eager_agrees_with_lazy_storeOfCaller :
    let calls := storeOfCaller.map Call.action ++ [.query (.report 2), .query (.origins [3] 9)]
    let s := (start (Host.withEager ⟨{}, .text, 0⟩ false)).run calls
    let t := (start (Host.withEager ⟨{}, .text, 0⟩ true)).run calls
    t.1 = s.1 ∧ t.1.length = 5 ∧ t.2.graph = s.2.graph ∧
      (∃ n, s.2.graph.node? 3 = some n ∧ n.data.map (·.value) = [⟨256, "0"⟩, ⟨256, "caller"⟩] ∧
        ∀ d ∈ n.data, d.rendering = .ofExpr 65536 .never d.value.expr) ∧
      ∃ lazy eager : Arena,
        Arena.run calls (.start (Host.withEager ⟨{}, .text, 0⟩ false)) = some (s.1, lazy) ∧
        Arena.run calls (.start (Host.withEager ⟨{}, .text, 0⟩ true)) = some (s.1, eager) ∧
        lazy.Alike eager ∧
        lazy.items[3]?.map (·.fields.map (·.cell.rendering.isSome)) = some [false, true] ∧
        eager.items[3]?.map (·.fields.map (·.cell.rendering.isSome)) = some [true, true] := by
  intro calls s t
  obtain ⟨hanswer, hgraph, -, -, -, -, hdata, lazy, eager, hlazy, heager, -, -, halike, -⟩ :=
    eager_agrees_with_lazy ⟨{}, .text, 0⟩ calls
  have hlength : t.1.length = 5 := rfl
  have hnode : (s.2.graph.node? 3).any fun n =>
      n.data.map (·.value) = [⟨256, "0"⟩, ⟨256, "caller"⟩] := by decide +kernel
  obtain ⟨n, hn, hvalues⟩ := (Option.any_eq_true ..).mp hnode
  have hkept : (Arena.run calls (.start (Host.withEager ⟨{}, .text, 0⟩ false))).map
      (·.2.items[3]?.map (·.fields.map (·.cell.rendering.isSome))) = some (some [false, true]) := by
    decide +kernel
  have hkept' : (Arena.run calls (.start (Host.withEager ⟨{}, .text, 0⟩ true))).map
      (·.2.items[3]?.map (·.fields.map (·.cell.rendering.isSome))) = some (some [true, true]) := by
    decide +kernel
  rw [hlazy] at hkept
  rw [heager] at hkept'
  exact ⟨hanswer, hlength, hgraph, ⟨n, hn, of_decide_eq_true hvalues, hdata 3 n hn⟩, lazy, eager,
    hlazy, heager, halike, Option.some.inj hkept, Option.some.inj hkept'⟩

end Analysis
end OperandFlow
