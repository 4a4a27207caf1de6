import OperandFlow.Proofs.Graph.Lookup

/-! The outline of a graph: what linking, completing and removing nodes never change. Sentinels
and block leaders are found by the outline alone. -/
namespace OperandFlow

structure Outline where
  uid : NodeId
  function : String
  instruction : Option Instruction
  isEntry : Bool
  isExit : Bool

namespace Outline

def tx? (o : Outline) : Option UInt64 := o.instruction.map (·.tx)

def opcode? (o : Outline) : Option Opcode := o.instruction.map (·.opcode)

def leader? (o : Outline) : Option NodeId := o.instruction.map (·.leader)

def entry (uid : NodeId) (function : String) : Outline := ⟨uid, function, none, true, false⟩

def exit (uid : NodeId) (function : String) : Outline := ⟨uid, function, none, false, true⟩

end Outline

def Node.outline (n : Node) : Outline :=
  ⟨n.uid, n.function, n.instruction, n.isEntry, n.kind = .exit⟩

namespace Node

@[simp] theorem function_outline (n : Node) : n.outline.function = n.function := rfl

@[simp] theorem instruction_outline (n : Node) : n.outline.instruction = n.instruction := rfl

@[simp] theorem isEntry_outline (n : Node) : n.outline.isEntry = n.isEntry := rfl

@[simp] theorem isExit_outline (n : Node) : n.outline.isExit = decide (n.kind = .exit) := rfl

theorem outline_addSuccessor (n : Node) (succ : NodeId) :
    (n.addSuccessor succ).outline = n.outline := by
  rw [addSuccessor_eq]
  rfl

/-- A node without its values and edges. -/
def core (n : Node) : Node :=
  { n with slots := [], successors := [], output := none, state := none }

theorem core_addSuccessor (n : Node) (succ : NodeId) : (n.addSuccessor succ).core = n.core := by
  rw [addSuccessor_eq]
  rfl

theorem of_core {n m : Node} (h : m.core = n.core) :
    m.instruction = n.instruction ∧ m.kind = n.kind ∧ m.awaiting = n.awaiting := by
  unfold core at h
  simp only [Node.mk.injEq] at h
  exact ⟨h.2.2.1, h.2.2.2.1, h.2.2.2.2.2.2.1⟩

theorem isSentinel_congr {n m : Node} (h : m.outline = n.outline) :
    m.isSentinel = n.isSentinel := by
  have hentry := congrArg Outline.isEntry h
  have hexit := congrArg Outline.isExit h
  simp only [isEntry_outline, isEntry, isExit_outline] at hentry hexit
  rw [isSentinel, isSentinel, hentry, hexit]

theorem of_outline_exit {n : Node} {uid : NodeId} {function : String}
    (h : n.outline = .exit uid function) : n.kind = .exit ∧ n.instruction = none := by
  have hexit : n.outline.isExit = true := congrArg Outline.isExit h
  exact ⟨by simpa using hexit, congrArg Outline.instruction h⟩

theorem outline_bury {n : Node} (h : n.isSentinel = false) : n.bury.outline = n.outline := by
  simp only [isSentinel, Bool.or_eq_false_iff, decide_eq_false_iff_not] at h
  simp [outline, bury, isEntry, h]

end Node

abbrev Outlines := Array Outline

/-- The node `a` may supply `b`: an earlier instruction of the same call, or the entry of its
function. -/
def Precedes (os : Outlines) (a b : NodeId) : Prop :=
  a < b ∧ ∃ p q, os[a]? = some p ∧ os[b]? = some q ∧ p.function = q.function ∧
    p.isExit = false ∧ q.instruction ≠ none ∧ (p.isEntry = true ∨ p.tx? = q.tx?)

/-- The instruction `a` may go to `b`, the exit of its function. -/
def Leaves (os : Outlines) (a b : NodeId) : Prop :=
  ∃ p q, os[a]? = some p ∧ os[b]? = some q ∧ p.function = q.function ∧
    p.instruction ≠ none ∧ q.isExit = true

/-- Nodes stand at their own places, every function has its two sentinels in front of its
instructions, and a block leader leads itself or stands earlier in the same call. -/
structure Formed (os : Outlines) : Prop where
  uid_eq : ∀ {i : Nat} {o : Outline}, os[i]? = some o → o.uid = i
  bare_iff : ∀ {i : Nat} {o : Outline}, os[i]? = some o →
    (o.instruction = none ↔ o.isEntry = true ∨ o.isExit = true)
  entry_of_exit : ∀ {i : Nat} {o : Outline}, os[i]? = some o → o.isExit = true → o.isEntry = false
  bounds : ∀ {i : Nat} {o : Outline}, os[i]? = some o →
    ∃ e, e ≤ i ∧ os[e]? = some (.entry e o.function) ∧
      os[e + 1]? = some (.exit (e + 1) o.function)
  entry_unique : ∀ {i j : Nat} {o p : Outline}, os[i]? = some o → os[j]? = some p →
    o.isEntry = true → p.isEntry = true → o.function = p.function → i = j
  exit_unique : ∀ {i j : Nat} {o p : Outline}, os[i]? = some o → os[j]? = some p →
    o.isExit = true → p.isExit = true → o.function = p.function → i = j
  leader : ∀ {i : Nat} {o : Outline} {x : Instruction}, os[i]? = some o → o.instruction = some x →
    x.leader = i ∨ Precedes os x.leader i

theorem formed_empty : Formed #[] := by
  constructor <;> simp

theorem Precedes.push {os : Outlines} {a b : NodeId} (h : Precedes os a b) (o : Outline) :
    Precedes (os.push o) a b := by
  obtain ⟨hlt, p, q, hp, hq, rest⟩ := h
  refine ⟨hlt, p, q, ?_, ?_, rest⟩ <;> grind

theorem Precedes.extend {os os' : Outlines} {a b : NodeId} (h : Precedes os a b)
    (hos : ∀ i < os.size, os'[i]? = os[i]?) : Precedes os' a b := by
  obtain ⟨hlt, p, q, hp, hq, rest⟩ := h
  refine ⟨hlt, p, q, ?_, ?_, rest⟩
  · rw [hos a (Array.getElem?_eq_some_iff.mp hp).1, hp]
  · rw [hos b (Array.getElem?_eq_some_iff.mp hq).1, hq]

theorem Precedes.restrict {os os' : Outlines} {a b : NodeId} (h : Precedes os' a b)
    (hos : ∀ i < os.size, os'[i]? = os[i]?) (hb : b < os.size) : Precedes os a b := by
  obtain ⟨hlt, p, q, hp, hq, rest⟩ := h
  exact ⟨hlt, p, q, hos a (Nat.lt_trans hlt hb) ▸ hp, hos b hb ▸ hq, rest⟩

theorem Leaves.push {os : Outlines} {a b : NodeId} (h : Leaves os a b) (o : Outline) :
    Leaves (os.push o) a b := by
  obtain ⟨p, q, hp, hq, rest⟩ := h
  refine ⟨p, q, ?_, ?_, rest⟩ <;> grind

/-- A function gets its sentinels. -/
theorem Formed.open {os : Outlines} (h : Formed os) (function : String)
    (hnew : ∀ {i : Nat} {o : Outline}, os[i]? = some o → o.function ≠ function) :
    Formed ((os.push (.entry os.size function)).push (.exit (os.size + 1) function)) := by
  have hget : ∀ {i : Nat} {o : Outline},
      ((os.push (.entry os.size function)).push (.exit (os.size + 1) function))[i]? = some o →
        os[i]? = some o ∨ (i = os.size ∧ o = .entry os.size function) ∨
          (i = os.size + 1 ∧ o = .exit (os.size + 1) function) := by
    grind
  constructor
  case uid_eq => grind [h.uid_eq, Outline.entry, Outline.exit]
  case bare_iff => grind [h.bare_iff, Outline.entry, Outline.exit]
  case entry_of_exit => grind [h.entry_of_exit, Outline.entry, Outline.exit]
  case bounds =>
    intro i o ho
    rcases hget ho with ho | ⟨rfl, rfl⟩ | ⟨rfl, rfl⟩
    · obtain ⟨e, hle, he, hx⟩ := h.bounds ho
      exact ⟨e, hle, by grind, by grind⟩
    · exact ⟨os.size, Nat.le_refl _, by grind [Outline.entry], by grind [Outline.entry]⟩
    · exact ⟨os.size, by omega, by grind [Outline.exit], by grind [Outline.exit]⟩
  case entry_unique => grind [h.entry_unique, Outline.entry, Outline.exit]
  case exit_unique => grind [h.exit_unique, Outline.entry, Outline.exit]
  case leader =>
    intro i o x ho hx
    rcases hget ho with ho | ⟨rfl, rfl⟩ | ⟨rfl, rfl⟩
    · exact (h.leader ho hx).imp_right fun hp => (hp.push _).push _
    · simp [Outline.entry] at hx
    · simp [Outline.exit] at hx

/-- An instruction joins its function. -/
theorem Formed.join {os : Outlines} (h : Formed os) {o : Outline} {x : Instruction} {e : NodeId}
    (huid : o.uid = os.size) (hx : o.instruction = some x) (hentry : o.isEntry = false)
    (hexit : o.isExit = false) (he : os[e]? = some (.entry e o.function))
    (hleader : x.leader = os.size ∨ Precedes (os.push o) x.leader os.size) :
    Formed (os.push o) := by
  constructor
  case uid_eq => grind [h.uid_eq]
  case bare_iff => grind [h.bare_iff]
  case entry_of_exit => grind [h.entry_of_exit]
  case bounds =>
    intro i p hp
    rw [Array.getElem?_push] at hp
    split_ifs at hp with hi
    · obtain ⟨e', hle, he', hx'⟩ := h.bounds he
      cases hp
      exact ⟨e', by grind, by grind [Outline.entry], by grind [Outline.entry]⟩
    · obtain ⟨e', hle, he', hx'⟩ := h.bounds hp
      exact ⟨e', hle, by grind, by grind⟩
  case entry_unique => grind [h.entry_unique]
  case exit_unique => grind [h.exit_unique]
  case leader =>
    intro i p y hp hy
    rw [Array.getElem?_push] at hp
    split_ifs at hp with hi
    · cases hp
      grind
    · exact (h.leader hp hy).imp_right fun hq => hq.push _

namespace Graph

def outlines (g : Graph) : Outlines := g.nodes.map Node.outline

theorem getElem?_outlines (g : Graph) (i : NodeId) :
    g.outlines[i]? = (g.node? i).map Node.outline := by
  unfold outlines node?
  rw [Array.getElem?_map]

theorem outlines_of_node? {g : Graph} {i : NodeId} {n : Node} (h : g.node? i = some n) :
    g.outlines[i]? = some n.outline := by
  rw [getElem?_outlines, h]
  rfl

theorem node?_of_outlines {g : Graph} {i : NodeId} {o : Outline} (h : g.outlines[i]? = some o) :
    ∃ n, g.node? i = some n ∧ n.outline = o := by
  rw [getElem?_outlines] at h
  exact Option.map_eq_some_iff.mp h

@[simp] theorem size_outlines (g : Graph) : g.outlines.size = g.size := by
  simp [outlines, size]

theorem size_of_outlines {g g' : Graph} (h : g'.outlines = g.outlines) : g'.size = g.size := by
  rw [← size_outlines, h, size_outlines]

@[simp] theorem outlines_empty : empty.outlines = #[] := by
  simp [outlines, empty]

@[simp] theorem outlines_push (g : Graph) (n : Node) :
    (g.push n).outlines = g.outlines.push n.outline := by
  simp [outlines, push]

theorem outlines_update {g : Graph} {uid : NodeId} {f : Node → Node}
    (h : ∀ n, g.node? uid = some n → (f n).outline = n.outline) :
    (g.update uid f).outlines = g.outlines := by
  apply Array.ext_getElem?
  intro i
  rw [getElem?_outlines, getElem?_outlines, node?_update]
  split_ifs with hi
  · subst hi
    cases hn : g.node? i with
    | none => rfl
    | some n => simp [h n hn]
  · rfl

def cores (g : Graph) : Array Node := g.nodes.map Node.core

theorem getElem?_cores (g : Graph) (i : NodeId) : g.cores[i]? = (g.node? i).map Node.core := by
  unfold cores node?
  rw [Array.getElem?_map]

theorem cores_update {g : Graph} {uid : NodeId} {f : Node → Node}
    (h : ∀ n, g.node? uid = some n → (f n).core = n.core) :
    (g.update uid f).cores = g.cores := by
  apply Array.ext_getElem?
  intro i
  rw [getElem?_cores, getElem?_cores, node?_update]
  split_ifs with hi
  · subst hi
    cases hn : g.node? i with
    | none => rfl
    | some n => simp [h n hn]
  · rfl

theorem outlines_of_cores {g g' : Graph} (h : g'.cores = g.cores) : g'.outlines = g.outlines := by
  have hout : ∀ g : Graph, g.outlines = g.cores.map Node.outline := by
    intro g
    unfold outlines cores
    rw [Array.map_map]
    rfl
  rw [hout, hout, h]

/-- A node that kept its core. -/
theorem node?_of_cores {g g' : Graph} (h : g'.cores = g.cores) {i : NodeId} {n : Node}
    (hn : g.node? i = some n) : ∃ m, g'.node? i = some m ∧ m.core = n.core := by
  have hcore := congrArg (fun cs : Array Node => cs[i]?) h
  simp only [getElem?_cores, hn, Option.map_some] at hcore
  exact Option.map_eq_some_iff.mp hcore

/-- Sentinels are found by the outline. -/
theorem sentinels?_congr {g g' : Graph} (h : g'.outlines = g.outlines) (function : String) :
    g'.sentinels? function = g.sentinels? function := by
  have hout : ∀ g : Graph, g.sentinels? function =
      (g.outlines.find? fun o => o.isEntry && o.function = function).map
        fun o => ⟨o.uid, o.uid + 1⟩ := by
    intro g
    unfold sentinels? outlines
    rw [Array.find?_map, Option.map_map]
    rfl
  rw [hout, hout, h]

theorem boundaries?_of_node? {g : Graph} {uid : NodeId} {n : Node} (hn : g.node? uid = some n) :
    g.boundaries? uid = g.sentinels? n.function := by
  rw [boundaries?, hn, Option.bind_some]

theorem boundaries?_congr {g g' : Graph} (h : g'.outlines = g.outlines) (uid : NodeId) :
    g'.boundaries? uid = g.boundaries? uid := by
  have hf : (g'.node? uid).map (·.function) = (g.node? uid).map (·.function) := by
    have := congrArg (fun os : Outlines => os[uid]?.map (·.function)) h
    rwa [getElem?_outlines, getElem?_outlines, Option.map_map, Option.map_map] at this
  unfold boundaries?
  cases hn : g.node? uid <;> cases hn' : g'.node? uid <;> simp_all [sentinels?_congr h]

end Graph

namespace Formed

variable {g : Graph} (hg : Formed g.outlines)
include hg

theorem uid_node {i : NodeId} {n : Node} (hn : g.node? i = some n) : n.uid = i :=
  hg.uid_eq (Graph.outlines_of_node? hn)

theorem sentinel_iff {i : NodeId} {n : Node} (hn : g.node? i = some n) :
    n.isSentinel = true ↔ n.instruction = none := by
  have hbare := hg.bare_iff (Graph.outlines_of_node? hn)
  simp only [Node.instruction_outline, Node.isEntry_outline, Node.isExit_outline, Node.isEntry_iff,
    decide_eq_true_eq] at hbare
  rw [Node.isSentinel_iff, hbare]

theorem instruction_ne_none {i : NodeId} {n : Node} (hn : g.node? i = some n)
    (hsent : n.isSentinel = false) : n.instruction ≠ none := by
  intro hnone
  rw [(hg.sentinel_iff hn).mpr hnone] at hsent
  cases hsent

theorem kind_ne_exit {i : NodeId} {n : Node} (hn : g.node? i = some n)
    (hinstr : n.instruction ≠ none) : n.kind ≠ .exit := by
  intro hexit
  exact hinstr ((hg.sentinel_iff hn).mp (n.isSentinel_iff.mpr (Or.inr hexit)))

theorem isEntry_eq_false {i : NodeId} {n : Node} (hn : g.node? i = some n)
    (hinstr : n.instruction ≠ none) : n.isEntry = false := by
  rw [← Bool.not_eq_true]
  intro hentry
  exact hinstr ((hg.bare_iff (Graph.outlines_of_node? hn)).mpr (Or.inl hentry))

theorem sentinels?_eq_of_entry {e : NodeId} {function : String}
    (he : g.outlines[e]? = some (.entry e function)) :
    g.sentinels? function = some ⟨e, e + 1⟩ := by
  obtain ⟨n, hn, ho⟩ := Graph.node?_of_outlines he
  unfold Graph.sentinels?
  cases hfind : g.nodes.find? fun n => n.isEntry && n.function = function with
  | none =>
    have hmem : n ∈ g.nodes := by
      rw [← Array.mem_toList_iff]
      exact Graph.mem_nodes_iff.mpr ⟨e, hn⟩
    have hnot := Array.find?_eq_none.mp hfind n hmem
    have hentry : n.isEntry = true := congrArg Outline.isEntry ho
    have hfun : n.function = function := congrArg Outline.function ho
    simp [hentry, hfun] at hnot
  | some m =>
    have hm := Array.find?_some hfind
    simp only [Bool.and_eq_true, decide_eq_true_eq] at hm
    obtain ⟨j, hj⟩ := Graph.mem_nodes_iff.mp
      (Array.mem_toList_iff.mpr (Array.mem_of_find?_eq_some hfind))
    have hje : j = e :=
      hg.entry_unique (Graph.outlines_of_node? hj) he hm.1 rfl (by simp [hm.2, Outline.entry])
    have huid : m.uid = e := (hg.uid_node hj).trans hje
    simp [huid]

/-- Every node lies between the sentinels of its function. -/
theorem boundaries {i : NodeId} {n : Node} (hn : g.node? i = some n) :
    ∃ e, e ≤ i ∧ g.sentinels? n.function = some ⟨e, e + 1⟩ ∧
      g.outlines[e]? = some (.entry e n.function) ∧
      g.outlines[e + 1]? = some (.exit (e + 1) n.function) := by
  obtain ⟨e, hle, he, hx⟩ := hg.bounds (Graph.outlines_of_node? hn)
  exact ⟨e, hle, hg.sentinels?_eq_of_entry he, he, hx⟩

theorem of_sentinels? {function : String} {s : Sentinels}
    (hs : g.sentinels? function = some s) :
    s.exit = s.entry + 1 ∧ g.outlines[s.entry]? = some (.entry s.entry function) ∧
      g.outlines[s.exit]? = some (.exit s.exit function) := by
  unfold Graph.sentinels? at hs
  obtain ⟨m, hfind, rfl⟩ := Option.map_eq_some_iff.mp hs
  have hm := Array.find?_some hfind
  simp only [Bool.and_eq_true, decide_eq_true_eq] at hm
  obtain ⟨j, hj⟩ := Graph.mem_nodes_iff.mp
    (Array.mem_toList_iff.mpr (Array.mem_of_find?_eq_some hfind))
  obtain ⟨e, -, he, hx⟩ := hg.bounds (Graph.outlines_of_node? hj)
  have hje : j = e := hg.entry_unique (Graph.outlines_of_node? hj) he hm.1 rfl rfl
  have huid : m.uid = e := (hg.uid_node hj).trans hje
  rw [huid]
  rw [Node.function_outline, hm.2] at he hx
  exact ⟨rfl, he, hx⟩

theorem function_ne_of_sentinels? {function : String} (hs : g.sentinels? function = none)
    {i : NodeId} {o : Outline} (ho : g.outlines[i]? = some o) : o.function ≠ function := by
  intro hf
  obtain ⟨e, -, he, -⟩ := hg.bounds ho
  rw [hf] at he
  rw [hg.sentinels?_eq_of_entry he] at hs
  cases hs

end Formed
end OperandFlow
