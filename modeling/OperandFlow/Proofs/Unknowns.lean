import OperandFlow.Proofs.Arrivals
import OperandFlow.Proofs.Graph.Matching
import OperandFlow.Proofs.Graph.Preimages
import OperandFlow.Proofs.Removal

/-! Results whose canonical text is unknown, and the nodes that they supply. -/
namespace OperandFlow

/-- The hash is one of a preimage that starts with the contract's own address. -/
def Node.HashesOwn (o : Options) (n : Node) : Prop :=
  n.preimage ≠ "" ∧ (Term.splitArgs n.preimage.toList).head? = some o.ownAddress.toList

namespace Graph

variable {host : Host} {g : Graph} {n m : Node} {p : NodeId}

/-- The node has a result, of which the canonical text is unknown. -/
def Unknown (g : Graph) (p : NodeId) : Prop :=
  ∃ m out, g.node? p = some m ∧ m.output = some out ∧ out.rendering.text = ""

theorem unknown_iff_yields {key : List Char} (hm : g.node? m.uid = some m)
    (h : m.yields key = true) : g.Unknown m.uid ↔ key = [] := by
  simp only [Node.yields, Bool.and_eq_true] at h
  obtain ⟨out, hout, hkey⟩ := (Option.any_eq_true ..).mp h.2
  have hkey : out.rendering.text.toList = key := of_decide_eq_true hkey
  constructor
  · rintro ⟨k, out', hk, hout', hunknown⟩
    cases hm.symm.trans hk
    cases hout.symm.trans hout'
    rw [← hkey, hunknown]
    rfl
  · intro hnil
    exact ⟨m, out, hm, hout, String.toList_eq_nil_iff.mp (hkey.trans hnil)⟩

/-- A part of a preimage is matched with the text of a result as it is, so that an empty part is
matched with an unknown text. -/
theorem unknown_of_hashed {candidates : List Node} (h : n.Hashed host candidates)
    (hc : ∀ c ∈ candidates, g.node? c.uid = some c) (hown : ¬ n.HashesOwn host.options) :
    let parts := Term.splitArgs n.preimage.toList
    (∃ p ∈ n.predecessors, g.Unknown p) ↔
      parts.length = 2 ∧ [] ∈ parts ∧ ∃ c ∈ candidates, c.yields [] = true := by
  intro parts
  have hpreds := h.predecessors.trans h.first
  simp only [preimageSources] at hpreds
  by_cases hempty : n.preimage = ""
  · have hparts : parts.length = 1 := by
      simp only [parts, hempty]
      rfl
    rw [if_pos hempty] at hpreds
    simp [hpreds, hparts, Except.toOption]
  have hother : ¬ parts.head? = some host.options.ownAddress.toList :=
    fun hhead => hown ⟨hempty, hhead⟩
  rw [if_neg hempty, if_neg hother] at hpreds
  by_cases hparts : parts.length = 2
  · rw [if_neg (not_not.mpr hparts), hashKeys_eq] at hpreds
    have hmem : ∀ p, p ∈ n.predecessors ↔ ∃ key ∈ parts, Term.isLiteral key = false ∧
        (candidates.find? (Node.yields key)).map (·.uid) = some p := by
      intro p
      rw [hpreds, List.mem_eraseDups]
      simp [Except.toOption, parts, and_assoc]
    constructor
    · rintro ⟨p, hp, hunknown⟩
      obtain ⟨key, hkey, -, hfound⟩ := (hmem p).mp hp
      obtain ⟨c, hfind, rfl⟩ := Option.map_eq_some_iff.mp hfound
      have hyields := List.find?_some hfind
      have hcand := List.mem_of_find?_eq_some hfind
      have hnil := (unknown_iff_yields (hc c hcand) hyields).mp hunknown
      subst hnil
      exact ⟨hparts, hkey, c, hcand, hyields⟩
    · rintro ⟨-, hnil, c, hcand, hyields⟩
      obtain ⟨c', hfind⟩ := Option.isSome_iff_exists.mp
        (List.find?_isSome.mpr ⟨c, hcand, hyields⟩)
      refine ⟨c'.uid, (hmem _).mpr ⟨[], hnil, rfl, by rw [hfind]; rfl⟩, ?_⟩
      exact (unknown_iff_yields (hc c' (List.mem_of_find?_eq_some hfind))
        (List.find?_some hfind)).mpr rfl
  · rw [if_pos hparts] at hpreds
    simp [hpreds, hparts, Except.toOption]

/-- Only an instruction that reports its result has one. -/
theorem Consistent.reportsResult (hg : g.Consistent) (hm : g.node? p = some m)
    (hout : m.output ≠ none) : m.opcode?.any Opcode.reportsResult = true := by
  obtain ⟨k, hbegins, hevolves⟩ := hg.evolved hm
  rcases hevolves.output with hsame | ⟨-, hwait, -, -⟩
  · exact absurd (hsame.trans hbegins.output) hout
  · rw [hevolves.opcode?_eq]
    exact hbegins.awaiting hwait

namespace Reported

variable {i : NodeId} (hg : g.Reported host) (hn : g.node? i = some n)
include hg hn

/-- A hash is linked to an unknown result exactly if a part of its preimage is empty and there is
such a result in reach. -/
theorem unknown_of_sha3 (hwired : g.Wired g.outlines) (hsha3 : n.is .sha3 = true)
    (hown : ¬ n.HashesOwn host.options) :
    (∃ p ∈ n.predecessors, g.Unknown p) ↔
      n.isDeleted = false ∧ n.awaiting = false ∧
        (Term.splitArgs n.preimage.toList).length = 2 ∧ [] ∈ Term.splitArgs n.preimage.toList ∧
        ∃ c ∈ g.candidates host.options.reach n, c.yields [] = true := by
  have hcoherent := hg.steady.coherent
  have hunfed : (∀ p, ¬ n.FedBy p) → ¬ ∃ p ∈ n.predecessors, g.Unknown p := by
    rintro hnone ⟨p, hp, -⟩
    exact hnone p ((n.mem_predecessors p).mp hp)
  by_cases hlive : n.isDeleted = false
  · by_cases hwait : n.awaiting = false
    · have hhashed : n.Hashed host (g.candidates host.options.reach n) :=
        (hg.upheld (upheld_hashes host) (fun hn huid ho hkind hslots hfresh hlater =>
          ⟨accounts_of_fresh hn hfresh, hashes_of_later hn huid ho hkind hslots hfresh hlater⟩)
          i).2 n hn hsha3 hlive hwait
      have hiff := unknown_of_hashed hhashed
        (node?_of_mem_candidates hcoherent.causal.formed _ n) hown
      simpa only [hlive, hwait, true_and] using hiff
    · have hnone := hunfed ((hcoherent.tidy hn).waiting (by simpa using hwait)).1
      simp [hnone, hwait]
  · have hgone : g.Gone i := ⟨n, hn, by simpa using hlive⟩
    have hnone := hunfed fun p hp => hwired.unfed hgone ⟨n, hn, hp⟩
    simp [hnone, hlive]

/-- An unknown result supplies an operand of another node only if the values agree. -/
theorem unknown_of_usesValues (hsha3 : n.is .sha3 = false) (hvalues : n.kind.usesValues = true)
    {s : Slot} (hs : s ∈ n.slots) (hp : p ∈ s.preds) {out : Datum} (hm : g.node? p = some m)
    (hout : m.output = some out) (hunknown : out.rendering.text = "") :
    out.value.isEmpty = false ∧ (out.value.trimmed = s.value.trimmed ∨
      ∃ k, out.value.concrete? = some k ∧ s.value.concrete? = some k) := by
  have hsent : n.isSentinel = false := by
    unfold Node.isSentinel
    cases hkind : n.kind <;> simp_all [Kind.usesValues]
  have hinstr := hg.steady.coherent.causal.formed.instruction_ne_none hn hsent
  have hmatches : g.Matches host i := (hg.upheld (upheld_matches host)
    (fun hn _ _ _ _ hfresh _ =>
      ⟨accounts_of_fresh hn hfresh, matches_of_unlinked hn hfresh.unlinked⟩) i).2
  have hreports := hg.consistent.reportsResult hm (by simp [hout])
  exact of_sameValue_unknown
    (hmatches n hn hinstr hvalues hsha3 s hs p hp m out hm hreports hout) hunknown

end Reported
end Graph

namespace Analysis

open OperandFlow.Graph

/-- Texts of more than eight bytes are not rendered. -/
def shortTexts : Host := ⟨{ maxExpressionLength := 8 }, .text, 0⟩

/-- The hash of a preimage whose first part is empty, after a caller whose text is too long. -/
def hashAfterCaller : List Action :=
  [.pre ⟨"f", 0, "CALLER", 0, [], none, none⟩ none,
    .post ⟨"f", "CALLER", ⟨256, "msg.sender"⟩⟩ none,
    .pre ⟨"f", 0, "SHA3", 1, [⟨256, ",1"⟩], none, none⟩ none,
    .post ⟨"f", "SHA3", ⟨256, "hash"⟩⟩ none]

def sumAfterHash : List Action :=
  hashAfterCaller ++
    [.pre ⟨"f", 0, "ADD", 2, [⟨256, "msg.sender"⟩, ⟨256, "1"⟩], none, none⟩ none,
      .post ⟨"f", "ADD", ⟨256, "sum"⟩⟩ none]

/-- After any reports, an unknown text is matched with an empty part of a preimage and with nothing
else. So a hash is linked to a result with such a text exactly if one of its two parts is empty and
such a result is in reach. Other nodes are linked to one only if the value itself is their operand
or the same number. -/
theorem unknown_results_linked (host : Host) (actions : List Action)
    (h : ∀ action ∈ actions, action.isReport = true) :
    let g := ((start host).performAll actions).graph
    ∀ i n, g.node? i = some n →
      (n.is .sha3 = true → ¬ n.HashesOwn host.options →
        let parts := Term.splitArgs n.preimage.toList
        ((∃ p ∈ n.predecessors, g.Unknown p) ↔
          n.isDeleted = false ∧ n.awaiting = false ∧ parts.length = 2 ∧ [] ∈ parts ∧
            ∃ c ∈ g.candidates host.options.reach n, c.yields [] = true)) ∧
      (n.is .sha3 = false → n.kind.usesValues = true → ∀ s ∈ n.slots, ∀ p ∈ s.preds,
        ∀ m out, g.node? p = some m → m.output = some out → out.rendering.text = "" →
          out.value.isEmpty = false ∧ (out.value.trimmed = s.value.trimmed ∨
            ∃ k, out.value.concrete? = some k ∧ s.value.concrete? = some k)) := by
  intro g i n hn
  obtain ⟨-, hreported⟩ := reported_performAll host h
  constructor
  · intro hsha3 hown parts
    exact hreported.unknown_of_sha3 hn (led_and_wired host actions).2 hsha3 hown
  · intro hsha3 hvalues s hs p hp m out hm hout hunknown
    exact hreported.unknown_of_usesValues hn hsha3 hvalues hs hp hm hout hunknown

/-- The caller supplies the hash by its unknown text, and the sum by its value. -/
theorem unknown_results_linked_sumAfterHash :
    (∀ action ∈ sumAfterHash, action.isReport = true) ∧
      let g := ((start shortTexts).performAll sumAfterHash).graph
      (∃ n, g.node? 3 = some n ∧ ∃ p ∈ n.predecessors, g.Unknown p) ∧
        ∃ n s m out, g.node? 4 = some n ∧ s ∈ n.slots ∧ 2 ∈ s.preds ∧ g.node? 2 = some m ∧
          m.output = some out ∧ out.rendering.text = "" ∧ out.value.isEmpty = false ∧
          (out.value.trimmed = s.value.trimmed ∨
            ∃ k, out.value.concrete? = some k ∧ s.value.concrete? = some k) := by
  have hreports : ∀ action ∈ sumAfterHash, action.isReport = true := by decide
  refine ⟨hreports, ?_⟩
  intro g
  have hhash : (g.node? 3).any fun n => n.is .sha3 && !n.isDeleted && !n.awaiting &&
      decide ((Term.splitArgs n.preimage.toList).head? ≠
        some shortTexts.options.ownAddress.toList) &&
      decide ((Term.splitArgs n.preimage.toList).length = 2) &&
      decide ([] ∈ Term.splitArgs n.preimage.toList) &&
      (g.candidates shortTexts.options.reach n).any (Node.yields []) := by
    decide +kernel
  have hsum : (g.node? 4).any fun n => !n.is .sha3 && n.kind.usesValues &&
      n.slots.any fun s => decide (2 ∈ s.preds) := by
    decide +kernel
  have hcaller : (g.node? 2).any fun m => m.output.any fun out => out.rendering.text == "" := by
    decide +kernel
  simp only [Option.any_eq_true, Bool.and_eq_true, Bool.not_eq_true', decide_eq_true_eq,
    List.any_eq_true, beq_iff_eq] at hhash hsum hcaller
  obtain ⟨n, hn, ⟨⟨⟨⟨⟨hsha3, hlive⟩, hwait⟩, hother⟩, hparts⟩, hnil⟩, hfound⟩ := hhash
  obtain ⟨k, hk, ⟨hnot, hvalues⟩, s, hs, hp⟩ := hsum
  obtain ⟨m, hm, out, hout, hunknown⟩ := hcaller
  have hlinked := (unknown_results_linked shortTexts sumAfterHash hreports 3 n hn).1 hsha3
    fun hown => hother hown.2
  have hequal := (unknown_results_linked shortTexts sumAfterHash hreports 4 k hk).2 hnot hvalues
    s hs 2 hp m out hm hout hunknown
  exact ⟨⟨n, hn, hlinked.mpr ⟨hlive, hwait, hparts, hnil, hfound⟩⟩,
    k, s, m, out, hk, hs, hp, hm, hout, hunknown, hequal⟩

/-- A hash can be linked to a result with an unknown text. -/
theorem unknown_result_hashed :
    let g := ((start shortTexts).performAll hashAfterCaller).graph
    ∃ n, g.node? 3 = some n ∧ n.is .sha3 = true ∧ ¬ n.HashesOwn shortTexts.options ∧
      2 ∈ n.predecessors ∧ g.Unknown 2 := by
  intro g
  have hhash : (g.node? 3).any fun n => n.is .sha3 &&
      decide ((Term.splitArgs n.preimage.toList).head? ≠
        some shortTexts.options.ownAddress.toList) && decide (2 ∈ n.predecessors) := by
    decide +kernel
  have hcaller : (g.node? 2).any fun m => m.output.any fun out => out.rendering.text == "" := by
    decide +kernel
  simp only [Option.any_eq_true, Bool.and_eq_true, decide_eq_true_eq, beq_iff_eq] at hhash hcaller
  obtain ⟨n, hn, ⟨hsha3, hother⟩, hp⟩ := hhash
  obtain ⟨m, hm, out, hout, hunknown⟩ := hcaller
  exact ⟨n, hn, hsha3, fun hown => hother hown.2, hp, m, out, hm, hout, hunknown⟩

end Analysis
end OperandFlow
