import OperandFlow.Proofs.Graph.Questions
import OperandFlow.Proofs.Graph.Scope

/-! What the hash of a preimage is linked to. -/
namespace OperandFlow

/-- The node can make a part of a preimage, and its result reads like this part. -/
def Node.yields (key : List Char) (n : Node) : Bool :=
  n.isOneOf Graph.preimageProducers && n.output.any fun d => d.rendering.text.toList = key

namespace Graph

/-- The nodes that a hash is linked to: those that made the symbolic parts of its preimage, or the
nearest mask if the preimage starts with the contract's own address. -/
def preimageSources (host : Host) (candidates : List Node) (uid : NodeId) (preimage : String) :
    Except GraphError (List NodeId) :=
  let parts := Term.splitArgs preimage.toList
  if preimage = "" then .ok []
  else if parts.head? = some host.options.ownAddress.toList then
    .ok ((candidates.find? (·.is .and)).map (·.uid)).toList
  else if parts.length ≠ 2 then .error (.malformedPreimage uid parts.length)
  else .ok ((hashKeys parts).filterMap fun key => (candidates.find? (Node.yields key)).map (·.uid))

/-- What is wrong with a preimage. -/
def preimageFault (o : Options) (uid : NodeId) (preimage : String) : Option GraphError :=
  let parts := Term.splitArgs preimage.toList
  if preimage = "" ∨ parts.head? = some o.ownAddress.toList ∨ parts.length = 2 then none
  else some (.malformedPreimage uid parts.length)

theorem hashKeys_eq (parts : List (List Char)) :
    hashKeys parts = parts.filter fun k => !Term.isLiteral k := by
  unfold hashKeys
  dsimp only
  split_ifs with hlast
  · obtain ⟨last, hlast, hliteral⟩ := (Option.any_eq_true ..).mp hlast
    conv_rhs => rw [← List.dropLast_append_getLast? last hlast, List.filter_append]
    simp [hliteral]
  · rfl

/-- The search for the edges of a hash fails if something is wrong with its preimage. -/
theorem preimageSources_eq_error {host : Host} {candidates : List Node} {uid : NodeId}
    {preimage : String} {e : GraphError} :
    preimageSources host candidates uid preimage = .error e ↔
      preimageFault host.options uid preimage = some e := by
  simp only [preimageSources, preimageFault]
  split_ifs <;> simp_all

theorem preimageSources_congr {l l' : List Node} (h : l'.map Node.upstream = l.map Node.upstream)
    (host : Host) (uid : NodeId) (preimage : String) :
    preimageSources host l' uid preimage = preimageSources host l uid preimage := by
  have hfind : ∀ p : Node → Bool, (∀ m, p m.upstream = p m) →
      (l'.find? p).map (·.uid) = (l.find? p).map (·.uid) := fun _ hp => find?_upstream hp h
  have hmask := hfind (·.is .and) fun _ => rfl
  have hkeys : ∀ key, (l'.find? (Node.yields key)).map (·.uid) =
      (l.find? (Node.yields key)).map (·.uid) := fun key => hfind _ fun _ => rfl
  simp only [preimageSources, hmask, hkeys]

/-- A hash has two sources at most. -/
theorem length_preimageSources {host : Host} {candidates : List Node} {uid : NodeId}
    {preimage : String} {sources : List NodeId}
    (h : preimageSources host candidates uid preimage = .ok sources) : sources.length ≤ 2 := by
  simp only [preimageSources] at h
  split_ifs at h with hempty hown hparts
  · cases h
    exact Nat.zero_le 2
  · cases h
    exact Nat.le_trans Option.length_toList_le (by decide)
  · cases h
    rw [hashKeys_eq]
    calc
      _ ≤ _ := List.length_filterMap_le _ _
      _ ≤ (Term.splitArgs preimage.toList).length := List.length_filter_le _ _
      _ = 2 := by simpa using hparts

theorem yieldsKey_value (key : List Char) (n : Node) : (yieldsKey key n).value = n.yields key := by
  unfold yieldsKey Node.yields
  cases n.isOneOf preimageProducers <;> cases n.output <;> rfl

theorem mem_preimageSources {host : Host} {candidates : List Node} {uid : NodeId}
    {preimage : String} {sources : List NodeId}
    (h : preimageSources host candidates uid preimage = .ok sources) {p : NodeId}
    (hp : p ∈ sources) : ∃ m ∈ candidates, m.uid = p := by
  have hfind : ∀ q : Node → Bool, (candidates.find? q).map (·.uid) = some p →
      ∃ m ∈ candidates, m.uid = p := by
    intro q hq
    obtain ⟨m, hm, huid⟩ := Option.map_eq_some_iff.mp hq
    exact ⟨m, List.mem_of_find?_eq_some hm, huid⟩
  simp only [preimageSources] at h
  split_ifs at h <;> cases h
  · cases hp
  · exact hfind _ (Option.mem_toList.mp hp)
  · obtain ⟨key, -, hkey⟩ := List.mem_filterMap.mp hp
    exact hfind _ hkey

section Hash

variable {host : Host} {g : Graph} {n : Node} {slot : Slot} {rest : List Slot}
  (hs : n.slots = slot :: rest) (hnil : slot.preds = [])
include hs hnil

theorem linkPreimage_value :
    let sources := preimageSources host (g.candidates host.options.reach n) n.uid
      slot.datum.rendering.text
    (g.linkPreimage host n).value =
      (sources.map fun _ => (), g.linkAll n.uid ((sources.toOption.getD []).map (·, 0))) := by
  unfold linkPreimage preimageSources
  simp only [hs, hnil, List.isEmpty_nil, Bool.not_true, Bool.false_eq_true, if_false,
    Logged.value_bind, consult]
  split_ifs
  · rfl
  · simp only [Logged.value_bind, Logged.value_pure, linkFound_value]
    rfl
  · rfl
  · simp only [Logged.value_bind, Logged.value_pure, Logged.value_map, Logged.value_find?,
      Logged.value_fold, yieldsKey_value, List.foldl_map]
    rw [foldl_linkFound n.uid (fun key => ((g.candidates host.options.reach n).find?
      (Node.yields key)).map (·.uid)) fun _ => 0, Except.map, Except.toOption, Option.getD_some,
      List.filterMap_eq_flatMap_toList, List.map_flatMap]

/-- Where nothing is linked, only questions are asked. -/
theorem asking_linkPreimage (h : (preimageSources host (g.candidates host.options.reach n) n.uid
    slot.datum.rendering.text).toOption.getD [] = []) : Asking (g.linkPreimage host n).events := by
  have htext : slot.datum.rendering.text = (consult slot.datum).value := rfl
  unfold linkPreimage
  simp only [hs, hnil, List.isEmpty_nil, Bool.not_true, Bool.false_eq_true, if_false,
    Logged.events_bind]
  refine (asking_consult _).append ?_
  rw [htext, preimageSources] at h
  generalize (consult slot.datum).value = preimage at h ⊢
  split_ifs at h ⊢
  · exact asking_nil
  · have hnone : ((g.candidates host.options.reach n).find? (·.is .and)).map (·.uid) = none := by
      simpa [Except.toOption] using h
    rw [hnone]
    exact asking_nil
  · exact asking_nil
  · have hnone : ∀ key ∈ hashKeys (Term.splitArgs preimage.toList),
        ((g.candidates host.options.reach n).find? (Node.yields key)).map (·.uid) = none := by
      simpa [Except.toOption] using h
    refine (asking_map (fun key => asking_find? (asking_yieldsKey key) _) _).append
      (Asking.append (idle_linkEach ?_).asking asking_nil)
    simp only [Logged.value_map, Logged.value_find?, yieldsKey_value]
    intro f hf
    obtain ⟨key, hkey, rfl⟩ := List.mem_map.mp hf
    exact hnone key hkey

end Hash

section Failure

variable {host : Host} {g : Graph} {n : Node} {e : GraphError}

theorem linkPreimage_error (h : (g.linkPreimage host n).value.1 = .error e) :
    ∃ slot rest, n.slots = slot :: rest ∧ slot.preds = [] ∧
      preimageSources host (g.candidates host.options.reach n) n.uid slot.datum.rendering.text =
        .error e := by
  cases hs : n.slots with
  | nil =>
    simp only [linkPreimage, hs] at h
    cases h
  | cons slot rest =>
    have hnil : slot.preds = [] := by
      by_contra hpreds
      simp [linkPreimage, hs, hpreds] at h
    refine ⟨slot, rest, rfl, hnil, ?_⟩
    rw [linkPreimage_value hs hnil] at h
    cases hsources : preimageSources host (g.candidates host.options.reach n) n.uid
        slot.datum.rendering.text with
    | error e' =>
      rw [hsources] at h
      cases h
      rfl
    | ok sources =>
      rw [hsources] at h
      cases h

/-- Whether a preimage is malformed is known before anything is linked. -/
theorem linkPreimage_of_error (h : (g.linkPreimage host n).value.1 = .error e) :
    (g.linkPreimage host n).value.2 = g := by
  obtain ⟨slot, rest, hs, hnil, hsources⟩ := linkPreimage_error h
  rw [linkPreimage_value hs hnil, hsources]
  rfl

/-- Only the search for the edges of a hash fails. -/
theorem linkNode_error {o : Opcode} (h : (g.linkNode host n o).value.1 = .error e) :
    n.kind = .dataFlow ∧ o = .sha3 ∧ (g.linkPreimage host n).value.1 = .error e := by
  unfold linkNode at h
  split at h
  case h_3 hkind => exact ⟨hkind, rfl, h⟩
  case h_7 => split_ifs at h
  all_goals cases h

/-- A search that fails has linked nothing. -/
theorem findEdges_of_error {uid : NodeId} (h : (g.findEdges host uid).value.1 = .error e) :
    (g.findEdges host uid).value.2 = g := by
  unfold findEdges at h ⊢
  split
  · rfl
  · next n hn =>
    simp only [hn] at h
    split
    · next opcode hlive hopcode =>
      simp only [hlive, hopcode, Logged.value_bind] at h ⊢
      obtain ⟨hkind, rfl, herror⟩ := linkNode_error h
      simp only [linkNode, hkind]
      exact linkPreimage_of_error herror
    · rfl

end Failure
end Graph
end OperandFlow
