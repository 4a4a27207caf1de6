import OperandFlow.Proofs.Json.RoundTrip
import OperandFlow.Trace.Record

/-! Records of a trace read back as they were written. -/
namespace OperandFlow

namespace Value

theorem plain_toJson (v : Value) : v.toJson.Plain := by
  have hsize : v.size.toNat < Text.wordBound := Nat.lt_trans v.size.toNat_lt (by decide)
  apply Json.Plain.of_members
  simp only [List.forall_mem_cons, List.not_mem_nil,
    false_implies, implies_true, and_true]
  exact ⟨⟨by decide, .nat hsize⟩, by decide, .str v.expr⟩

theorem ofJson?_toJson (v : Value) : ofJson? v.toJson = some v := by
  have hsize : v.size.toNat < sizeBound := v.size.toNat_lt
  simp [ofJson?, toJson, Json.fields?, Json.nat, Json.natBelow?, hsize, Json.str?]

end Value

namespace HookRecord

theorem word?_nat (w : UInt64) : word? (.nat w.toNat) = some w := by
  have hword : w.toNat < Text.wordBound := w.toNat_lt
  simp [word?, Json.nat, Json.natBelow?, hword]

theorem values?_arr (vs : List Value) : values? (some (.arr (vs.map Value.toJson))) = some vs := by
  unfold values?
  induction vs with
  | nil => rfl
  | cons v vs ih => simp_all [Value.ofJson?_toJson]

theorem fields?_preJson (e : PreEvent) :
    (preJson e).fields? preFields = some [some (.str e.function), some (.nat e.tx.toNat),
      some (.str e.opcode), some (.nat e.address.toNat), some (.arr (e.operands.map Value.toJson)),
      e.callData.map .str, e.logData.map Value.toJson] := by
  unfold preJson preFields preMembers Json.fields?
  cases e.callData <;> cases e.logData <;> simp [optionalMember]

theorem pre?_preJson (e : PreEvent) : pre? (preJson e) = some e := by
  have hcall : optional? Json.str? (e.callData.map .str) = some e.callData := by
    cases e.callData <;> rfl
  have hlog : optional? Value.ofJson? (e.logData.map Value.toJson) = some e.logData := by
    cases e.logData with
    | none => rfl
    | some v =>
      change (Value.ofJson? v.toJson).map some = _
      rw [Value.ofJson?_toJson]
      rfl
  rw [pre?, fields?_preJson]
  simp [Json.str?, word?_nat, values?_arr, hcall, hlog]

theorem post?_postJson (e : PostEvent) : post? (postJson e) = some e := by
  simp [post?, postJson, Json.fields?, Json.str?, Value.ofJson?_toJson]

/-- A field that may be missing is written under its key or not at all. -/
theorem of_mem_optionalMember {key : Key} {field : Option Json} {m : Key × Json}
    (h : m ∈ optionalMember key field) : m.1 = key ∧ field = some m.2 := by
  cases field with
  | none => cases h
  | some j =>
    rw [optionalMember, List.mem_singleton] at h
    subst h
    exact ⟨rfl, rfl⟩

theorem plain_preJson (e : PreEvent) : (preJson e).Plain := by
  have hoperands : (Json.arr (e.operands.map Value.toJson)).Plain := by
    refine .arr fun j hj => ?_
    obtain ⟨v, -, rfl⟩ := List.mem_map.mp hj
    exact v.plain_toJson
  apply Json.Plain.of_members
  simp only [preMembers, List.forall_mem_append, List.forall_mem_cons, List.not_mem_nil,
    false_implies, implies_true, and_true]
  refine ⟨⟨⟨⟨by decide, .str _⟩, ⟨by decide, .str _⟩, ⟨by decide, .nat e.tx.toNat_lt⟩,
    ⟨by decide, .str _⟩, ⟨by decide, .nat e.address.toNat_lt⟩, by decide, hoperands⟩, ?_⟩, ?_⟩
  · intro m hm
    obtain ⟨hkey, hfield⟩ := of_mem_optionalMember hm
    obtain ⟨data, -, hdata⟩ := Option.map_eq_some_iff.mp hfield
    rw [hkey, ← hdata]
    exact ⟨by decide, .str data⟩
  · intro m hm
    obtain ⟨hkey, hfield⟩ := of_mem_optionalMember hm
    obtain ⟨data, -, hdata⟩ := Option.map_eq_some_iff.mp hfield
    rw [hkey, ← hdata]
    exact ⟨by decide, data.plain_toJson⟩

theorem plain_toJson (r : HookRecord) : r.toJson.Plain := by
  cases r with
  | pre e => exact plain_preJson e
  | post e =>
    apply Json.Plain.of_members
    simp only [List.forall_mem_cons, List.not_mem_nil,
    false_implies, implies_true, and_true]
    exact ⟨⟨by decide, .str _⟩, ⟨by decide, .str _⟩, ⟨by decide, .str _⟩, by decide,
      e.result.plain_toJson⟩

theorem depth_preJson_le (e : PreEvent) : (preJson e).depth ≤ 3 := by
  have hvalue : ∀ v : Value, v.toJson.depth ≤ 1 := fun v => Nat.le_refl 1
  have hoperands : (Json.arr (e.operands.map Value.toJson)).depth ≤ 2 := by
    apply Json.depth_arr_le
    intro j hj
    obtain ⟨v, -, rfl⟩ := List.mem_map.mp hj
    exact hvalue v
  apply Json.depth_obj_le
  simp only [preMembers, List.forall_mem_append, List.forall_mem_cons, List.not_mem_nil,
    false_implies, implies_true, and_true]
  refine ⟨⟨⟨?_, ?_, ?_, ?_, ?_, hoperands⟩, ?_⟩, ?_⟩
  any_goals exact Nat.zero_le 2
  · intro m hm
    obtain ⟨data, -, hdata⟩ := Option.map_eq_some_iff.mp (of_mem_optionalMember hm).2
    exact hdata ▸ Nat.zero_le 2
  · intro m hm
    obtain ⟨data, -, hdata⟩ := Option.map_eq_some_iff.mp (of_mem_optionalMember hm).2
    exact hdata ▸ Nat.le_succ 1

theorem depth_toJson_le (r : HookRecord) : r.toJson.depth ≤ maxDepth := by
  cases r with
  | pre e => exact Nat.le_trans (depth_preJson_le e) (by decide)
  | post e => exact Nat.le_trans (Nat.le_refl 2) (by decide)

theorem ofJson?_obj {members : List (Key × Json)} (key : Key) {hook : String}
    (hplain : (Json.obj members).Plain) (hdepth : (Json.obj members).depth ≤ maxDepth)
    (hhook : members.filter (·.1.text = "hook") = [(key, .str hook)]) :
    ofJson? (.obj members) = ofHook? hook (.obj members) := by
  unfold ofJson?
  simp [guard, hplain.readable, hdepth, hhook]

theorem ofJson?_toJson (r : HookRecord) : ofJson? r.toJson = some r := by
  have hplain := r.plain_toJson
  have hdepth := r.depth_toJson_le
  cases r with
  | pre e =>
    have hhook : (preMembers e ++ optionalMember "call_data" (e.callData.map .str) ++
        optionalMember "log_data" (e.logData.map Value.toJson)).filter (·.1.text = "hook") =
          [(⟨"hook", false⟩, .str "pre")] := by
      cases e.callData <;> cases e.logData <;> simp [optionalMember, preMembers]
    rw [toJson, preJson, ofJson?_obj _ hplain hdepth hhook]
    exact congrArg (Option.map HookRecord.pre) (pre?_preJson e)
  | post e =>
    have hhook : ofJson? (postJson e) = ofHook? "post" (postJson e) :=
      ofJson?_obj ⟨"hook", false⟩ hplain hdepth (by simp)
    rw [toJson, hhook]
    exact congrArg (Option.map HookRecord.post) (post?_postJson e)

theorem read?_render (r : HookRecord) : read? r.render = some r := by
  rw [read?, render, r.plain_toJson.read?_render, Option.bind_eq_bind, Option.bind_some,
    ofJson?_toJson]

/-- What is written of a record reads back as that record. So a record that was read from any
spelling of it is still the same after it was written and read again. -/
theorem written_reads_back :
    (∀ r : HookRecord, read? r.render = some r) ∧
      ∀ text : String, ((read? text).bind fun r => read? r.render) = read? text := by
  refine ⟨read?_render, fun text => ?_⟩
  cases read? text with
  | none => rfl
  | some r => exact read?_render r

-- Keys in another order, one that is not known, escapes, and a size that is left out.
example : read? ("\x7b\"opcode\":\"SLOAD\",\"hook\":\"post\",\"gas\":[1e3]," ++
    "\"function\":\"\\u0066\\n\",\"result\":\x7b\"expr\":\"\\\\\"\x7d\x7d") =
    some (.post ⟨"f\n", "SLOAD", ⟨0, "\\"⟩⟩) := by
  decide +kernel

end HookRecord
end OperandFlow
