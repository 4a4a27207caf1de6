import OperandFlow.Json.Printer
import OperandFlow.Json.Reader
import OperandFlow.Value

/-! The records of a trace, one JSON text a line. -/
namespace OperandFlow

/-- An instruction that is about to execute. -/
structure PreEvent where
  function : String
  tx : UInt64
  opcode : String
  address : UInt64
  /-- Top of the stack first. -/
  operands : List Value
  /-- In hexadecimal digits. -/
  callData : Option String
  logData : Option Value
deriving DecidableEq

/-- An instruction that has executed, with the value it left on the stack. -/
structure PostEvent where
  function : String
  opcode : String
  result : Value
deriving DecidableEq

inductive HookRecord where
  | pre (event : PreEvent)
  | post (event : PostEvent)
deriving DecidableEq

namespace Value

/-- The bound of widths. -/
def sizeBound : Nat := 4294967296

def toJson (v : Value) : Json :=
  .obj [("size", .nat v.size.toNat), ("expr", .str v.expr)]

def ofJson? (j : Json) : Option Value := do
  match ← j.fields? ["size", "expr"] with
  | [size, some expr] =>
    let size ← match size with
      | none => some 0
      | some j => j.natBelow? sizeBound
    return ⟨UInt32.ofNat size, ← expr.str?⟩
  | _ => none

end Value

namespace HookRecord

def word? (j : Json) : Option UInt64 :=
  (j.natBelow? Text.wordBound).map UInt64.ofNat

/-- A field that may be missing or null. -/
def optional? {α : Type} (read : Json → Option α) : Option Json → Option (Option α)
  | none | some .null => some none
  | some j => (read j).map some

def values? : Option Json → Option (List Value)
  | none => some []
  | some (.arr items) => items.mapM Value.ofJson?
  | some _ => none

def preFields : List String :=
  ["function", "tx_id", "opcode", "address", "operands", "call_data", "log_data"]

def pre? (j : Json) : Option PreEvent := do
  match ← j.fields? preFields with
  | [some function, some tx, some opcode, some address, operands, callData, logData] =>
    return {
      function := ← function.str?
      tx := ← word? tx
      opcode := ← opcode.str?
      address := ← word? address
      operands := ← values? operands
      callData := ← optional? Json.str? callData
      logData := ← optional? Value.ofJson? logData }
  | _ => none

def post? (j : Json) : Option PostEvent := do
  match ← j.fields? ["function", "opcode", "result"] with
  | [some function, some opcode, some result] =>
    return ⟨← function.str?, ← opcode.str?, ← Value.ofJson? result⟩
  | _ => none

def ofHook? (hook : String) (fields : Json) : Option HookRecord :=
  if hook = "pre" then (pre? fields).map .pre
  else if hook = "post" then (post? fields).map .post
  else none

/-- Nesting beyond this is refused. -/
def maxDepth : Nat := 127

/-- The hook stands under its key, or first in an array. -/
def ofJson? (j : Json) : Option HookRecord := do
  guard (j.readable && j.depth ≤ maxDepth)
  match j with
  | .obj members =>
    match members.filter (·.1.text = "hook") with
    | [(_, .str hook)] => ofHook? hook j
    | _ => none
  | .arr (.str hook :: fields) => ofHook? hook (.arr fields)
  | _ => none

def read? (text : String) : Option HookRecord := do
  ofJson? (← Json.read? text)

/-- The fields that are always written. -/
def preMembers (e : PreEvent) : List (Key × Json) :=
  [("hook", .str "pre"), ("function", .str e.function), ("tx_id", .nat e.tx.toNat),
    ("opcode", .str e.opcode), ("address", .nat e.address.toNat),
    ("operands", .arr (e.operands.map Value.toJson))]

/-- A field that is written only if it is there. -/
def optionalMember (key : Key) : Option Json → List (Key × Json)
  | none => []
  | some j => [(key, j)]

def preJson (e : PreEvent) : Json :=
  .obj (preMembers e ++ optionalMember "call_data" (e.callData.map .str) ++
    optionalMember "log_data" (e.logData.map Value.toJson))

def postJson (e : PostEvent) : Json :=
  .obj [("hook", .str "post"), ("function", .str e.function), ("opcode", .str e.opcode),
    ("result", e.result.toJson)]

def toJson : HookRecord → Json
  | .pre e => preJson e
  | .post e => postJson e

def render (r : HookRecord) : String :=
  r.toJson.render

end HookRecord
end OperandFlow
