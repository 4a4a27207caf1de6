import OperandFlow.Json.Token

/-! Reading a JSON text, in one pass over its tokens with a stack of open containers. -/
namespace OperandFlow.Json

/-- An open container, with what it holds so far in reverse. -/
inductive Frame where
  | items (done : List Json)
  | members (done : List (Option Key × Json))
  /-- A member whose key is read. -/
  | member (done : List (Option Key × Json)) (key : Option Key)

/-- What may come next. -/
inductive Focus where
  | value
  | itemOrClose
  | key
  | keyOrClose
  | colon
  | after (j : Json)

structure Reader where
  stack : List Frame
  focus : Focus

/-- An object with an unreadable key is unreadable. -/
def ofMembers (members : List (Option Key × Json)) : Json :=
  match members.mapM fun (key, j) => key.map (·, j) with
  | some members => .obj members
  | none => .unreadable

namespace Reader

/-- The token starts a value. -/
def start? (stack : List Frame) : Token → Option Reader
  | .scalar j => some ⟨stack, .after j⟩
  | .text key => some ⟨stack, .after ((key.map fun k => Json.str k.text).getD .unreadable)⟩
  | .mark '[' => some ⟨.items [] :: stack, .itemOrClose⟩
  | .mark '\x7b' => some ⟨.members [] :: stack, .keyOrClose⟩
  | _ => none

def step (r : Reader) (t : Token) : Option Reader :=
  match r.focus, t, r.stack with
  | .value, t, stack => start? stack t
  | .itemOrClose, .mark ']', .items _ :: outer => some ⟨outer, .after (.arr [])⟩
  | .itemOrClose, t, stack => start? stack t
  | .key, .text key, .members done :: outer => some ⟨.member done key :: outer, .colon⟩
  | .keyOrClose, .text key, .members done :: outer => some ⟨.member done key :: outer, .colon⟩
  | .keyOrClose, .mark '\x7d', .members _ :: outer => some ⟨outer, .after (.obj [])⟩
  | .colon, .mark ':', stack => some ⟨stack, .value⟩
  | .after j, .mark ',', .items done :: outer => some ⟨.items (j :: done) :: outer, .value⟩
  | .after j, .mark ']', .items done :: outer => some ⟨outer, .after (.arr (j :: done).reverse)⟩
  | .after j, .mark ',', .member done key :: outer =>
    some ⟨.members ((key, j) :: done) :: outer, .key⟩
  | .after j, .mark '\x7d', .member done key :: outer =>
    some ⟨outer, .after (ofMembers ((key, j) :: done).reverse)⟩
  | _, _, _ => none

def finish : Reader → Option Json
  | ⟨[], .after j⟩ => some j
  | _ => none

end Reader

/-- The value of a text that holds one value and blanks around it. -/
def read? (text : String) : Option Json := do
  (← (← tokens? text.toList).foldlM Reader.step ⟨[], .value⟩).finish

end OperandFlow.Json
