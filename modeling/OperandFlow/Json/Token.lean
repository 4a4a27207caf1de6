import OperandFlow.Json.Numeral

/-! The tokens of a JSON text, found in one pass over its characters. -/
namespace OperandFlow.Json
open Text

inductive Token where
  | mark (c : Char)
  /-- A string, and whether it was written with escapes; nothing if it holds half a surrogate
  pair. -/
  | text (key : Option Key)
  | scalar (j : Json)

/-- A character of a string, a character that an escape stands for, or the code unit that an
escape gives. -/
inductive Piece where
  | char (c : Char)
  | short (c : Char)
  | unit (n : Nat)

def isHighSurrogate (n : Nat) : Bool :=
  0xD800 ≤ n && n < 0xDC00

def isLowSurrogate (n : Nat) : Bool :=
  0xDC00 ≤ n && n < 0xE000

/-- The characters of a string in front of `tail`, where its pieces are in reverse. The halves of
a surrogate pair must stand together. -/
def assembleFrom? (tail : List Char) : List Piece → Option (List Char)
  | [] => some tail
  | .char c :: rest => assembleFrom? (c :: tail) rest
  | .short c :: rest => assembleFrom? (c :: tail) rest
  | .unit low :: .unit high :: rest =>
    if isLowSurrogate low then
      if isHighSurrogate high then
        let code := 0x10000 + (high - 0xD800) * 0x400 + (low - 0xDC00)
        assembleFrom? (Char.ofNat code :: tail) rest
      else none
    else if isHighSurrogate low then none
    else assembleFrom? (Char.ofNat low :: tail) (.unit high :: rest)
  | .unit n :: rest =>
    if isHighSurrogate n || isLowSurrogate n then none
    else assembleFrom? (Char.ofNat n :: tail) rest

def isEscape : Piece → Bool
  | .char _ => false
  | _ => true

/-- The string whose pieces are in reverse. -/
def key? (seen : List Piece) : Option Key :=
  (assembleFrom? [] seen).map fun cs => ⟨String.ofList cs, seen.any isEscape⟩

/-- What one character behind a backslash stands for. -/
def escaped? : Char → Option Char
  | '"' => some '"'
  | '\\' => some '\\'
  | '/' => some '/'
  | 'b' => some '\x08'
  | 'f' => some '\x0c'
  | 'n' => some '\n'
  | 'r' => some '\r'
  | 't' => some '\t'
  | _ => none

/-- The value of a lexeme that is no string. -/
def scalar? (lexeme : List Char) : Option Json :=
  if lexeme = ['n', 'u', 'l', 'l'] then some .null
  else if lexeme = ['t', 'r', 'u', 'e'] then some (.bool true)
  else if lexeme = ['f', 'a', 'l', 's', 'e'] then some (.bool false)
  else (Numeral.ofLexeme? lexeme).map (·.value lexeme)

/-- What the scanner is in the middle of; what it has read of it is in reverse. -/
inductive Mode where
  | between
  | lexeme (seen : List Char)
  | string (seen : List Piece)
  | escape (seen : List Piece)
  | hex (seen : List Piece) (value digits : Nat)

/-- The tokens so far in reverse, and the mode. -/
structure Scanner where
  tokens : List Token
  mode : Mode

def isLexemeChar (c : Char) : Bool :=
  c.isAlphanum || c = '-' || c = '+' || c = '.'

def isSpace (c : Char) : Bool :=
  c = ' ' || c = '\t' || c = '\n' || c = '\r'

def isMark (c : Char) : Bool :=
  c = '[' || c = ']' || c = '\x7b' || c = '\x7d' || c = ',' || c = ':'

namespace Scanner

/-- A character between two tokens. -/
def between (tokens : List Token) (c : Char) : Option Scanner :=
  if isSpace c then some ⟨tokens, .between⟩
  else if isMark c then some ⟨.mark c :: tokens, .between⟩
  else if c = '"' then some ⟨tokens, .string []⟩
  else if isLexemeChar c then some ⟨tokens, .lexeme [c]⟩
  else none

def closeLexeme (tokens : List Token) (seen : List Char) : Option (List Token) :=
  (scalar? seen.reverse).map (.scalar · :: tokens)

def step (s : Scanner) (c : Char) : Option Scanner :=
  match s.mode with
  | .between => between s.tokens c
  | .lexeme seen =>
    if isLexemeChar c then some ⟨s.tokens, .lexeme (c :: seen)⟩
    else do between (← closeLexeme s.tokens seen) c
  | .string seen =>
    if c = '"' then some ⟨.text (key? seen) :: s.tokens, .between⟩
    else if c = '\\' then some ⟨s.tokens, .escape seen⟩
    else if c.toNat < 0x20 then none
    else some ⟨s.tokens, .string (.char c :: seen)⟩
  | .escape seen =>
    if c = 'u' then some ⟨s.tokens, .hex seen 0 0⟩
    else (escaped? c).map fun d => ⟨s.tokens, .string (.short d :: seen)⟩
  | .hex seen value digits => do
    let value := value * 16 + (← digit? 16 c)
    if digits = 3 then some ⟨s.tokens, .string (.unit value :: seen)⟩
    else some ⟨s.tokens, .hex seen value (digits + 1)⟩

def finish (s : Scanner) : Option (List Token) :=
  match s.mode with
  | .between => some s.tokens.reverse
  | .lexeme seen => (closeLexeme s.tokens seen).map List.reverse
  | _ => none

end Scanner

/-- The tokens of a text. -/
def tokens? (cs : List Char) : Option (List Token) := do
  (← cs.foldlM Scanner.step ⟨[], .between⟩).finish

end OperandFlow.Json
