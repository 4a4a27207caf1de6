import OperandFlow.Text.Blank
import OperandFlow.Text.Numeral

/-! Instructions of the machine, and the categories their nodes fall into. -/
namespace OperandFlow

/-- What a node stands for. -/
inductive Category where
  | environmentContext
  | stateVariable
  | dataFlow
  | controlFlow
  | logInformation
  | entryExit
  | deleted
  | unknown
deriving DecidableEq, Inhabited

namespace Category

def all : List Category :=
  [environmentContext, stateVariable, dataFlow, controlFlow, logInformation, entryExit, deleted,
    unknown]

def name : Category → String
  | environmentContext => "environment-context"
  | stateVariable => "state-variable"
  | dataFlow => "data-flow"
  | controlFlow => "control-flow"
  | logInformation => "log-information"
  | entryExit => "entry-exit"
  | deleted => "deleted"
  | unknown => "unknown"

def ofName? (name : String) : Option Category :=
  all.find? (·.name = name)

end Category

/-- The instructions, in the order they are listed in. -/
inductive Opcode where
  | stop | add | mul | sub | div | sdiv | mod | smod | addmod | mulmod | exp | signextend
  | lt | gt | slt | sgt | eq | iszero | and | or | xor | not | byte | shl | shr | sar
  | sha3
  | address | balance | origin | caller | callvalue | calldataload | calldatasize | calldatacopy
  | codesize | codecopy | gasprice | extcodesize | extcodecopy | returndatasize | returndatacopy
  | extcodehash
  | blockhash | coinbase | timestamp | number | difficulty | gaslimit | chainid | selfbalance
  | basefee
  | pop | mload | mstore | mstore8 | sload | sstore | jump | jumpi | pc | msize | gas | jumpdest
  | push (bytes : Fin 33)
  /-- The first of the sixteen is `dup 0`. -/
  | dup (depth : Fin 16)
  /-- The first of the sixteen is `swap 0`. -/
  | swap (depth : Fin 16)
  | log (topics : Fin 5)
  | create | call | callcode | ret | delegatecall | create2 | staticcall | revert | invalid
  | selfdestruct
deriving DecidableEq, Inhabited

namespace Opcode

/-- All instructions outside the numbered families. -/
def plain : List Opcode :=
  [stop, add, mul, sub, div, sdiv, mod, smod, addmod, mulmod, exp, signextend,
    lt, gt, slt, sgt, eq, iszero, and, or, xor, not, byte, shl, shr, sar,
    sha3,
    address, balance, origin, caller, callvalue, calldataload, calldatasize, calldatacopy,
    codesize, codecopy, gasprice, extcodesize, extcodecopy, returndatasize, returndatacopy,
    extcodehash,
    blockhash, coinbase, timestamp, number, difficulty, gaslimit, chainid, selfbalance, basefee,
    pop, mload, mstore, mstore8, sload, sstore, jump, jumpi, pc, msize, gas, jumpdest,
    create, call, callcode, ret, delegatecall, create2, staticcall, revert, invalid, selfdestruct]

def name : Opcode → String
  | stop => "STOP"
  | add => "ADD"
  | mul => "MUL"
  | sub => "SUB"
  | div => "DIV"
  | sdiv => "SDIV"
  | mod => "MOD"
  | smod => "SMOD"
  | addmod => "ADDMOD"
  | mulmod => "MULMOD"
  | exp => "EXP"
  | signextend => "SIGNEXTEND"
  | lt => "LT"
  | gt => "GT"
  | slt => "SLT"
  | sgt => "SGT"
  | eq => "EQ"
  | iszero => "ISZERO"
  | and => "AND"
  | or => "OR"
  | xor => "XOR"
  | not => "NOT"
  | byte => "BYTE"
  | shl => "SHL"
  | shr => "SHR"
  | sar => "SAR"
  | sha3 => "SHA3"
  | address => "ADDRESS"
  | balance => "BALANCE"
  | origin => "ORIGIN"
  | caller => "CALLER"
  | callvalue => "CALLVALUE"
  | calldataload => "CALLDATALOAD"
  | calldatasize => "CALLDATASIZE"
  | calldatacopy => "CALLDATACOPY"
  | codesize => "CODESIZE"
  | codecopy => "CODECOPY"
  | gasprice => "GASPRICE"
  | extcodesize => "EXTCODESIZE"
  | extcodecopy => "EXTCODECOPY"
  | returndatasize => "RETURNDATASIZE"
  | returndatacopy => "RETURNDATACOPY"
  | extcodehash => "EXTCODEHASH"
  | blockhash => "BLOCKHASH"
  | coinbase => "COINBASE"
  | timestamp => "TIMESTAMP"
  | number => "NUMBER"
  | difficulty => "DIFFICULTY"
  | gaslimit => "GASLIMIT"
  | chainid => "CHAINID"
  | selfbalance => "SELFBALANCE"
  | basefee => "BASEFEE"
  | pop => "POP"
  | mload => "MLOAD"
  | mstore => "MSTORE"
  | mstore8 => "MSTORE8"
  | sload => "SLOAD"
  | sstore => "SSTORE"
  | jump => "JUMP"
  | jumpi => "JUMPI"
  | pc => "PC"
  | msize => "MSIZE"
  | gas => "GAS"
  | jumpdest => "JUMPDEST"
  | push n => "PUSH" ++ toString n.val
  | dup n => "DUP" ++ toString (n.val + 1)
  | swap n => "SWAP" ++ toString (n.val + 1)
  | log n => "LOG" ++ toString n.val
  | create => "CREATE"
  | call => "CALL"
  | callcode => "CALLCODE"
  | ret => "RETURN"
  | delegatecall => "DELEGATECALL"
  | create2 => "CREATE2"
  | staticcall => "STATICCALL"
  | revert => "REVERT"
  | invalid => "INVALID"
  | selfdestruct => "SELFDESTRUCT"

/-- Position in the list of instructions, then within a numbered family. -/
def rank (o : Opcode) : Nat × Nat :=
  let numbered := match o with
    | push n => n.val
    | dup n => n.val
    | swap n => n.val
    | log n => n.val
    | _ => 0
  (o.ctorIdx, numbered)

def le (a b : Opcode) : Bool :=
  a.rank.1 < b.rank.1 || (a.rank.1 = b.rank.1 && a.rank.2 ≤ b.rank.2)

/-- A member of a numbered family; the number has one or two digits. -/
def numbered? (cs : List Char) : Option Opcode := do
  let digits := (cs.reverse.takeWhile Char.isDigit).reverse
  let family := (cs.reverse.dropWhile Char.isDigit).reverse
  guard (digits.length ≤ 2)
  let n ← Text.digits? 10 digits
  if family = ['P', 'U', 'S', 'H'] then
    if h : n < 33 then some (push ⟨n, h⟩) else none
  else if family = ['D', 'U', 'P'] then
    if h : 0 < n ∧ n ≤ 16 then some (dup ⟨n - 1, by omega⟩) else none
  else if family = ['S', 'W', 'A', 'P'] then
    if h : 0 < n ∧ n ≤ 16 then some (swap ⟨n - 1, by omega⟩) else none
  else if family = ['L', 'O', 'G'] then
    if h : n < 5 then some (log ⟨n, h⟩) else none
  else none

/-- Reads a mnemonic without regard to case and outer blanks. -/
def ofMnemonic? (text : String) : Option Opcode :=
  let cs := (Text.trim text.toList).map Char.toUpper
  let upper := String.ofList cs
  if upper = "KECCAK256" then some sha3
  else (plain.find? (·.name = upper)).or (numbered? cs)

/-- The category of a node whose host gives none. -/
def category : Opcode → Category
  | mload | mstore | mstore8 | sload | sstore => .stateVariable
  | calldataload | calldatasize | caller | address | origin | callvalue | balance
  | selfbalance | timestamp | number | chainid => .environmentContext
  | push _ | add | mul | sub | div | sdiv | mod | smod | addmod | mulmod | exp
  | signextend | lt | gt | slt | sgt | eq | iszero | and | or | xor | not | byte
  | shl | shr | sar | sha3 => .dataFlow
  | log _ => .logInformation
  | jump | jumpi | jumpdest | call | callcode | delegatecall | staticcall | stop
  | ret | revert | selfdestruct | invalid => .controlFlow
  | _ => .unknown

/-- A node is made before the instruction executes. -/
def reportsOperands : Opcode → Bool
  | log n => 2 ≤ n.val
  | sstore | sload | sha3 | calldataload | and | or | caller | address | stop | ret
  | revert | add | sub | call | delegatecall | iszero | jumpdest | jump | jumpi => true
  | _ => false

/-- The result of the instruction completes its node. -/
def reportsResult : Opcode → Bool
  | and | or | sha3 | sload | caller | address | calldataload | add | sub | iszero
  | call | delegatecall => true
  | _ => false

def isJump : Opcode → Bool
  | jump | jumpi => true
  | _ => false

def isHalt : Opcode → Bool
  | stop | ret | revert | selfdestruct | invalid => true
  | _ => false

def isCall : Opcode → Bool
  | call | callcode | delegatecall | staticcall => true
  | _ => false

def isStorage : Opcode → Bool
  | sload | sstore => true
  | _ => false

def isMask : Opcode → Bool
  | and | or => true
  | _ => false

/-- How many operands must be there. -/
def required : Opcode → Nat
  | sstore | and | or | add | sub | jumpi | call | delegatecall => 2
  | sload | sha3 | calldataload | iszero | jump => 1
  | log n => n.val
  | _ => 0

end Opcode
end OperandFlow
