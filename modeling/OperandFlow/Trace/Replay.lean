import OperandFlow.Analysis
import OperandFlow.Trace.Record

/-! Feeding instructions to an analysis as a host executes them, and replaying a trace of them. A bad
instruction is logged and passed over. -/
namespace OperandFlow

/-- An error that ends a replay. -/
inductive ReplayError where
  /-- A line is no text. -/
  | unreadable
  | malformed (line : Nat)
deriving DecidableEq

namespace ReplayError

def message : ReplayError → String
  | unreadable => "failed to read trace"
  | malformed line => s!"malformed trace record in line {line}"

end ReplayError

structure ReplaySummary where
  records : Nat
  nodes : Nat

/-- Drops every 0x at the front. -/
def dropMarks : List UInt8 → List UInt8
  | 48 :: 120 :: rest => dropMarks rest
  | digits => digits

namespace Analysis

/-- The opcode of a mnemonic that `hooked` holds of. A bad mnemonic is logged. -/
def hookedOpcode (s : Analysis) (mnemonic : String) (hooked : Opcode → Bool) :
    Option Opcode × Analysis :=
  match Opcode.ofMnemonic mnemonic with
  | .ok opcode => (if hooked opcode then some opcode else none, s)
  | .error e => (none, s.log [.mnemonicRefused e])

/-- Call data that is not hexadecimal is logged and dropped. -/
def decodeCallData (s : Analysis) (opcode : Opcode) (address : UInt64) (data : Option String) :
    Option (List UInt8) × Analysis :=
  match data.map fun text => Text.unhex (dropMarks text.toUTF8.toList) with
  | none => (none, s)
  | some (.ok bytes) => (some bytes, s)
  | some (.error e) => (none, s.log [.callDataIgnored opcode address e])

/-- Makes the node of an instruction, if it is traced. -/
def onPre (s : Analysis) (e : PreEvent) (state : Option String) : Option NodeId × Analysis :=
  match s.hookedOpcode e.opcode Opcode.reportsOperands with
  | (none, s) => (none, s)
  | (some opcode, s) =>
    let (callData, s) := s.decodeCallData opcode e.address e.callData
    let arrival : Arrival :=
      { function := e.function
        tx := e.tx
        opcode := opcode
        address := e.address
        category := .unknown
        operands := e.operands
        callData := callData
        logData := e.logData
        state := state }
    match s.add arrival with
    | (.ok uid, s) => (some uid, s)
    | (.error error, s) => (none, s.log [.instructionSkipped opcode e.address e.function error])

/-- Completes the node of an instruction, if one waits. -/
def onPost (s : Analysis) (e : PostEvent) (state : Option String) : Option NodeId × Analysis :=
  match s.hookedOpcode e.opcode Opcode.reportsResult with
  | (none, s) => (none, s)
  | (some opcode, s) =>
    match s.complete e.function opcode e.result state with
    | (.ok uid, s) => (some uid, s)
    | (.error error, s) => (none, s.log [.resultDropped opcode error])

def apply (s : Analysis) : HookRecord → Analysis
  | .pre e => (s.onPre e none).2
  | .post e => (s.onPost e none).2

/-- Lines end at a line feed, which a carriage return may stand before. -/
def linesOf (seen : List UInt8) : List UInt8 → List (List UInt8)
  | [] => if seen.isEmpty then [] else [seen.reverse]
  | 10 :: rest =>
    let line := match seen with
      | 13 :: before => before.reverse
      | all => all.reverse
    line :: linesOf [] rest
  | b :: rest => linesOf (b :: seen) rest

/-- Applies the records of the lines from number `line` on, as far as they can be read. -/
def replayLines (line records : Nat) (s : Analysis) :
    List (List UInt8) → Except ReplayError Nat × Analysis
  | [] => (.ok records, s)
  | bytes :: rest =>
    match String.fromUTF8? (ByteArray.mk bytes.toArray) with
    | none => (.error .unreadable, s)
    | some text =>
      if Text.allBlank text.toList then replayLines (line + 1) records s rest
      else
        match HookRecord.read? text with
        | none => (.error (.malformed line), s)
        | some record => replayLines (line + 1) (records + 1) (s.apply record) rest

/-- Applies all records of a trace, and links what still waits for its result then. -/
def replay (s : Analysis) (trace : List UInt8) : Except ReplayError ReplaySummary × Analysis :=
  match s.replayLines 1 0 (linesOf [] trace) with
  | (.error e, t) => (.error e, t)
  | (.ok records, t) =>
    let t := t.flush none
    let nodes := t.graph.size - s.graph.size
    (.ok ⟨records, nodes⟩, t.log [.traceReplayed records nodes])

end Analysis
end OperandFlow
