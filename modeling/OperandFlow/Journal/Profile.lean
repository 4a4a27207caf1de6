import OperandFlow.Journal.Event
import OperandFlow.Statistics
import OperandFlow.Text.Numeral

/-! Counts of what happened, and times of the searches. -/
namespace OperandFlow

structure Profile where
  nodesCreated : Nat
  nodesDeleted : Nat
  edgesCreated : Nat
  oracleQueries : Nat
  exhaustedSearches : Nat
  /-- Times of edge searches by opcode, in the order of opcodes. -/
  edgeSearches : List (Opcode × List Duration)
  originSearches : List Duration

namespace Profile

def empty : Profile := ⟨0, 0, 0, 0, 0, [], []⟩

def addEdgeSearch (opcode : Opcode) (took : Duration) :
    List (Opcode × List Duration) → List (Opcode × List Duration)
  | [] => [(opcode, [took])]
  | (o, times) :: rest =>
    if o = opcode then (o, times ++ [took]) :: rest
    else if opcode.le o then (opcode, [took]) :: (o, times) :: rest
    else (o, times) :: addEdgeSearch opcode took rest

def edgeSearchTimes (p : Profile) (opcode : Opcode) : List Duration :=
  (p.edgeSearches.lookup opcode).getD []

def observe (p : Profile) : Event → Profile
  | .nodeAdded .. => { p with nodesCreated := p.nodesCreated + 1 }
  | .nodeRemoved _ => { p with nodesDeleted := p.nodesDeleted + 1 }
  | .linked .. => { p with edgesCreated := p.edgesCreated + 1 }
  | .oracleAsked .. => { p with oracleQueries := p.oracleQueries + 1 }
  | .edgeSearchEnded opcode took =>
    { p with edgeSearches := addEdgeSearch opcode took p.edgeSearches }
  | .originSearchEnded took exhausted =>
    { p with
      originSearches := p.originSearches ++ [took]
      exhaustedSearches := p.exhaustedSearches + if exhausted then 1 else 0 }
  | _ => p

/-- Whole microseconds, capped at the largest 64-bit word. -/
def micros (d : Duration) : Nat :=
  min (d / 1000) (Text.wordBound - 1)

/-- Fills up to sixteen characters. -/
def padded (label : String) : String :=
  label ++ String.ofList (List.replicate (16 - label.length) ' ')

def summary (label : String) (times : List Duration) : String :=
  let sorted := ((times.map micros).mergeSort fun a b => decide (a ≤ b)).map Int.ofNat
  match Statistics.mean? (Text.wordBound - 1) sorted, Statistics.middle? sorted,
      sorted.getLast? with
  | some mean, some median, some max =>
    s!"  {padded label}n: {sorted.length}  mean: {mean}us  median: {median}us  max: {max}us\n"
  | _, _, _ => s!"  {padded label}n: 0\n"

def render (p : Profile) : String :=
  s!"nodes:            created: {p.nodesCreated}  deleted: {p.nodesDeleted}\n" ++
  s!"edges:            {p.edgesCreated}\n" ++
  s!"oracle queries:   {p.oracleQueries}\n" ++
  "edge finding:\n" ++
  String.join (p.edgeSearches.map fun (opcode, times) => summary opcode.name times) ++
  s!"start nodes:      exhausted: {p.exhaustedSearches}\n" ++
  summary "search" p.originSearches

end Profile
end OperandFlow
