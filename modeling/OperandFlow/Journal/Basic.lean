import Std.Data.HashSet
import OperandFlow.Journal.Profile

/-! The journal of an analysis: what events leave behind. -/
namespace OperandFlow

structure Journal where
  /-- Events of note, oldest first. -/
  history : Array Event
  anomalies : Array Anomaly
  profile : Profile
  /-- Values whose canonical rendering was looked at. -/
  rendered : Std.HashSet DatumId

namespace Journal

def empty : Journal := ⟨#[], #[], .empty, {}⟩

/-- Looking at a rendering once more is of no note. -/
def isRepeated (j : Journal) : Event → Bool
  | .consulted d => j.rendered.contains d.id
  | _ => false

def note (j : Journal) (e : Event) : Journal :=
  let j := { j with history := j.history.push e, profile := j.profile.observe e }
  match e with
  | .consulted d => { j with rendered := j.rendered.insert d.id }
  | .anomalyFound a => { j with anomalies := j.anomalies.push a }
  | _ => j

def observe (j : Journal) (e : Event) : Journal :=
  if j.isRepeated e then j else j.note e

def observeAll (j : Journal) (es : List Event) : Journal :=
  es.foldl observe j

/-- Forgets all but the history. -/
def reset (j : Journal) : Journal :=
  { empty with history := j.history }

/-- The queries put to the oracle, oldest first. -/
def queries (j : Journal) : List (Value × Value) :=
  j.history.toList.filterMap fun
    | .oracleAsked _ l r => some (l, r)
    | _ => none

end Journal
end OperandFlow
