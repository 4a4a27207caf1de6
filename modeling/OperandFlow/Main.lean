import OperandFlow.CommandLine

/-! The program: arguments and a file in, a report out. -/
namespace OperandFlow.Main

open CommandLine

def readFile (path : String) : IO File := do
  match ← (IO.FS.Handle.mk path .read).toBaseIO with
  | .error _ => return .missing
  | .ok handle =>
    match ← handle.readBinToEnd.toBaseIO with
    | .error _ => return .unreadable
    | .ok bytes => return .content bytes.toList

def finish (result : Result) : IO UInt32 := do
  for line in result.log do
    IO.eprintln s!"[{line.level.name}] {line.message}"
  IO.print result.stdout
  if let some failure := result.failure then
    IO.eprintln failure
  return result.code

def logsAt (level : String) (line : Line) : Bool :=
  line.level.verbosity ≤ (levels.reverse.idxOf level)

end OperandFlow.Main

open OperandFlow OperandFlow.CommandLine OperandFlow.Main in
def main (args : List String) : IO UInt32 := do
  match (parse args).plain? with
  | .ok result => finish result
  | .error request =>
    let result := runReplay request (← readFile request.file)
    finish { result with log := result.log.filter (logsAt request.level) }
