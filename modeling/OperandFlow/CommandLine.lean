import OperandFlow.Trace.Replay

/-! The command line: what its arguments ask for, and what a replay reports. -/
namespace OperandFlow.CommandLine

/-- The options of all commands. -/
inductive Flag where
  | verbose
  | help
  | version
  | originLimit
  | loopThreshold
  | eager
  | fingerprint
  | dot
deriving DecidableEq

namespace Flag

def takesValue : Flag → Bool
  | verbose | originLimit | loopThreshold | dot => true
  | help | version | eager | fingerprint => false

def long : Flag → String
  | verbose => "verbose"
  | help => "help"
  | version => "version"
  | originLimit => "start-node-limit"
  | loopThreshold => "loop-threshold"
  | eager => "eager"
  | fingerprint => "fingerprint"
  | dot => "dot"

def short? : Flag → Option Char
  | verbose => some 'v'
  | help => some 'h'
  | version => some 'V'
  | fingerprint => some 'f'
  | _ => none

/-- The options that may stand before a command. -/
def general : List Flag := [verbose, help, version]

/-- The options that may stand behind the command replay. -/
def ofReplay : List Flag :=
  [verbose, help, originLimit, loopThreshold, eager, fingerprint, dot]

end Flag

def levels : List String := ["trace", "debug", "info", "warn", "error"]

/-- What a replay is asked to do. -/
structure Request where
  file : String
  level : String
  originLimit : Option Nat
  loopThreshold : Option Nat
  eager : Bool
  fingerprint : Bool
  dot : Option String

inductive Outcome where
  | usage
  | help
  | version
  | replay (request : Request)

/-- An argument by its form. -/
inductive Arg where
  | escape
  | long (name : String) (value : Option String)
  | short (cluster : List Char)
  | word (text : String)

/-- A dash alone is a word. -/
def Arg.ofString (text : String) : Arg :=
  match text.toList with
  | ['-', '-'] => .escape
  | '-' :: '-' :: cs =>
    match Text.breakOn ['='] cs with
    | some (name, value) => .long (String.ofList name) (some (String.ofList value))
    | none => .long (String.ofList cs) none
  | ['-'] => .word text
  | '-' :: cs => .short cs
  | _ => .word text

/-- The command that the arguments are read for. -/
inductive Command where
  | none
  | replay
  /-- Whatever follows is what help is asked for. -/
  | help (topics : List String)

/-- The arguments read so far. -/
structure Reading where
  command : Command
  /-- An option whose value comes next. -/
  pending : Option Flag
  wordsOnly : Bool
  /-- The options given at this level. -/
  given : List Flag
  level : String
  file : Option String
  originLimit : Option Nat
  loopThreshold : Option Nat
  dot : Option String

namespace Reading

def start : Reading where
  command := .none
  pending := none
  wordsOnly := false
  given := []
  level := "info"
  file := none
  originLimit := none
  loopThreshold := none
  dot := none

def number? (text : String) : Option Nat :=
  Text.numeral? 10 Text.wordBound text.toList

/-- No option may be given twice at one level. -/
def mark (r : Reading) (f : Flag) : Except Outcome Reading :=
  if f ∈ r.given then .error .usage else .ok { r with given := f :: r.given, pending := none }

def orUsage {α : Type} : Option α → Except Outcome α
  | some a => .ok a
  | none => .error .usage

def setFlag (r : Reading) (f : Flag) : Except Outcome Reading :=
  match f with
  | .help => .error .help
  | .version => .error .version
  | _ => r.mark f

def setValue (r : Reading) (f : Flag) (value : String) : Except Outcome Reading := do
  let r ← r.mark f
  match f with
  | .verbose => if value ∈ levels then return { r with level := value } else .error .usage
  | .originLimit => return { r with originLimit := some (← orUsage (number? value)) }
  | .loopThreshold => return { r with loopThreshold := some (← orUsage (number? value)) }
  | .dot => return { r with dot := some value }
  | _ => .error .usage

def flags (r : Reading) : List Flag :=
  match r.command with
  | .replay => Flag.ofReplay
  | .none | .help _ => Flag.general

def long (r : Reading) (name : String) (value : Option String) : Except Outcome Reading := do
  let f ← orUsage (r.flags.find? (·.long = name))
  match f.takesValue, value with
  | true, some value => r.setValue f value
  | true, none => return { r with pending := some f }
  | false, none => r.setFlag f
  | false, some _ => .error .usage

/-- One-letter options in a row; the value of the last one may follow at once. -/
def cluster (r : Reading) : List Char → Except Outcome Reading
  | [] => .ok r
  | c :: cs => do
    let f ← orUsage (r.flags.find? (·.short? = some c))
    if f.takesValue then
      match cs with
      | [] => return { r with pending := some f }
      | '=' :: value => r.setValue f (String.ofList value)
      | value => r.setValue f (String.ofList value)
    else (← r.setFlag f).cluster cs

/-- The first word is the command; the next one is the file of a replay. -/
def word (r : Reading) (text : String) : Except Outcome Reading :=
  match r.command, r.file with
  | .help topics, _ => .ok { r with command := .help (topics ++ [text]) }
  | .replay, none => .ok { r with file := some text }
  | .replay, some _ => .error .usage
  | .none, _ =>
    if r.wordsOnly then .error .usage
    else if text = "replay" then .ok { r with command := .replay, given := [] }
    else if text = "help" then .ok { r with command := .help [], wordsOnly := true }
    else .error .usage

def step (r : Reading) (text : String) : Except Outcome Reading :=
  if r.wordsOnly then r.word text
  else
    match Arg.ofString text, r.pending with
    | .word text, some f => r.setValue f text
    | .word text, none => r.word text
    | _, some _ => .error .usage
    | .escape, none => .ok { r with wordsOnly := true }
    | .long name value, none => r.long name value
    | .short cs, none => r.cluster cs

/-- There is help on the program, on the command replay and on help itself. -/
def hasHelpOn (topics : List String) : Bool :=
  topics ∈ [[], ["replay"], ["help"]]

def finish (r : Reading) : Outcome :=
  match r.command, r.pending, r.file with
  | .help topics, _, _ => if hasHelpOn topics then .help else .usage
  | .replay, none, some file =>
    .replay {
      file := file
      level := r.level
      originLimit := r.originLimit
      loopThreshold := r.loopThreshold
      eager := .eager ∈ r.given
      fingerprint := .fingerprint ∈ r.given
      dot := r.dot }
  | _, _, _ => .usage

end Reading

def parse (args : List String) : Outcome :=
  match args.foldlM Reading.step Reading.start with
  | .ok r => r.finish
  | .error outcome => outcome

namespace Request

def options (r : Request) : Options :=
  let defaults : Options := {}
  { defaults with
    originLimit := r.originLimit.getD defaults.originLimit
    loopThreshold := r.loopThreshold.getD defaults.loopThreshold
    eager := r.eager }

end Request

/-- The trace file of a request. -/
inductive File where
  | missing
  /-- It can be opened, but not read. -/
  | unreadable
  | content (bytes : List UInt8)

/-- What a command leaves behind. -/
structure Result where
  code : UInt32
  stdout : String
  failure : Option String
  log : List Line

namespace Result

def failed (message : String) (log : List Line) : Result :=
  ⟨1, "", some s!"Error: {message}", log⟩

end Result

def pathLine (function : String) (path : NodeId × List NodeId) : String :=
  s!"{function} path to {path.1}: [{Event.list path.2}]\n"

def loopLine (report : Repetition) : Option String :=
  report.span.map fun (low, high) =>
    s!"{report.function} loops before {report.terminal} within Some(({low}, {high}))\n"

def anomalyLine (a : Anomaly) : String :=
  s!"anomaly at {a.uid}: {a.error.message}\n"

def fingerprintLine (f : Fingerprint) : String :=
  s!"{f.hash} {f.function} ({f.nodes} nodes, {f.edges} edges)\n"

/-- The paths of functions, one function after the other, and the error that they end with. -/
def pathLines (s : Analysis) : List String → List String × Option GraphError × Analysis
  | [] => ([], none, s)
  | function :: rest =>
    match s.paths? function with
    | (.error e, s) => ([], some e, s)
    | (.ok paths, s) =>
      let (lines, error, s) := pathLines s rest
      (paths.map (pathLine function) ++ lines, error, s)

/-- What a report says behind the paths: loops, anomalies, what else was asked for, and the
profile. -/
def remainder (r : Request) (s : Analysis) (reports : List Repetition) : String :=
  let loops := reports.filterMap loopLine
  let anomalies := s.journal.anomalies.toList.map anomalyLine
  let fingerprints := if r.fingerprint then s.graph.fingerprints.map fingerprintLine else []
  let dot := r.dot.toList.map fun function => s.graph.dot function ++ "\n"
  String.join (loops ++ anomalies ++ fingerprints ++ dot) ++ s.journal.profile.render ++ "\n"

/-- A report on the whole analysis, and the error that cut it short. -/
def report (r : Request) (s : Analysis) : String × Option GraphError × Analysis :=
  let (paths, error, s) := pathLines s s.graph.functions
  match error, s.repetitions? with
  | some e, _ => (String.join paths, some e, s)
  | none, .error e => (String.join paths, some e, s)
  | none, .ok reports => (String.join paths ++ remainder r s reports, none, s)

def logOf (s : Analysis) : List Line :=
  s.journal.history.toList.flatMap Event.lines

/-- Replays a trace and reports on it. -/
def runReplay (r : Request) (file : File) : Result :=
  match file with
  | .missing => .failed s!"can not open trace {r.file}" []
  | .unreadable => .failed s!"can not replay trace {r.file}" []
  | .content bytes =>
    match (Analysis.start ⟨r.options, .text, 0⟩).replay bytes with
    | (.error _, s) => .failed s!"can not replay trace {r.file}" (logOf s)
    | (.ok stats, s) =>
      let summary : Line :=
        ⟨.info, s!"replayed {stats.records} records of {r.file} into {stats.nodes} nodes"⟩
      let (text, error, s) := report r s
      ⟨if error.isSome then 1 else 0, text, error.map fun e => s!"Error: {e.message}",
        logOf s ++ [summary]⟩

def versionText : String := "tokenflow 0.1.0\n"

def helpText : String :=
  "Usage: tokenflow [-v LEVEL] replay FILE [--start-node-limit NUMBER] " ++
    "[--loop-threshold NUMBER] [--eager] [-f] [--dot FUNCTION]\n"

/-- All that is not a replay. -/
def Outcome.plain? : Outcome → Except Request Result
  | .usage => .ok ⟨2, "", none, []⟩
  | .help => .ok ⟨0, helpText, none, []⟩
  | .version => .ok ⟨0, versionText, none, []⟩
  | .replay r => .error r

end OperandFlow.CommandLine
