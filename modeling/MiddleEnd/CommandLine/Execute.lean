import MiddleEnd.CommandLine.Command
import MiddleEnd.Pipeline.Run

namespace MiddleEnd.CommandLine

open Pipeline

/-- What a command leaves behind: an exit code and the texts of its two channels. -/
structure Answer where
  exit : Nat := 0
  out : String := ""
  err : String := ""
  deriving DecidableEq, Repr, Inhabited

/-- The exit code of a run that problems in the user's program have stopped. -/
def exitAborted : Nat := 1

/-- The exit code after a mistake of the compiler, unreadable input or a bad command line. -/
def exitDefect : Nat := 2

/-- The text of a file, or why it cannot be read. -/
abbrev Files := String → Except String String

def lines (texts : List String) : String := String.join (texts.map (· ++ "\n"))

namespace Answer

def failed (text : String) : Answer := { exit := exitDefect, err := lines [text] }

def defect (error : PipelineError) : Answer :=
  failed s!"internal compiler error[{error.code}]: {error.message}"

def unreadable (path reason : String) : Answer := failed s!"Error reading {path}: {reason}"

end Answer

def faultText : Json.Fault → String
  | .malformed => "the text is not JSON"
  | .endOfText => "the text ends too early"
  | .wrongShape => "the text is not a program"

/-- Reads and lowers the program in a file. -/
def loadFile (files : Files) (path : String) : Except Answer Program := do
  let text ← (files path).mapError (.unreadable path)
  match load text with
  | .ok program => pure program
  | .error (.surface fault) => throw (.failed s!"Error parsing {path}: {faultText fault}")
  | .error (.lower error) => throw (.failed s!"error[{error.code}]: {error.message}")
  | .error (.pipeline error) => throw (.defect error)

/-- Reads the configuration, if a file is named for it. -/
def loadConfig (files : Files) : Option String → Except Answer Config
  | none => pure {}
  | some path =>
    match files path with
    | .error reason => throw (.defect (.unreadable path reason))
    | .ok text =>
      match Config.parse? text with
      | some config => pure config
      | none => throw (.defect .config)

namespace RunOptions

/-- The options on top of a configuration. -/
def adjust (o : RunOptions) (c : Config) : Config where
  timing := c.timing || o.timing
  stats := c.stats || o.stats
  dump :=
    if o.dumpEvery then .every
    else if o.dumpAfter.isEmpty then c.dump
    else .passes o.dumpAfter
  verify := c.verify && !o.noVerify

end RunOptions

def diagnosticLines (d : Diagnostic) : List String :=
  d.text :: d.notes.map fun note => s!"  note: {note.message}"

/-- The last line about a run. -/
def outcomeLines (file : String) (report : Report) : List String :=
  let totals := report.totals
  match report.outcome with
  | .completed =>
    [s!"✓ {file} - {report.passes.length} passes completed, {totals.warnings} warnings"]
  | .aborted _ pass =>
    [s!"✗ {file} - aborted after {pass} ({totals.fatal} fatal, {totals.errors} errors, " ++
      s!"{totals.warnings} warnings)"]
  | .pending => []

def dumpText (record : PassRecord) : String :=
  match record.dump with
  | some dump => lines [s!"=== after {record.pass} ==="] ++ dump
  | none => ""

/-- What is written about a run that came to an end. -/
def describe (o : RunOptions) (run : Run) (output : Option String) : Answer :=
  let exit := if run.outcome = .completed then 0 else exitAborted
  let items := run.work.diagnostics.items
  if o.json then
    let document := Json.sorted
      [("report", run.report.toJson), ("diagnostics", .arr (items.map diagnosticToJson))]
    { exit := exit, out := lines [document.pretty] }
  else
    let emitted := if o.emit then output.getD "" else ""
    { exit := exit
      out := String.join (run.report.passes.map dumpText) ++ emitted
      err := lines (items.flatMap diagnosticLines ++ outcomeLines o.file run.report) }

/-- Runs the passes over the program in a file. -/
def execRun (files : Files) (o : RunOptions) : Except Answer Answer := do
  let config ← loadConfig files o.config
  for path in o.source.toList do
    discard ((files path).mapError (Answer.unreadable path))
  let program ← loadFile files o.file
  let run ← (Run.ofProgram program (o.adjust config)).mapError .defect
  match Run.withBackend .dump run with
  | .ok (_, output) run => pure (describe o run output)
  | .error error _ => throw (.defect error)

/-- The passes, numbered in the order in which they run. -/
def passLines : List String :=
  Pass.standard.zipIdx.map fun (pass, i) =>
    let number := toString (i + 1)
    "".pushn ' ' (2 - number.length) ++ s!"{number}. {pass.name}"

def helpLines : List String :=
  [ "Whole-program compiler middle-end",
    "",
    "Usage: [-v] run FILE [OPTIONS]   run every pass over a surface program",
    "       [-v] dump FILE            write a surface program without running passes",
    "       [-v] passes               list the passes in the order they run",
    "",
    "Options of run:",
    "  -c, --config FILE       pipeline configuration",
    "  -s, --source FILE       source text of the program",
    "      --dump-after PASS   write the program after a pass (repeatable)",
    "      --dump-every        write the program after every pass",
    "      --timing            time each pass",
    "      --stats             collect statistics of each pass",
    "      --no-verify         skip verification after each pass",
    "      --json              write the report and the diagnostics as JSON",
    "      --emit              write the final program" ]

/-- Carries out a command. -/
def exec (files : Files) : Command → Answer
  | .run options =>
    match execRun files options with
    | .ok answer | .error answer => answer
  | .dump file =>
    match loadFile files file with
    | .ok program => { out := program.dump }
    | .error answer => answer
  | .passes => { out := lines passLines }
  | .help => { out := lines helpLines }

/-- Answers a command line, given the files that it may read. -/
def answer (files : Files) (args : List String) : Answer :=
  match Command.parse args with
  | .ok command => exec files command
  | .error error => .failed s!"error: {error.message}"

end MiddleEnd.CommandLine
