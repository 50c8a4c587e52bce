import MiddleEnd.Arena.Dump
import MiddleEnd.Pipeline.Config
import MiddleEnd.Pipeline.Pass
import MiddleEnd.Pipeline.Report
import MiddleEnd.Surface.Decode
import MiddleEnd.Surface.Lower

namespace MiddleEnd.Pipeline

/-- What is to happen after a checkpoint. -/
inductive Verdict where
  | proceed
  /-- A fatal error or an error has been recorded. -/
  | abort
  deriving DecidableEq, Repr

/-- Looks at the program after a pass. Damage is a mistake of the pass and an error here; problems
in the user's program only end the run. -/
def checkpoint (pass : String) (w : Workspace) (verifies : Bool) : Except PipelineError Verdict :=
  let violations := if verifies then w.program.verify else []
  if !violations.isEmpty then .error (.invariantViolation pass violations)
  else if w.diagnostics.shouldAbort then .ok .abort
  else .ok .proceed

/-- A run of an ordered list of passes over one program. -/
structure Run where
  passes : List Pass
  /-- How many of the passes have run. -/
  next : Nat := 0
  work : Workspace
  config : Config
  report : Report := {}

/-- What one step of a run came to. -/
inductive Step where
  /-- The pass ran, and there are more. -/
  | ran (pass : String)
  | completed
  | aborted (index : Nat) (pass : String)
  deriving DecidableEq, Repr

/-- What turns the final program into code. -/
structure Backend where
  name : String
  /-- The output, or why there is none. -/
  generate : Program → Except String String

/-- The back end that writes the text of the program. -/
def Backend.dump : Backend where
  name := "dump"
  generate := fun p => .ok p.dump

/-- A step of a run. If it fails, what the pass has done so far stays. -/
abbrev RunM := EStateM PipelineError Run

namespace Run

/-- A run over the given passes; the configuration may name no others. -/
def ofPasses (program : Program) (passes : List Pass) (config : Config) :
    Except PipelineError Run :=
  match config.unknownPass? (passes.map Pass.name) with
  | some name => .error (.unknownPass name)
  | none => .ok { passes := passes, work := { program := program }, config := config }

/-- A run over the standard passes. -/
def ofProgram (program : Program) (config : Config) : Except PipelineError Run :=
  ofPasses program Pass.standard config

def outcome (r : Run) : Outcome := r.report.outcome

/-- The names of the passes that have run. -/
def passesRun (r : Run) : List String := (r.passes.take r.next).map Pass.name

/-- What is recorded of a pass, as far as the configuration asks for it. -/
def recordOf (config : Config) (name : String) (before : Counts) (stats : Stats) (w : Workspace) :
    PassRecord where
  pass := name
  diagnostics := (Counts.of w.diagnostics).since before
  micros := if config.timing then some 0 else none
  stats := if config.stats then some stats else none
  dump := if config.dumpsAfter name then some w.program.dump else none

/-- Ends the run. -/
def finish (outcome : Outcome) : RunM Unit :=
  modify fun r => { r with report := { r.report with outcome := outcome } }

/-- Runs a pass on the workspace of the run, under its name. -/
def runPass (pass : Pass) : RunM Stats := fun r =>
  let work := { r.work with diagnostics := r.work.diagnostics.enterPass pass.name }
  match pass.run work with
  | .ok stats work => .ok stats { r with work := work }
  | .error error work => .error error { r with work := work }

/-- Runs the next pass and the checkpoint after it. -/
def advance (pass : Pass) : RunM Step := do
  let before := Counts.of (← get).work.diagnostics
  let stats ← runPass pass
  let r ← get
  match checkpoint pass.name r.work r.config.verify with
  | .error error => throw error
  | .ok verdict => do
    let record := recordOf r.config pass.name before stats r.work
    let totals := Counts.of r.work.diagnostics
    set { r with
      next := r.next + 1
      report := { r.report with passes := r.report.passes ++ [record], totals := totals } }
    match verdict with
    | .abort => do
      finish (.aborted r.next pass.name)
      pure (.aborted r.next pass.name)
    | .proceed =>
      if r.next + 1 = r.passes.length then do
        finish .completed
        pure .completed
      else pure (.ran pass.name)

/-- Takes the next step of a run. Once the run has ended, this only says how. -/
def runNext : RunM Step := do
  let r ← get
  match r.report.outcome with
  | .completed => pure .completed
  | .aborted index pass => pure (.aborted index pass)
  | .pending =>
    match r.passes[r.next]? with
    | none => do
      finish .completed
      pure .completed
    | some pass => advance pass

/-- Takes steps until the run has ended; each takes a pass. -/
def steps : Nat → RunM Outcome
  | 0 => do pure (← get).outcome
  | fuel + 1 => do
    match ← runNext with
    | .ran _ => steps fuel
    | _ => do pure (← get).outcome

/-- Runs all passes that are left. -/
def toEnd : RunM Outcome := do
  steps ((← get).passes.length + 1)

/-- Runs all passes that are left and, if they completed, hands the program to a back end. -/
def withBackend (backend : Backend) : RunM (Outcome × Option String) := do
  match ← toEnd with
  | .completed =>
    match backend.generate (← get).work.program with
    | .ok output => pure (.completed, some output)
    | .error message => throw (.backend backend.name message)
  | outcome => pure (outcome, none)

end Run

/-- Why a compilation has no outcome. -/
inductive CompileError where
  /-- The text is not a surface program. -/
  | surface (fault : Json.Fault)
  | lower (error : Surface.LowerError)
  | pipeline (error : PipelineError)
  deriving Repr

/-- What one compilation produced. -/
structure Compilation where
  outcome : Outcome
  work : Workspace
  report : Report
  /-- The text of the final program, if every pass completed. -/
  output : Option String

/-- Reads and lowers a surface program. -/
def load (text : String) : Except CompileError Program := do
  let tree ← (Surface.ProgramTree.parse text).mapError .surface
  tree.lower.mapError .lower

/-- Runs the standard passes over a surface program. -/
def compile (text : String) (config : Config) : Except CompileError Compilation := do
  let program ← load text
  let run ← (Run.ofProgram program config).mapError .pipeline
  match Run.withBackend .dump run with
  | .ok (outcome, output) run => pure ⟨outcome, run.work, run.report, output⟩
  | .error error _ => throw (.pipeline error)

end MiddleEnd.Pipeline
