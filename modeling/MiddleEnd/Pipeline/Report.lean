import MiddleEnd.Diagnostic
import MiddleEnd.Json.Writer
import MiddleEnd.Workspace

namespace MiddleEnd.Pipeline

/-- How many diagnostics there are of each severity. -/
structure Counts where
  fatal : Nat := 0
  errors : Nat := 0
  warnings : Nat := 0
  deriving DecidableEq, Repr, Inhabited

namespace Counts

def of (ds : Diagnostics) : Counts := ⟨ds.count .fatal, ds.count .error, ds.count .warning⟩

/-- What has been added since. -/
def since (now earlier : Counts) : Counts :=
  ⟨now.fatal - earlier.fatal, now.errors - earlier.errors, now.warnings - earlier.warnings⟩

def toJson (c : Counts) : Json :=
  .sorted [("fatal", .nat c.fatal), ("errors", .nat c.errors), ("warnings", .nat c.warnings)]

end Counts

/-- What one pass did. -/
structure PassRecord where
  pass : String
  /-- The diagnostics that it raised. -/
  diagnostics : Counts
  /-- Its time, if times are asked for. A run has no clock of its own and puts down none. -/
  micros : Option Nat := none
  stats : Option Stats := none
  dump : Option String := none
  deriving DecidableEq, Repr, Inhabited

namespace PassRecord

/-- Counts by name; where a name is repeated, the last count stands. -/
def statsToJson (stats : Stats) : Json :=
  let names := (stats.map Prod.fst).eraseDups
  .sorted (names.map fun name => (name, .nat ((stats.reverse.lookup name).getD 0)))

def toJson (r : PassRecord) : Json :=
  let optional :=
    (r.micros.map fun n => ("micros", Json.nat n)).toList ++
      (r.stats.map fun stats => ("stats", statsToJson stats)).toList ++
      (r.dump.map fun dump => ("dump", Json.str dump)).toList
  .sorted ([("pass", .str r.pass), ("diagnostics", r.diagnostics.toJson)] ++ optional)

end PassRecord

/-- How a run has ended, or that it has not. -/
inductive Outcome where
  | pending
  | completed
  /-- Diagnostics stopped the run after the pass at this place. -/
  | aborted (index : Nat) (pass : String)
  deriving DecidableEq, Repr, Inhabited

namespace Outcome

def isFinished : Outcome → Bool
  | pending => false
  | _ => true

def toJson : Outcome → Json
  | pending => .obj [("status", .str "pending")]
  | completed => .obj [("status", .str "completed")]
  | aborted index pass =>
    .sorted [("status", .str "aborted"), ("index", .nat index), ("pass", .str pass)]

end Outcome

/-- What is recorded of a run. -/
structure Report where
  passes : List PassRecord := []
  outcome : Outcome := .pending
  /-- The diagnostics of the whole run. -/
  totals : Counts := {}
  deriving DecidableEq, Repr, Inhabited

namespace Report

def record? (r : Report) (pass : String) : Option PassRecord := r.passes.find? (·.pass == pass)

def toJson (r : Report) : Json :=
  .sorted
    [("passes", .arr (r.passes.map PassRecord.toJson)), ("outcome", r.outcome.toJson),
      ("totals", r.totals.toJson)]

end Report

/-! The form of diagnostics in JSON. -/

def spanToJson (s : Span) : Json := .sorted [("start", .nat s.start), ("end", .nat s.stop)]

def severityWord : Severity → String
  | .fatal => "fatal"
  | .error => "error"
  | .warning => "warning"

def noteToJson (n : Note) : Json :=
  .sorted [("message", .str n.message), ("span", spanToJson n.span)]

def diagnosticToJson (d : Diagnostic) : Json :=
  .sorted
    [("severity", .str (severityWord d.severity)), ("code", .str d.code),
      ("message", .str d.message), ("span", spanToJson d.span),
      ("notes", .arr (d.notes.map noteToJson)), ("pass", .ofOption .str d.pass)]

end MiddleEnd.Pipeline
