import MiddleEnd.Arena.Verify
import MiddleEnd.Calls.Sites
import MiddleEnd.Check.Suite
import MiddleEnd.Closure.Flatten
import MiddleEnd.Store.Dead

namespace MiddleEnd.Pipeline

/-- A mistake of the compiler, or of whoever called it. Problems in the user's program are
diagnostics and never show up here. -/
inductive PipelineError where
  /-- A pass left the program unsound. -/
  | invariantViolation (pass : String) (violations : List Violation)
  | pass (pass : String) (source : TransformError)
  | mutation (pass : String) (source : EditError)
  | backend (backend message : String)
  | unknownPass (name : String)
  | config
  /-- A file could not be read. -/
  | unreadable (path reason : String)
  deriving DecidableEq, Repr

namespace PipelineError

def code : PipelineError → String
  | invariantViolation .. => "E-PIPE-001"
  | pass _ source => source.code
  | mutation .. => "E-PIPE-002"
  | backend .. => "E-PIPE-003"
  | unknownPass _ => "E-PIPE-004"
  | config => "E-PIPE-005"
  | unreadable .. => "E-PIPE-006"

def message : PipelineError → String
  | invariantViolation name violations =>
    let first := (violations.head?.map Violation.message).getD ""
    s!"checkpoint after '{name}' found {violations.length} invariant violations; first: {first}"
  | pass name source => s!"pass '{name}' failed: {source.message}"
  | mutation name source => s!"pass '{name}' made an illegal mutation: {source.message}"
  | backend name reason => s!"backend '{name}' failed: {reason}"
  | unknownPass name => s!"unknown pass '{name}'"
  | config => "invalid pipeline configuration"
  | unreadable path reason => s!"cannot read {path}: {reason}"

end PipelineError

/-- What a pass runs in: if it fails, what it has done so far stays. -/
abbrev PassM := EStateM PipelineError Workspace

structure Pass where
  name : String
  run : PassM Stats

namespace Pass

/-- A pass that only looks. -/
def ofSuite (suite : Check.Suite) : Pass where
  name := suite.name
  run := modifyGet suite.run

/-- Computing the call lists. -/
def callSites : Pass where
  name := "compute-call-sites"
  run := fun w =>
    match Calls.computeSites w with
    | .ok stats w => .ok stats.toStats w
    | .error error w => .error (.mutation "compute-call-sites" error) w

/-- A pass that changes the program. -/
def ofTransform (name : String) (transform : TransformM TransformResult) : Pass where
  name := name
  run := fun w =>
    match transform w.program with
    | .ok result p => .ok result.stats (w.withProgram p)
    | .error error p => .error (.pass name error) (w.withProgram p)

def flatten : Pass := ofTransform "flatten-functions" Closure.flatten

def eliminateDeadStores : Pass := ofTransform "dead-store-elimination" Store.eliminateDeadStores

/-- The passes in the order in which they run. -/
def standard : List Pass :=
  [ofSuite .parsed, callSites, flatten, ofSuite .resolved, eliminateDeadStores]

def find? (name : String) : Option Pass := standard.find? (·.name == name)

end Pass

end MiddleEnd.Pipeline
