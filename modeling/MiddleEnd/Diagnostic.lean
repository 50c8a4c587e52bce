import MiddleEnd.Span

namespace MiddleEnd

inductive Severity where
  /-- The run cannot go on in a meaningful way. -/
  | fatal
  /-- The program is ill-formed; the sweep goes on to find more. -/
  | error
  /-- A hint, which never stops a run. -/
  | warning
  deriving DecidableEq, Repr

def Severity.text : Severity → String
  | fatal => "fatal error"
  | error => "error"
  | warning => "warning"

/-- A second place that a diagnostic points at. -/
structure Note where
  message : String
  span : Span
  deriving DecidableEq, Repr

/-- A problem in the user's program. -/
structure Diagnostic where
  severity : Severity
  code : String
  message : String
  span : Span
  notes : List Note := []
  /-- The pass that raised it. -/
  pass : Option String := none
  deriving DecidableEq, Repr

def Diagnostic.text (d : Diagnostic) : String := s!"{d.severity.text}[{d.code}]: {d.message}"

/-- The diagnostics of one compilation, oldest first. -/
structure Diagnostics where
  items : List Diagnostic := []
  /-- The pass that new diagnostics are put down to. -/
  currentPass : Option String := none
  deriving DecidableEq, Repr, Inhabited

namespace Diagnostics

def empty : Diagnostics := {}

def enterPass (ds : Diagnostics) (pass : String) : Diagnostics :=
  { ds with currentPass := some pass }

/-- Records a diagnostic; one that names no pass is put down to the current one. -/
def emit (ds : Diagnostics) (d : Diagnostic) : Diagnostics :=
  { ds with items := ds.items ++ [{ d with pass := d.pass <|> ds.currentPass }] }

def count (ds : Diagnostics) (severity : Severity) : Nat :=
  ds.items.countP (·.severity == severity)

def hasFatal (ds : Diagnostics) : Bool := 0 < ds.count .fatal

/-- Has anything been recorded that stops the run at the next checkpoint? -/
def shouldAbort (ds : Diagnostics) : Bool := ds.items.any (·.severity != .warning)

def withCode (ds : Diagnostics) (code : String) : List Diagnostic :=
  ds.items.filter (·.code == code)

end Diagnostics

end MiddleEnd
