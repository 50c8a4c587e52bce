import MiddleEnd.Arena.Program
import MiddleEnd.Diagnostic

namespace MiddleEnd

/-- What the passes of one compilation share: the program and the problems found in it. -/
structure Workspace where
  program : Program
  diagnostics : Diagnostics := .empty
  deriving Inhabited

namespace Workspace

def emit (w : Workspace) (d : Diagnostic) : Workspace :=
  { w with diagnostics := w.diagnostics.emit d }

def withProgram (w : Workspace) (p : Program) : Workspace := { w with program := p }

end Workspace

/-- The named counts that a pass reports. -/
abbrev Stats := List (String × Nat)

end MiddleEnd
