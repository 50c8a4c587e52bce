import MiddleEnd.Arena.Edit
import MiddleEnd.Flow.Graph
import MiddleEnd.Workspace

namespace MiddleEnd

/-- Why closure conversion cannot begin. -/
inductive FlattenError where
  | unresolvedCall (name : String) (call : NodeId) (span : Span)
  | captureUnavailable (callee caller captured : String) (span : Span)
  deriving DecidableEq, Repr

namespace FlattenError

def code : FlattenError → String
  | unresolvedCall .. => "E-FLAT-001"
  | captureUnavailable .. => "E-FLAT-002"

def span : FlattenError → Span
  | unresolvedCall _ _ span | captureUnavailable _ _ _ span => span

def message : FlattenError → String
  | unresolvedCall name _ _ => s!"call to '{name}' has no resolved target"
  | captureUnavailable callee caller captured _ =>
    s!"call to '{callee}' in '{caller}' cannot supply captured variable '{captured}'"

end FlattenError

/-- Why a pass that changes the program failed. Each of these is a mistake of the compiler. -/
inductive TransformError where
  | flatten (error : FlattenError)
  | flow (error : Flow.FlowError)
  | edit (error : EditError)
  deriving DecidableEq, Repr

namespace TransformError

def code : TransformError → String
  | flatten error => error.code
  | flow error => error.code
  | edit _ => "E-OPT-001"

def message : TransformError → String
  | flatten error => error.message
  | flow error => error.message
  | edit error => s!"illegal mutation: {error.message}"

end TransformError

/-- What a pass that changes the program has done. -/
structure TransformResult where
  modified : Bool := false
  stats : Stats := []
  deriving DecidableEq, Repr, Inhabited

def TransformResult.stat? (r : TransformResult) (name : String) : Option Nat := r.stats.lookup name

/-- A change of the program. If it fails, what was done before stays done. -/
abbrev TransformM := EStateM TransformError Program

namespace TransformM

/-- Adds to the program. -/
def build {α : Type} (f : Program → α × Program) : TransformM α := modifyGet f

/-- An edit that may be refused. -/
def edit (f : Program → Except EditError Program) : TransformM Unit := do
  match f (← get) with
  | .ok p => set p
  | .error error => throw (.edit error)

end TransformM

end MiddleEnd
