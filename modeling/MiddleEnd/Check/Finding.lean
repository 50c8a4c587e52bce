import MiddleEnd.Diagnostic
import MiddleEnd.Symbol

namespace MiddleEnd.Check

/-- A rule that the user's program breaks. -/
inductive Finding where
  /-- A named argument is passed again, at the places in `repeats`. -/
  | duplicateNamedArg (name callee : String) (span : Span) (repeats : List Span)
  | configNotAtModuleScope (name : String) (span : Span)
  | uninitializedParam (name : String) (span : Span)
  | untypedLocal (name : String) (span : Span)
  | iteratorRefFormal (function formal : String) (intent : Intent) (span : Span)
  | iteratorReturnTag (function : String) (tag : RetTag) (span : Span)
  | receiverInDefault (ctor formal : String) (span : Span)
  | missingReturn (function : String) (span : Span)
  | nestedAfterFlattening (function : String) (span : Span)
  | arityMismatch (callee : String) (actuals formals : Nat) (span : Span)
  deriving DecidableEq, Repr

namespace Finding

def code : Finding → String
  | duplicateNamedArg .. => "E-CHECK-001"
  | configNotAtModuleScope .. => "E-CHECK-002"
  | uninitializedParam .. => "E-CHECK-003"
  | untypedLocal .. => "E-CHECK-004"
  | iteratorRefFormal .. => "E-CHECK-005"
  | iteratorReturnTag .. => "E-CHECK-006"
  | receiverInDefault .. => "E-CHECK-007"
  | missingReturn .. => "W-CHECK-001"
  | nestedAfterFlattening .. => "E-CHECK-008"
  | arityMismatch .. => "E-CHECK-009"

def severity : Finding → Severity
  | receiverInDefault .. | nestedAfterFlattening .. | arityMismatch .. => .fatal
  | missingReturn .. => .warning
  | _ => .error

def span : Finding → Span
  | duplicateNamedArg _ _ span _ | configNotAtModuleScope _ span | uninitializedParam _ span
  | untypedLocal _ span | iteratorRefFormal _ _ _ span | iteratorReturnTag _ _ span
  | receiverInDefault _ _ span | missingReturn _ span | nestedAfterFlattening _ span
  | arityMismatch _ _ _ span => span

def message : Finding → String
  | duplicateNamedArg name callee _ _ =>
    s!"named argument '{name}' is passed more than once in call to '{callee}'"
  | configNotAtModuleScope name _ =>
    s!"configuration variable '{name}' must be declared at module scope"
  | uninitializedParam name _ => s!"top-level param '{name}' must be initialized"
  | untypedLocal name _ => s!"variable '{name}' has neither a type nor an initializer"
  | iteratorRefFormal function formal intent _ =>
    s!"iterator '{function}' may not take formal '{formal}' with '{intent.text}' intent"
  | iteratorReturnTag function tag _ => s!"iterator '{function}' may not return by '{tag.text}'"
  | receiverInDefault ctor formal _ =>
    s!"constructor '{ctor}' refers to the receiver in the default of formal '{formal}'"
  | missingReturn .. => "control reaches end of function that returns a value"
  | nestedAfterFlattening function _ =>
    s!"function '{function}' is still nested after flattening"
  | arityMismatch callee actuals formals _ =>
    s!"call to '{callee}' passes {actuals} actuals but it takes {formals} formals"

def notes : Finding → List Note
  | duplicateNamedArg name _ _ repeats =>
    repeats.map fun span => { message := s!"'{name}' passed again here", span := span }
  | missingReturn function span =>
    [{ message := s!"in function '{function}'", span := span }]
  | _ => []

def diagnostic (f : Finding) : Diagnostic :=
  { severity := f.severity, code := f.code, message := f.message, span := f.span, notes := f.notes }

end Finding

end MiddleEnd.Check
