import MiddleEnd.Arena.Edit
import MiddleEnd.Workspace

namespace MiddleEnd.Calls

/-- Why a call cannot be bound by its name. -/
inductive ResolveError where
  /-- No function at module level has the name. -/
  | unresolved (name : String) (span : Span) (caller : String)
  /-- Several have it. -/
  | ambiguous (name : String) (span : Span) (candidates : Nat)
  deriving DecidableEq, Repr

namespace ResolveError

def code : ResolveError → String
  | unresolved .. => "E-SYMBOL-001"
  | ambiguous .. => "E-SYMBOL-002"

def diagnostic (e : ResolveError) : Diagnostic :=
  match e with
  | unresolved name span caller =>
    { severity := .error, code := e.code, span := span
      message := s!"unresolved call to '{name}'"
      notes := [{ message := s!"called from '{caller}'", span := span }] }
  | ambiguous name span candidates =>
    { severity := .error, code := e.code, span := span
      message := s!"call to '{name}' is ambiguous between {candidates} functions" }

end ResolveError

/-- The functions of this name that no other function declares. -/
def candidates (p : Program) (name : String) : List SymbolId :=
  p.registries.fns.filter fun f => p.name f == name && (p.declaringFn? f).isNone

/-- Binds a call by name to the only function at module level that has the name. -/
def resolve (p : Program) (call : NodeId) (name : String) : Except ResolveError SymbolId :=
  match candidates p name with
  | [only] => .ok only
  | [] =>
    let caller := (((p.node call).scope).map p.name).getD ""
    .error (.unresolved name (p.span call) caller)
  | many => .error (.ambiguous name (p.span call) many.length)

/-- How many calls there were, and what became of them. -/
structure SiteStats where
  calls : Nat := 0
  /-- Bound by name here, and not by the front-end. -/
  lateBound : Nat := 0
  unresolved : Nat := 0
  deriving DecidableEq, Repr, Inhabited

def SiteStats.toStats (s : SiteStats) : Stats :=
  [("calls", s.calls), ("late-bound", s.lateBound), ("unresolved", s.unresolved)]

/-- A step that may be refused and then leaves what was done before it. -/
abbrev SiteM := EStateM EditError Workspace

/-- Empties the call list of a function. -/
def clearCallers (p : Program) (f : SymbolId) : Program :=
  p.modifySymbol f (Symbol.mapFnData fun data => { data with calledBy := [] })

def bind (call : NodeId) (target : SymbolId) : SiteM Unit := do
  let w ← get
  match w.program.setCallee call (some target) with
  | .ok p => set (w.withProgram p)
  | .error e => throw e

/-- Enters one call into the call list of its target, binding it by name first if need be. -/
def computeSite (stats : SiteStats) (call : NodeId) : SiteM SiteStats := do
  let stats := { stats with calls := stats.calls + 1 }
  let w ← get
  match w.program.kind call with
  | .call (some target) _ _ => bind call target; pure stats
  | .call none name _ =>
    match resolve w.program call name with
    | .ok target =>
      bind call target
      pure { stats with lateBound := stats.lateBound + 1 }
    | .error e =>
      set (w.emit e.diagnostic)
      pure { stats with unresolved := stats.unresolved + 1 }
  | _ => pure stats

/-- Computes every function's call list from scratch. A call that cannot be bound is reported and
left unbound. -/
def computeSites : SiteM SiteStats := do
  modify fun w => w.withProgram (w.program.registries.fns.foldl clearCallers w.program)
  (← get).program.registries.calls.foldlM computeSite {}

/-- Every function and call that disagree: a resolved call that is missing from its target's list,
or a listed call that does not call the function. -/
def brokenSites (p : Program) : List (SymbolId × NodeId) :=
  let unlisted :=
    p.registries.calls.filterMap fun call =>
      match p.callee? call with
      | some f =>
        let listed := (p.symbol f).fnData?.any (·.calledBy.contains call)
        if listed then none else some (f, call)
      | none => none
  let stale :=
    p.registries.fns.flatMap fun f =>
      match (p.symbol f).fnData? with
      | some data =>
        (data.calledBy.filter fun call => p.callee? call != some f).map fun call => (f, call)
      | none => []
  unlisted ++ stale

end MiddleEnd.Calls
