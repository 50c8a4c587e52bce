import MiddleEnd.Arena.Ancestry
import MiddleEnd.Arena.Walk
import MiddleEnd.Check.Finding

namespace MiddleEnd.Check

/-- The name and the place of an argument that is passed by name. -/
def namedArg? (p : Program) (arg : NodeId) : Option (String × Span) :=
  match p.kind arg with
  | .namedArg name _ => some (name, p.span arg)
  | _ => none

/-- The names in a list, ascending and each once. -/
def distinctNames (names : List String) : List String :=
  (names.mergeSort (· ≤ ·)).eraseDups

/-- No call passes the same argument twice by name. There is one finding for each such name,
ordered by name. -/
def duplicateNamedArgs (p : Program) : List Finding :=
  p.registries.calls.flatMap fun call =>
    match p.kind call with
    | .call _ callee args =>
      let passed := args.filterMap (namedArg? p)
      (distinctNames (passed.map Prod.fst)).filterMap fun name =>
        match (passed.filter (·.1 == name)).map Prod.snd with
        | _ :: again :: more => some (.duplicateNamedArg name callee (p.span call) (again :: more))
        | _ => none
    | _ => []

/-- Configuration variables are set from outside, so they belong to a module. -/
def configAtModuleScope (p : Program) : List Finding :=
  (p.registries.vars.filter fun var => p.hasFlag var .config && (p.declaringFn? var).isSome).map
    fun var => .configNotAtModuleScope (p.name var) ((p.declSpan? var).getD .nowhere)

/-- The place of a definition that gives no value. -/
def bareDefinition? (p : Program) (sym : SymbolId) : Option Span :=
  (p.symbol sym).decl.bind fun decl =>
    match p.kind decl with
    | .define _ none => some (p.span decl)
    | _ => none

/-- Compile-time constants of a module have a value. -/
def paramsInitialized (p : Program) : List Finding :=
  p.registries.vars.filterMap fun var =>
    if p.hasFlag var .param && (p.declaringFn? var).isNone then
      (bareDefinition? p var).map (.uninitializedParam (p.name var))
    else none

/-- Locals whose types are settled elsewhere. -/
def exemptFromTyping : List Flag := [.temp, .indexVar, .returnValue]

/-- A local has a declared type, or a value to take its type from. -/
def localsTypedOrInitialized (p : Program) : List Finding :=
  p.registries.vars.filterMap fun var =>
    let symbol := p.symbol var
    if (p.declaringFn? var).isSome && symbol.ty.isUnknown && !exemptFromTyping.any symbol.hasFlag then
      (bareDefinition? p var).map (.untypedLocal symbol.name)
    else none

/-- The formals of an iterator that stand for the caller's storage. -/
def iteratorRefFormals (p : Program) (f : SymbolId) : List Finding :=
  (p.formals f).filterMap fun formal =>
    match (p.symbol formal).intent?.filter Intent.bindsStorage with
    | some intent =>
      let span := (p.declSpan? formal).getD ((p.declSpan? f).getD .nowhere)
      some (.iteratorRefFormal (p.name f) (p.name formal) intent span)
    | none => none

/-- A type or compile-time constant as the result of an iterator. -/
def iteratorReturnTags (p : Program) (f : SymbolId) : List Finding :=
  match (p.symbol f).fnData? with
  | some data =>
    if data.retTag = .type || data.retTag = .param then
      [.iteratorReturnTag (p.name f) data.retTag ((p.declSpan? f).getD .nowhere)]
    else []
  | none => []

/-- Iterators yield their values later, so they neither bind the caller's storage nor return a type
or a compile-time constant. -/
def iteratorSignatures (p : Program) : List Finding :=
  (p.registries.fns.filter (p.hasFlag · .iterator)).flatMap fun f =>
    iteratorRefFormals p f ++ iteratorReturnTags p f

/-- Does an expression refer to a receiver? -/
def usesReceiver (p : Program) (root : NodeId) : Bool :=
  (p.collect .symRef root).any fun id => (p.kind id).symRef?.any (p.hasFlag · .receiver)

/-- The receiver of a constructor does not exist yet when its formals get their defaults. -/
def receiverNotInDefaults (p : Program) : List Finding :=
  (p.registries.fns.filter fun f => p.hasFlag f .ctor && !p.hasFlag f .defaultCtor).flatMap fun f =>
    (p.formalDefs f).filterMap fun formal =>
      match p.kind formal with
      | .define sym (some value) =>
        if usesReceiver p value then
          some (.receiverInDefault (p.name f) (p.name sym) (p.span formal))
        else none
      | _ => none

/-- Every function belongs to a module. -/
def noNestedFunctions (p : Program) : List Finding :=
  (p.registries.fns.filter p.isNestedFn).map fun f =>
    .nestedAfterFlattening (p.name f) ((p.declSpan? f).getD .nowhere)

/-- Every resolved call passes one actual for each formal, unless its target is external. -/
def arityAgreement (p : Program) : List Finding :=
  p.registries.calls.filterMap fun call =>
    match p.kind call with
    | .call (some callee) _ args =>
      let formals := (p.formalDefs callee).length
      if p.hasFlag callee .external || args.length == formals then none
      else some (.arityMismatch (p.name callee) args.length formals (p.span call))
    | _ => none

end MiddleEnd.Check
