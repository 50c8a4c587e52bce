import MiddleEnd.Arena.Closed
import MiddleEnd.Check.Suite

namespace MiddleEnd.Check

/-! When a rule looks only at what is there. Each test asks for the declarations and symbols that
its rule looks up, and for no others. -/

/-- The callees that counting the definitions of a return value asks about, down to a depth. -/
def calleesCounted (p : Program) : Nat → NodeId → List SymbolId
  | 0, _ => []
  | depth + 1, id =>
    match p.kind id with
    | .block stmts => stmts.flatMap (calleesCounted p depth)
    | .cond _ thenBlock elseBlock =>
      calleesCounted p depth thenBlock ++ (elseBlock.map (calleesCounted p depth)).getD []
    | .loop _ body false => if exitsEarly p body then [] else calleesCounted p depth body
    | .call (some callee) _ _ => [callee]
    | _ => []

/-- Is there all that the search for a missing return in `f` looks up? The declaration of the
return value's variable counts only if it alone could have defined the value. -/
def returnKnown (p : Program) (f : SymbolId) : Bool :=
  let symbol := p.symbol f
  let counted := ((p.fnBody? f).map (calleesCounted p (p.nodes.size + 1))).getD []
  symbol.ty.isVoid || symbol.hasFlag .iterator || symbol.hasFlag .external ||
    (p.declKnown f && counted.all p.hasSymbol &&
      (definedOnAllPaths p f != 1 || !symbol.hasFlag .specifiedReturnType ||
        (retVar? p f).all p.declKnown))

/-- Is there all that the signature of an iterator looks up? -/
def iteratorKnown (p : Program) (f : SymbolId) : Bool :=
  p.declKnown f &&
    (p.formals f).all fun formal =>
      !(p.symbol formal).intent?.any Intent.bindsStorage || p.declKnown formal

/-- Are the symbols of an expression there, up to the first receiver? -/
def receiverSearchKnown (p : Program) (root : NodeId) : Bool :=
  let refs := (p.collect .symRef root).filterMap fun id => (p.kind id).symRef?
  (refs.takeWhile fun sym => !p.hasFlag sym .receiver).all p.hasSymbol

/-- Is there all that the defaults of a constructor look up? -/
def defaultsKnown (p : Program) (f : SymbolId) : Bool :=
  p.declKnown f &&
    (p.formalDefs f).all fun formal =>
      match p.kind formal with
      | .define _ (some value) => receiverSearchKnown p value
      | _ => true

/-- Does the rule look only at what is there? -/
def Rule.known (rule : Rule) (p : Program) : Bool :=
  let r := p.registries
  match rule with
  | .duplicateNamedArgs => true
  | .configAtModuleScope => (r.vars.filter (p.hasFlag · .config)).all p.declKnown
  | .paramsInitialized => (r.vars.filter (p.hasFlag · .param)).all p.declKnown
  | .localsTypedOrInitialized => r.vars.all p.declKnown
  | .iteratorSignatures => (r.fns.filter (p.hasFlag · .iterator)).all (iteratorKnown p)
  | .receiverNotInDefaults =>
    (r.fns.filter fun f => p.hasFlag f .ctor && !p.hasFlag f .defaultCtor).all (defaultsKnown p)
  | .returnCoverage => r.fns.all (returnKnown p)
  | .noNestedFunctions => (r.fns.filter p.isFn).all p.declKnown
  | .arityAgreement =>
    (r.calls.filterMap p.callee?).all fun callee =>
      p.hasFlag callee .external || p.declKnown callee

/-- Do all rules of a suite look only at what is there? -/
def Suite.known (suite : Suite) (p : Program) : Bool := suite.rules.all (·.known p)

end MiddleEnd.Check
