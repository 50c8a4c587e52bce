import MiddleEnd.Closure.Capture
import MiddleEnd.Transform

namespace MiddleEnd.Closure

/-! Closure conversion. Every nested function becomes a function of its module that receives what it
captures through new formals at the end, and every call passes them. First the captures are computed
and every call is planned, and nothing is changed until that has succeeded; then the calls get their
new actuals, while these can still name the captured variables; then the functions get their new
formals and move out. -/

open TransformM

/-- Functions of the iterator protocol take captured variables as they are. -/
def iteratorHelpers : List String := ["these", "to_leader", "to_follower", "to_standalone"]

def isIteratorHelper (p : Program) (f : SymbolId) : Bool := iteratorHelpers.contains (p.name f)

/-- The first registered call that has no target. -/
def unresolvedCall? (p : Program) : Option FlattenError :=
  p.registries.calls.findSome? fun call =>
    match p.kind call with
    | .call none name _ => some (.unresolvedCall name call (p.span call))
    | _ => none

/-- The nested functions in pre-order, so that an outer one comes before an inner one. -/
def nestedFunctions (p : Program) : List SymbolId :=
  ((p.roots.flatMap (p.collect .fnDef)).filterMap fun id => (p.kind id).defines?).filter p.isNestedFn

/-- How a call supplies one captured variable. -/
inductive Actual where
  /-- The caller declares the variable: a variable with its address. -/
  | addressOf (var : SymbolId)
  /-- The caller declares the variable, and there are no references to it: a copy. -/
  | copy (var : SymbolId)
  /-- The variable itself; if the caller captures it too, its own new formal takes its place. -/
  | direct (var : SymbolId)
  deriving DecidableEq, Repr

structure CallPlan where
  call : NodeId
  actuals : List Actual
  deriving DecidableEq, Repr

/-- How a call of `callee` supplies a variable that `callee` captures. -/
def planActual (p : Program) (captures : Captures) (call : NodeId) (callee var : SymbolId) :
    Except FlattenError Actual :=
  let unavailable (caller : String) :=
    FlattenError.captureUnavailable (p.name callee) caller (p.name var) (p.span call)
  match p.enclosingFn? call with
  | none => .error (unavailable "module scope")
  | some caller =>
    if p.declaringFn? var = some caller then
      if isIteratorHelper p callee then .ok (.direct var)
      else if (p.symbol var).ty.hasRefForm then .ok (.addressOf var)
      else .ok (.copy var)
    else if (captures.of caller).contains var then .ok (.direct var)
    else .error (unavailable (p.name caller))

/-- The calls of a function, ascending. -/
def callsOf (p : Program) (f : SymbolId) : List NodeId :=
  (((p.symbol f).fnData?.map (·.calledBy)).getD []).mergeSort fun a b => a.index ≤ b.index

/-- Plans one call of a function. -/
def planCall (p : Program) (captures : Captures) (callee : SymbolId) (call : NodeId) :
    Except FlattenError CallPlan := do
  let actuals ← (captures.of callee).mapM (planActual p captures call callee)
  pure ⟨call, actuals⟩

/-- Plans the calls of one function. -/
def planCallsOf (p : Program) (captures : Captures) (callee : SymbolId) :
    Except FlattenError (List CallPlan) :=
  (callsOf p callee).mapM (planCall p captures callee)

/-- Plans every call of a function that captures something. -/
def planCalls (p : Program) (captures : Captures) : Except FlattenError (List CallPlan) := do
  let plans ← captures.capturing.mapM (planCallsOf p captures)
  pure plans.flatten

/-- Adds a variable for an actual in front of the statement that holds the call. -/
def supplyTemp (anchor : NodeId) (ty : Ty) (init : NodeId) (span : Span) : TransformM NodeId := do
  let temp ← build (·.addTemp ty)
  let tempDef ← build (·.addDefinition temp (some init) span)
  edit (·.insertBefore anchor tempDef)
  build (·.addRef temp span)

/-- The new actual of a call, and whether it passes a variable on as it is. -/
def supply (anchor : NodeId) (span : Span) : Actual → TransformM (NodeId × Bool)
  | .direct var => do pure (← build (·.addRef var span), true)
  | .addressOf var => do
    let ty := ((← get).symbol var).ty
    let ref ← build (·.addRef var span)
    let address ← build (·.addNode (.prim .addrOf [ref]) span)
    pure (← supplyTemp anchor (ty.refForm.getD ty) address span, false)
  | .copy var => do
    let ty := ((← get).symbol var).ty
    let ref ← build (·.addRef var span)
    pure (← supplyTemp anchor ty ref span, false)

/-- Adds the planned actuals to a call. Yields the actuals that pass a variable on. -/
def extendCall (plan : CallPlan) : TransformM (List NodeId) := do
  let p ← get
  match p.enclosingStmt? plan.call with
  | none => throw (.edit (.detached plan.call))
  | some anchor =>
    let added ← plan.actuals.mapM fun actual => do
      let (arg, passesOn) ← supply anchor (p.span plan.call) actual
      edit (·.append plan.call arg)
      pure (arg, passesOn)
    pure ((added.filter Prod.snd).map Prod.fst)

/-- What a reference to a captured variable is there for. -/
inductive Use where
  /-- The operand of this address-of node. -/
  | addressOf (prim : NodeId)
  /-- The target of an assignment. -/
  | store
  | read
  deriving DecidableEq, Repr

def useOf (p : Program) (ref : NodeId) : Use :=
  match (p.node ref).parent with
  | none => .read
  | some parent =>
    match p.kind parent with
    | .prim .addrOf _ => .addressOf parent
    | .assign target _ => if target = ref then .store else .read
    | _ => .read

/-- A dereference of a reference. -/
def derefOf (ref : NodeId) (span : Span) : TransformM NodeId :=
  build (·.addNode (.prim .deref [ref]) span)

/-- Makes one use of a variable that is captured by reference go through the formal that holds the
reference. A read is moved into a variable in front of its statement; in a default value, which has
no statement to precede, it stays in place. -/
def throughRef (f : SymbolId) (ref : NodeId) (formal : SymbolId) : TransformM Unit := do
  let p ← get
  let span := p.span ref
  let formalRef ← build (·.addRef formal span)
  match useOf p ref with
  -- The formal already is the address.
  | .addressOf prim => edit (·.replace prim formalRef)
  | .store => do
    let deref ← derefOf formalRef span
    edit (·.replace ref deref)
  | .read => do
    let deref ← derefOf formalRef span
    let p ← get
    let stmt :=
      (p.enclosingStmt? ref).filter fun stmt => (p.fnBody? f).any fun body => p.isAncestor body stmt
    match stmt with
    | none => edit (·.replace ref deref)
    | some stmt => do
      let temp ← build (·.addTemp (p.symbol formal).ty.valueType)
      let tempDef ← build (·.addDefinition temp (some deref) span)
      edit (·.insertBefore stmt tempDef)
      let tempRef ← build (·.addRef temp span)
      edit (·.replace ref tempRef)

/-- Redirects one use of a captured variable to the formal that stands for it. -/
def redirect (f : SymbolId) (formal : SymbolId) (asItIs : NodeId → Bool) (ref : NodeId) :
    TransformM Unit := do
  if ((← get).node ref).live then
    if asItIs ref then edit (·.setRef ref formal) else throughRef f ref formal

/-- The uses of a symbol in a function, functions inside it apart. -/
def usesOf (p : Program) (fnDef : NodeId) (sym : SymbolId) : List NodeId :=
  (p.collectOwn .symRef fnDef).filter fun id => (p.kind id).symRef? == some sym

/-- Gives a function the formal for one variable that it captures. -/
def captureVar (f : SymbolId) (fnDef : NodeId) (passedOn : List NodeId) (var : SymbolId) :
    TransformM Unit := do
  let p ← get
  let captured := p.symbol var
  let byRef := captured.ty.refForm
  let span := (p.declSpan? var).getD .nowhere
  let formal ← build
    (·.addSymbol
      { name := captured.name
        kind := .arg (if byRef.isSome then .ref else .blank)
        ty := byRef.getD captured.ty })
  let formalDef ← build (·.addDefinition formal none span)
  edit (·.append fnDef formalDef)
  modify (·.attachFlag var .captured)
  let asItIs (ref : NodeId) := byRef.isNone || isIteratorHelper p f || passedOn.contains ref
  (usesOf (← get) fnDef var).forM (redirect f formal asItIs)

/-- Gives a function a formal for each variable that it captures. -/
def extendFunction (captures : Captures) (passedOn : List NodeId) (f : SymbolId) :
    TransformM Unit := do
  match (← get).fnDef? f with
  | none => pure ()
  | some fnDef => (captures.of f).forM (captureVar f fnDef passedOn)

/-- A nested function, its definition, and the outermost definition around it. -/
structure Move where
  function : SymbolId
  fnDef : NodeId
  anchor : NodeId
  deriving DecidableEq, Repr

def move? (p : Program) (f : SymbolId) : Option Move := do
  let outermost ← (p.lexicalAncestors f).getLast?
  pure ⟨f, ← p.fnDef? f, ← p.fnDef? outermost⟩

/-- The definitions of types in the body of a function, functions inside it apart. -/
def localTypes (p : Program) (body : NodeId) : List NodeId :=
  (p.collectOwn .define body).filter fun id =>
    (p.kind id).defines?.any fun sym => (p.symbol sym).isType

/-- Moves a definition in front of another. -/
def moveBefore (anchor node : NodeId) : TransformM Unit := do
  edit (·.detach node)
  edit (·.insertBefore anchor node)

/-- Moves a function out, and its own types in front of it. Yields how many types moved. -/
def relocate (m : Move) : TransformM Nat := do
  moveBefore m.anchor m.fnDef
  modify (·.attachFlag m.function .flattened)
  let p ← get
  match p.fnBody? m.function with
  | none => pure 0
  | some body =>
    let types := localTypes p body
    types.forM (moveBefore m.fnDef)
    pure types.length

/-- Gives every call its new actuals, and then every function its new formals. -/
def passCaptures (captures : Captures) (plans : List CallPlan) : TransformM Unit := do
  let passedOn ← plans.mapM extendCall
  captures.capturing.forM (extendFunction captures passedOn.flatten)

/-- Turns every nested function into a function of its module. -/
def flatten : TransformM TransformResult := do
  let p ← get
  if let some error := unresolvedCall? p then throw (.flatten error)
  let nested := nestedFunctions p
  if nested.isEmpty then pure {}
  else
    let captures := Captures.compute p (.build p)
    match planCalls p captures with
    | .error error => throw (.flatten error)
    | .ok plans =>
      passCaptures captures plans
      let moves := nested.filterMap (move? (← get))
      let hoisted ← moves.mapM relocate
      pure
        { modified := true
          stats :=
            [("flattened", nested.length), ("capturing", captures.capturing.length),
              ("captures", captures.total), ("call-sites", plans.length),
              ("hoisted-types", hoisted.foldr (· + ·) 0), ("fixpoint-sweeps", captures.sweeps)] }

end MiddleEnd.Closure
