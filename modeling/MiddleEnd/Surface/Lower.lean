import MiddleEnd.Arena.Edit
import MiddleEnd.Surface.Tree
import MiddleEnd.Text.Blank

namespace MiddleEnd.Surface

/-- Why a surface program has no meaning. -/
inductive LowerError where
  | unknownName (name : String) (span : Span)
  | duplicate (name : String) (span : Span)
  | malformedType (text : String) (span : Span)
  | unknownType (name : String) (span : Span)
  | duplicateReturnVar (function : String) (span : Span)
  /-- The arena refused the tree; this is a mistake of lowering itself. -/
  | arena (error : EditError)
  deriving DecidableEq, Repr

namespace LowerError

def code : LowerError → String
  | unknownName .. => "E-LOWER-001"
  | duplicate .. => "E-LOWER-002"
  | malformedType .. => "E-LOWER-003"
  | unknownType .. => "E-LOWER-004"
  | duplicateReturnVar .. => "E-LOWER-005"
  | arena _ => "E-LOWER-006"

def span : LowerError → Span
  | unknownName _ span | duplicate _ span | malformedType _ span | unknownType _ span
  | duplicateReturnVar _ span => span
  | arena _ => .nowhere

def message : LowerError → String
  | unknownName name _ => s!"unknown name '{name}'"
  | duplicate name _ => s!"'{name}' is already declared in this scope"
  | malformedType text _ => s!"malformed type '{text}'"
  | unknownType name _ => s!"unknown type '{name}'"
  | duplicateReturnVar function _ =>
    s!"the return value variable of '{function}' is declared twice"
  | arena error => s!"arena rejected the lowered tree: {error.message}"

end LowerError

/-- The declarations of one block, formal list or loop header. -/
abbrev Scope := List (String × SymbolId)

/-- What lowering has built so far, and where it stands. -/
structure Lowering where
  program : Program := .empty
  /-- The scopes around the current place, innermost first. -/
  scopes : List Scope := []
  /-- The function around the current place. -/
  function : Option SymbolId := none

abbrev Lower := StateT Lowering (Except LowerError)

namespace Lower

/-- Adds to the program. -/
def build {α : Type} (f : Program → α × Program) : Lower α :=
  modifyGet fun s =>
    let (a, p) := f s.program
    (a, { s with program := p })

def change (f : Program → Program) : Lower Unit :=
  modify fun s => { s with program := f s.program }

def node (kind : NodeKind) (span : Span) : Lower NodeId := build (·.addNode kind span)

def append (owner child : NodeId) : Lower Unit := do
  match (← get).program.append owner child with
  | .ok p => change fun _ => p
  | .error error => throw (.arena error)

/-- Runs inside a new innermost scope. -/
def inScope {α : Type} (inner : Lower α) : Lower α := do
  modify fun s => { s with scopes := [] :: s.scopes }
  let a ← inner
  modify fun s => { s with scopes := s.scopes.tail }
  pure a

/-- Runs inside a function. -/
def inFunction {α : Type} (f : SymbolId) (inner : Lower α) : Lower α := do
  let outer := (← get).function
  modify fun s => { s with function := some f }
  let a ← inner
  modify fun s => { s with function := outer }
  pure a

/-- The innermost declaration of a name. -/
def lookup? (scopes : List Scope) (name : String) : Option SymbolId :=
  scopes.findSome? (·.lookup name)

/-- Declares a name in the innermost scope, once. -/
def declare (name : String) (sym : SymbolId) (span : Span) : Lower Unit := do
  match (← get).scopes with
  | [] => throw (.unknownName name span)
  | scope :: outer =>
    if (scope.lookup name).isSome then throw (.duplicate name span)
    modify fun s => { s with scopes := ((name, sym) :: scope) :: outer }

/-- The symbol that the innermost scope declares under a name. -/
def declared (name : String) (span : Span) : Lower SymbolId := do
  match ((← get).scopes.head?.bind (·.lookup name)) with
  | some sym => pure sym
  | none => throw (.unknownName name span)

/-- The variable or formal that a name stands for. -/
def valueNamed (name : String) (span : Span) : Lower SymbolId := do
  let s ← get
  match (lookup? s.scopes name).filter fun sym => (s.program.symbol sym).isValue with
  | some sym => pure sym
  | none => throw (.unknownName name span)

/-- The function that a name stands for, if it stands for one. -/
def function? (name : String) : Lower (Option SymbolId) := do
  let s ← get
  pure ((lookup? s.scopes name).filter s.program.isFn)

/-- Reads the text of a type; each `ref` in front takes up a round. -/
def typeOf (named? : String → Option SymbolId) (span : Span) :
    Nat → List Char → Except LowerError Ty
  | 0, text => throw (.malformedType (String.ofList text) span)
  | rounds + 1, text => do
    let text := Text.trim text
    let word := String.ofList text
    match text with
    | 'r' :: 'e' :: 'f' :: ' ' :: inner =>
      let inner ← typeOf named? span rounds inner
      match inner.refForm with
      | some ty => pure ty
      | none => throw (.malformedType word span)
    | _ =>
      if word = "int" then pure .int
      else if word = "bool" then pure .bool
      else if word = "string" then pure .string
      else if word = "void" then pure .void
      else if text.isEmpty || word = "ref" || text.any Text.isBlank then
        throw (.malformedType word span)
      else
        match named? word with
        | some sym => pure (.named sym)
        | none => throw (.unknownType word span)

def ty (text : String) (span : Span) : Lower Ty := do
  let s ← get
  let named? (name : String) :=
    (lookup? s.scopes name).filter fun sym => (s.program.symbol sym).isType
  match typeOf named? span (text.length + 1) text.toList with
  | .ok ty => pure ty
  | .error error => throw error

def optionalTy (text : Option String) (span : Span) : Lower Ty :=
  match text with
  | some text => ty text span
  | none => pure .unknown

/-- Declares the type or function that a statement defines, so that the whole block sees it. -/
def hoistName : Stmt → Lower Unit
  | .type span name => do
    let sym ← build (·.addSymbol { name := name, kind := .type, ty := .unknown })
    change (·.modifySymbol sym fun s => { s with ty := .named sym })
    declare name sym span
  | .fn span name _ ret retTag flags _ => do
    let sym ← build (·.addSymbol { name := name, kind := .fn { retTag := retTag }, ty := .void })
    change (·.attachFlags sym flags)
    if ret.isSome then change (·.attachFlag sym .specifiedReturnType)
    declare name sym span
  | _ => pure ()

/-- Gives a function its return type, which may be any type of its block. -/
def hoistReturnType : Stmt → Lower Unit
  | .fn span name _ (some ret) _ _ _ => do
    let ty ← ty ret span
    match lookup? (← get).scopes name with
    | some sym => change (·.modifySymbol sym fun s => { s with ty := ty })
    | none => pure ()
  | _ => pure ()

def hoist (items : List Stmt) : Lower Unit := do
  items.forM hoistName
  items.forM hoistReturnType

/-- Makes a variable the one that holds the return value of the function around it. -/
def bindReturnVar (sym : SymbolId) (span : Span) : Lower Unit := do
  let s ← get
  match s.function with
  | none => pure ()
  | some f =>
    match (s.program.symbol f).fnData? with
    | none => pure ()
    | some data =>
      if data.retVar.isSome then throw (.duplicateReturnVar (s.program.name f) span)
      change (·.modifySymbol f (Symbol.mapFnData fun data => { data with retVar := some sym }))

/-- Puts what lowering a list of statements yields into a new block with a scope of its own. -/
def inBlock (items : List Stmt) (span : Span) (inner : NodeId → Lower Unit) : Lower NodeId := do
  let block ← node (.block []) span
  inScope do
    hoist items
    inner block
  pure block

mutual

def expr (span : Span) : Expr → Lower NodeId
  | .int value => node (.literal (.int value)) span
  | .bool value => node (.literal (.bool value)) span
  | .str value => node (.literal (.str value)) span
  | .name name => do node (.symRef (← valueNamed name span)) span
  | .call name args => do
    let args ← exprs span args
    let callee ← function? name
    node (.call callee name args) span
  | .named name value => do node (.namedArg name (← expr span value)) span
  | .prim op args => do node (.prim op (← exprs span args)) span
  | .addrOf operand => do node (.prim .addrOf [← expr span operand]) span
  | .deref operand => do node (.prim .deref [← expr span operand]) span

def exprs (span : Span) : List Expr → Lower (List NodeId)
  | [] => pure []
  | e :: rest => do
    let first ← expr span e
    let others ← exprs span rest
    pure (first :: others)

end

def optionalExpr (span : Span) : Option Expr → Lower (Option NodeId)
  | some e => some <$> expr span e
  | none => pure none

/-- Declares a formal. -/
def formalSymbol (span : Span) (formal : Formal) : Lower SymbolId := do
  let ty ← optionalTy formal.ty span
  let sym ← build (·.addSymbol { name := formal.name, kind := .arg formal.intent, ty := ty })
  change (·.attachFlags sym formal.flags)
  declare formal.name sym span
  pure sym

/-- The definition of a declared formal, with its default value. -/
def formalDef (span : Span) (formal : Formal × SymbolId) : Lower NodeId := do
  let value ← optionalExpr span formal.1.default
  build (·.addDefinition formal.2 value span)

mutual

/-- The nodes that a statement becomes: one, or for a loop two. -/
def stmt : Stmt → Lower (List NodeId)
  | .var span name tyText init flags => do
    let ty ← optionalTy tyText span
    -- The variable is declared after its initial value, which cannot see it.
    let value ← optionalExpr span init
    let sym ← build (·.addSymbol { name := name, kind := .var, ty := ty })
    change (·.attachFlags sym flags)
    if flags.contains .returnValue then bindReturnVar sym span
    declare name sym span
    pure [← build (·.addDefinition sym value span)]
  | .type span name => do
    let sym ← declared name span
    pure [← build (·.addDefinition sym none span)]
  | .fn span name formals _ _ _ body => do
    let f ← declared name span
    inFunction f <| inScope do
      -- Every default value sees every formal.
      let syms ← formals.mapM (formalSymbol span)
      let defs ← (formals.zip syms).mapM (formalDef span)
      let body ← inBlock body span fun block => items body block
      pure [← node (.fnDef f defs body) span]
  | .assign span target value => do
    let value ← expr span value
    let target ← expr span target
    pure [← node (.assign target value) span]
  | .cond span test thenBody none => do
    let test ← expr span test
    let thenBlock ← inBlock thenBody span fun block => items thenBody block
    pure [← node (.cond test thenBlock none) span]
  | .cond span test thenBody (some elseBody) => do
    let test ← expr span test
    let thenBlock ← inBlock thenBody span fun block => items thenBody block
    let elseBlock ← inBlock elseBody span fun block => items elseBody block
    pure [← node (.cond test thenBlock (some elseBlock)) span]
  | .loop span test body testFirst => do
    -- The loop tests a variable that the body computes anew at its end.
    let temp ← build (·.addTemp .bool)
    let init ← if testFirst then some <$> expr span test else pure none
    let tempDef ← build (·.addDefinition temp init span)
    let block ← inBlock body span fun block => items body block
    let again ← expr span test
    let target ← build (·.addRef temp span)
    let assign ← node (.assign target again) span
    append block assign
    let tested ← build (·.addRef temp span)
    let loop ← node (.loop tested block testFirst) span
    pure [tempDef, loop]
  | .forLoop span index iterable body => do
    let iterable ← expr span iterable
    let sym ← build (·.addSymbol { name := index, kind := .var, ty := .unknown })
    change (·.attachFlag sym .indexVar)
    let indexDef ← build (·.addDefinition sym none span)
    let block ← inScope do
      declare index sym span
      inBlock body span fun block => items body block
    pure [← node (.forLoop indexDef iterable block) span]
  | .ret span value => do
    let value ← optionalExpr span value
    pure [← node (.ret value) span]
  | .brk span => do pure [← node .brk span]
  | .cont span => do pure [← node .cont span]
  | .label span name => do pure [← node (.label name) span]
  | .goto span name => do pure [← node (.goto name) span]
  | .expr span e => do pure [← expr span e]

/-- Lowers statements one after the other to the end of a block. -/
def items : List Stmt → NodeId → Lower Unit
  | [], _ => pure ()
  | s :: rest, block => do
    let nodes ← stmt s
    nodes.forM (append block)
    items rest block

end

def moduleTree (m : ModuleTree) : Lower Unit := do
  let sym ← build (·.addModule m.name m.span)
  match (← get).program.moduleBlock? sym with
  | none => pure ()
  | some root =>
    inScope do
      hoist m.items
      items m.items root

end Lower

/-- Builds the arena of a surface program. Each name is bound to the nearest declaration around it:
functions and types are visible in all of the block that declares them, variables from their
declaration on. A call whose name is bound to no function is left unresolved. -/
def ProgramTree.lower (tree : ProgramTree) : Except LowerError Program :=
  ((tree.modules.forM Lower.moduleTree).run {}).map fun (_, s) => s.program

end MiddleEnd.Surface
