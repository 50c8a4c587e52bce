import MiddleEnd.Arena.Program

namespace MiddleEnd.Program

/-- A node and the nodes above it, from the inside out, `fuel` of them at most. -/
def pathUp (p : Program) : Nat → NodeId → List NodeId
  | 0, _ => []
  | fuel + 1, id =>
    id ::
      match (p.node id).parent with
      | some parent => p.pathUp fuel parent
      | none => []

/-- A node and all nodes above it, from the inside out. Parents never form a circle, so a path is
no longer than the arena. -/
def path (p : Program) (id : NodeId) : List NodeId := p.pathUp (p.nodes.size + 1) id

def isRoot (p : Program) (id : NodeId) : Bool := p.roots.contains id

/-- Does the path from the node upward consist of live nodes and end at a module root? -/
def isAttached (p : Program) (id : NodeId) : Bool :=
  let path := p.path id
  path.all (fun node => (p.node node).live) && path.getLast?.any p.isRoot

/-- Is `ancestor` the node itself or one above it? -/
def isAncestor (p : Program) (ancestor id : NodeId) : Bool := (p.path id).contains ancestor

/-- The first node on the way up that stands directly in a block. -/
def enclosingStmt? (p : Program) (id : NodeId) : Option NodeId :=
  let path := p.path id
  ((path.zip path.tail).find? fun (_, owner) => (p.kind owner).isBlock).map Prod.fst

def isFn (p : Program) (sym : SymbolId) : Bool := (p.symbol sym).isFn

/-- The function whose formals or body hold the node. -/
def enclosingFn? (p : Program) (id : NodeId) : Option SymbolId := (p.node id).scope.filter p.isFn

/-- The function or module around what stands directly below a node. -/
def scopeBelow (p : Program) (owner : NodeId) : Option SymbolId :=
  match p.kind owner with
  | .fnDef sym _ _ => some sym
  | _ => (p.node owner).scope

/-- The function or module that declares a symbol. -/
def declaringScope? (p : Program) (sym : SymbolId) : Option SymbolId :=
  (p.symbol sym).decl.bind fun decl => (p.node decl).scope

/-- The function that declares a symbol, unless a module does. -/
def declaringFn? (p : Program) (sym : SymbolId) : Option SymbolId :=
  (p.declaringScope? sym).filter p.isFn

/-- The functions around `f`, from the inside out, `fuel` of them at most. -/
def functionsAround (p : Program) : Nat → SymbolId → List SymbolId
  | 0, _ => []
  | fuel + 1, f =>
    match p.declaringFn? f with
    | some outer => outer :: p.functionsAround fuel outer
    | none => []

/-- The functions around `f`, from the inside out. Loose definitions may declare each other in a
circle, and then the list is cut off. -/
def lexicalAncestors (p : Program) (f : SymbolId) : List SymbolId :=
  p.functionsAround (p.symbols.size + 1) f

def isNestedFn (p : Program) (f : SymbolId) : Bool := p.isFn f && (p.declaringFn? f).isSome

/-- Is the symbol a variable or formal of a function around `f`? -/
def isOuterVar (p : Program) (sym f : SymbolId) : Bool :=
  (p.symbol sym).isValue &&
    match p.declaringFn? sym with
    | some owner => owner != f && (p.lexicalAncestors f).contains owner
    | none => false

/-- The definition of a function, if its declaration is one. -/
def fnDef? (p : Program) (f : SymbolId) : Option NodeId :=
  (p.symbol f).decl.filter fun decl => (p.kind decl).isFnDef

def fnBody? (p : Program) (f : SymbolId) : Option NodeId :=
  (p.fnDef? f).bind fun fnDef =>
    match p.kind fnDef with
    | .fnDef _ _ body => some body
    | _ => none

/-- The definitions of a function's formals. -/
def formalDefs (p : Program) (f : SymbolId) : List NodeId :=
  match (p.fnDef? f).map p.kind with
  | some (.fnDef _ formals _) => formals
  | _ => []

def formals (p : Program) (f : SymbolId) : List SymbolId :=
  (p.formalDefs f).filterMap fun formal => (p.kind formal).defines?

/-- The actuals of a call. -/
def callArgs? (p : Program) (call : NodeId) : Option (List NodeId) :=
  match p.kind call with
  | .call _ _ args => some args
  | _ => none

def callee? (p : Program) (call : NodeId) : Option SymbolId := (p.kind call).callee?

def name (p : Program) (sym : SymbolId) : String := (p.symbol sym).name

/-- The span of a symbol's declaration. -/
def declSpan? (p : Program) (sym : SymbolId) : Option Span := (p.symbol sym).decl.map p.span

def epoch (p : Program) (f : SymbolId) : Nat := (p.symbol f).epoch

end MiddleEnd.Program
