import MiddleEnd.Arena.Dump
import MiddleEnd.Arena.Verify

namespace MiddleEnd

/-! An id may be made up before its symbol or node is there, and then it names nothing. These are
the tests that a program, or what one look at it touches, names only what it holds. -/

/-- The symbols that a node names. -/
def NodeKind.symbolsNamed (kind : NodeKind) : List SymbolId :=
  kind.symRef?.toList ++ kind.callee?.toList ++ kind.defines?.toList

namespace Program

/-- Does a node name only symbols that are there? -/
def namesKnown (p : Program) (id : NodeId) : Bool := (p.kind id).symbolsNamed.all p.hasSymbol

/-- Is there a block for every module, and does all that can be reached from one name only symbols
that are there? -/
def isClosed (p : Program) : Bool :=
  p.roots.all p.hasNode && (p.modules.foldl p.surveyModule {}).reached.all p.namesKnown

/-- Do the live calls at and below a node call only functions that are there? -/
def calleesKnown (p : Program) (root : NodeId) : Bool :=
  (p.preorder root).all fun id => (p.callee? id).all p.hasSymbol

/-! Declarations. -/

/-- Is the declaration of a symbol, if it has one, a node that is there? -/
def declKnown (p : Program) (sym : SymbolId) : Bool := (p.symbol sym).decl.all p.hasNode

/-- Are the declarations of a symbol and of the functions around it there? -/
def declsAroundKnown (p : Program) (sym : SymbolId) : Bool :=
  p.declKnown sym && (p.lexicalAncestors sym).all p.declKnown

/-- Is everything there that decides whether a symbol is an outer variable of `f`? The functions
around `f` count only for a variable that another function declares. -/
def outerVarKnown (p : Program) (sym f : SymbolId) : Bool :=
  p.hasSymbol sym &&
    (!(p.symbol sym).isValue ||
      (p.declKnown sym &&
        match p.declaringFn? sym with
        | some owner => owner == f || (p.hasSymbol f && p.declsAroundKnown f)
        | none => true))

/-- Are the calls in the call lists of all functions there? -/
def callersKnown (p : Program) : Bool :=
  p.registries.fns.all fun f => (p.symbol f).fnData?.all fun data => data.calledBy.all p.hasNode

/-! The text of a program. -/

/-- The symbols whose names stand in the text of an expression, down to a depth. The target of a
call is not among them: a call carries its own name. -/
def exprSymbols (p : Program) : Nat → NodeId → List SymbolId
  | 0, _ => []
  | depth + 1, id =>
    match p.kind id with
    | .symRef sym => [sym]
    | .call _ _ args | .prim _ args => args.flatMap (p.exprSymbols depth)
    | .namedArg _ value => p.exprSymbols depth value
    | _ => []

/-- The symbols whose names stand in the text of a statement, down to a depth. -/
def stmtSymbols (p : Program) : Nat → NodeId → List SymbolId
  | 0, _ => []
  | depth + 1, id =>
    let expr := p.exprSymbols (p.nodes.size + 1)
    let value (id : Option NodeId) := (id.map expr).getD []
    let inside (block : NodeId) := (p.children block).flatMap (p.stmtSymbols depth)
    match p.kind id with
    | .block _ => inside id
    | .assign target value => expr target ++ expr value
    | .cond test thenBlock elseBlock =>
      expr test ++ inside thenBlock ++ (elseBlock.map inside).getD []
    | .loop test body _ => expr test ++ inside body
    | .forLoop index iterable body =>
      (p.kind index).defines?.toList ++ expr iterable ++ inside body
    | .ret result => value result
    | .define sym init => sym :: value init
    | .fnDef sym formals body =>
      let shown (formal : NodeId) :=
        match p.kind formal with
        | .define sym init => sym :: value init
        | _ => []
      sym :: formals.flatMap shown ++ inside body
    | _ => expr id

/-- Is there everything whose name stands in the text of a subtree? -/
def dumpNodeKnown (p : Program) (id : NodeId) : Bool :=
  p.hasNode id && (p.stmtSymbols (p.nodes.size + 1) id).all p.hasSymbol

/-- Is there everything whose name stands in the text of the program? -/
def dumpKnown (p : Program) : Bool := (p.roots.flatMap p.children).all p.dumpNodeKnown

end Program

end MiddleEnd
