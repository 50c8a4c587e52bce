import MiddleEnd.Id
import MiddleEnd.Span
import MiddleEnd.Text.Quoted

namespace MiddleEnd

inductive Literal where
  | int (value : Int)
  | bool (value : Bool)
  | str (value : String)
  deriving DecidableEq, Repr

/-- How a dump shows a literal. -/
def Literal.text : Literal → String
  | int value => toString value
  | bool value => if value then "true" else "false"
  | str value => Text.quote value

/-- An operation that a back end implements itself. -/
inductive PrimOp where
  | add | sub | mul | div | neg
  | eq | ne | lt | le | gt | ge
  | and | or | not
  /-- The address of a variable. -/
  | addrOf
  /-- What a reference refers to. -/
  | deref
  /-- Ends the program. -/
  | halt
  deriving DecidableEq, Repr

namespace PrimOp

def all : List PrimOp :=
  [add, sub, mul, div, neg, eq, ne, lt, le, gt, ge, and, or, not, addrOf, deref, halt]

def word : PrimOp → String
  | add => "add" | sub => "sub" | mul => "mul" | div => "div" | neg => "neg"
  | eq => "eq" | ne => "ne" | lt => "lt" | le => "le" | gt => "gt" | ge => "ge"
  | and => "and" | or => "or" | not => "not"
  | addrOf => "addr_of" | deref => "deref" | halt => "halt"

def ofWord? (word : String) : Option PrimOp := all.find? (·.word == word)

def hasSideEffects : PrimOp → Bool
  | halt => true
  | _ => false

end PrimOp

/-- The constructs of a program. Children are owned; every other id in a node only refers. -/
inductive NodeKind where
  | symRef (sym : SymbolId)
  /-- A call; resolution fills in the callee. -/
  | call (callee : Option SymbolId) (name : String) (args : List NodeId)
  | namedArg (name : String) (value : NodeId)
  | literal (value : Literal)
  | prim (op : PrimOp) (args : List NodeId)
  | block (stmts : List NodeId)
  | assign (target value : NodeId)
  | cond (test thenBlock : NodeId) (elseBlock : Option NodeId)
  /-- A loop that tests its condition variable before or after each turn; the body recomputes
  the variable. -/
  | loop (test body : NodeId) (testFirst : Bool)
  /-- A `for` loop; `index` is the definition of the index variable. -/
  | forLoop (index iterable body : NodeId)
  | ret (value : Option NodeId)
  | brk
  | cont
  | label (name : String)
  | goto (name : String)
  /-- Binds a variable, a formal or a type; the value is the initial or the default one. -/
  | define (sym : SymbolId) (value : Option NodeId)
  /-- Binds a function and owns its formals and body. -/
  | fnDef (sym : SymbolId) (formals : List NodeId) (body : NodeId)
  deriving DecidableEq, Repr

/-- Which construct a node is. -/
inductive NodeTag where
  | symRef | call | namedArg | literal | prim | block | assign | cond | loop | forLoop
  | ret | brk | cont | label | goto | define | fnDef
  deriving DecidableEq, Repr

namespace NodeTag

def all : List NodeTag :=
  [symRef, call, namedArg, literal, prim, block, assign, cond, loop, forLoop, ret, brk, cont, label,
    goto, define, fnDef]

def word : NodeTag → String
  | symRef => "SymRef" | call => "Call" | namedArg => "NamedArg" | literal => "Literal"
  | prim => "Prim" | block => "Block" | assign => "Assign" | cond => "Cond" | loop => "While"
  | forLoop => "For" | ret => "Return" | brk => "Break" | cont => "Continue" | label => "Label"
  | goto => "Goto" | define => "Def" | fnDef => "FnDef"

def ofWord? (word : String) : Option NodeTag := all.find? (·.word == word)

end NodeTag

namespace NodeKind

def tag : NodeKind → NodeTag
  | symRef _ => .symRef
  | call .. => .call
  | namedArg .. => .namedArg
  | literal _ => .literal
  | prim .. => .prim
  | block _ => .block
  | assign .. => .assign
  | cond .. => .cond
  | loop .. => .loop
  | forLoop .. => .forLoop
  | ret _ => .ret
  | brk => .brk
  | cont => .cont
  | label _ => .label
  | goto _ => .goto
  | define .. => .define
  | fnDef .. => .fnDef

/-- The owned children, in source order. -/
def children : NodeKind → List NodeId
  | symRef _ | literal _ | brk | cont | label _ | goto _ => []
  | call _ _ args => args
  | prim _ args => args
  | namedArg _ value => [value]
  | block stmts => stmts
  | assign target value => [target, value]
  | cond test thenBlock elseBlock => test :: thenBlock :: elseBlock.toList
  | loop test body _ => [test, body]
  | forLoop index iterable body => [index, iterable, body]
  | ret value => value.toList
  | define _ value => value.toList
  | fnDef _ formals body => formals ++ [body]

/-- The list that positional insertion works on, for the constructs that have one. -/
def childList? : NodeKind → Option (List NodeId)
  | block stmts => some stmts
  | call _ _ args => some args
  | prim _ args => some args
  | fnDef _ formals _ => some formals
  | _ => none

/-- Puts another list in the place of the child list. -/
def withChildList (kind : NodeKind) (children : List NodeId) : NodeKind :=
  match kind with
  | block _ => block children
  | call callee name _ => call callee name children
  | prim op _ => prim op children
  | fnDef sym _ body => fnDef sym children body
  | other => other

/-- Puts `new` in the place of the first of `ids` that is `old`. -/
def substFirst (old new : NodeId) : List NodeId → List NodeId
  | [] => []
  | id :: rest => if id = old then new :: rest else id :: substFirst old new rest

/-- Puts `new` in the first child slot that holds `old`. -/
def replaceChild (old new : NodeId) : NodeKind → NodeKind
  | call callee name args => call callee name (substFirst old new args)
  | prim op args => prim op (substFirst old new args)
  | namedArg name value => namedArg name (if value = old then new else value)
  | block stmts => block (substFirst old new stmts)
  | assign target value =>
    if target = old then assign new value
    else assign target (if value = old then new else value)
  | cond test thenBlock elseBlock =>
    if test = old then cond new thenBlock elseBlock
    else if thenBlock = old then cond test new elseBlock
    else cond test thenBlock (if elseBlock = some old then some new else elseBlock)
  | loop test body testFirst =>
    if test = old then loop new body testFirst
    else loop test (if body = old then new else body) testFirst
  | forLoop index iterable body =>
    if index = old then forLoop new iterable body
    else if iterable = old then forLoop index new body
    else forLoop index iterable (if body = old then new else body)
  | ret value => ret (if value = some old then some new else value)
  | define sym value => define sym (if value = some old then some new else value)
  | fnDef sym formals body =>
    if formals.contains old then fnDef sym (substFirst old new formals) body
    else fnDef sym formals (if body = old then new else body)
  | other => other

/-- Takes a child out of an optional slot or of the child list; `none` if the child fills a slot
that must not be empty. -/
def withoutChild? (child : NodeId) (kind : NodeKind) : Option NodeKind :=
  let fromList :=
    match kind.childList? with
    | some ids => if ids.contains child then some (kind.withChildList (ids.filter (· != child))) else none
    | none => none
  match kind with
  | ret value => if value = some child then some (ret none) else none
  | define sym value => if value = some child then some (define sym none) else none
  | cond test thenBlock elseBlock =>
    if elseBlock = some child then some (cond test thenBlock none) else none
  | _ => fromList

/-- The symbol that the node defines, if it is a definition. -/
def defines? : NodeKind → Option SymbolId
  | define sym _ => some sym
  | fnDef sym _ _ => some sym
  | _ => none

def isExpr : NodeKind → Bool
  | symRef _ | call .. | namedArg .. | literal _ | prim .. => true
  | _ => false

def isBlock : NodeKind → Bool
  | block _ => true
  | _ => false

def isFnDef : NodeKind → Bool
  | fnDef .. => true
  | _ => false

def isCall : NodeKind → Bool
  | call .. => true
  | _ => false

/-- The resolved target of a call. -/
def callee? : NodeKind → Option SymbolId
  | call callee _ _ => callee
  | _ => none

/-- The symbol that a reference names. -/
def symRef? : NodeKind → Option SymbolId
  | symRef sym => some sym
  | _ => none

end NodeKind

/-- One place of the arena. -/
structure Node where
  kind : NodeKind
  span : Span
  /-- The owner; none for a module root and for the top of a detached subtree. -/
  parent : Option NodeId := none
  /-- The function or module around the node. -/
  scope : Option SymbolId := none
  /-- False once the node has been destroyed. -/
  live : Bool := true
  deriving DecidableEq, Repr

/-- What stands at a place that no node takes: a destroyed jump. -/
def Node.absent : Node := { kind := .brk, span := .nowhere, live := false }

instance : Inhabited Node := ⟨Node.absent⟩

end MiddleEnd
