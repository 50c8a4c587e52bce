import MiddleEnd.Node
import MiddleEnd.Symbol

namespace MiddleEnd.Surface

/-- An expression as a front-end writes it: names are not bound yet. -/
inductive Expr where
  | int (value : Int)
  | bool (value : Bool)
  | name (name : String)
  | str (value : String)
  | call (name : String) (args : List Expr)
  /-- An actual passed by name. -/
  | named (name : String) (value : Expr)
  | prim (op : PrimOp) (args : List Expr)
  | addrOf (operand : Expr)
  | deref (operand : Expr)
  deriving Repr, Inhabited

structure Formal where
  name : String
  ty : Option String := none
  intent : Intent := .blank
  default : Option Expr := none
  flags : List Flag := []
  deriving Repr, Inhabited

/-- A statement, with its place in the source. -/
inductive Stmt where
  | var (span : Span) (name : String) (ty : Option String) (init : Option Expr) (flags : List Flag)
  | type (span : Span) (name : String)
  /-- A function; no return type means that it returns nothing. -/
  | fn (span : Span) (name : String) (formals : List Formal) (ret : Option String)
      (retTag : RetTag) (flags : List Flag) (body : List Stmt)
  | assign (span : Span) (target value : Expr)
  | cond (span : Span) (test : Expr) (thenBody : List Stmt) (elseBody : Option (List Stmt))
  /-- A loop that tests its condition before each turn, or after each. -/
  | loop (span : Span) (test : Expr) (body : List Stmt) (testFirst : Bool)
  | forLoop (span : Span) (index : String) (iterable : Expr) (body : List Stmt)
  | ret (span : Span) (value : Option Expr)
  | brk (span : Span)
  | cont (span : Span)
  | label (span : Span) (name : String)
  | goto (span : Span) (name : String)
  | expr (span : Span) (expr : Expr)
  deriving Repr, Inhabited

/-- A module, with its top-level statements. -/
structure ModuleTree where
  name : String
  items : List Stmt := []
  span : Span := .nowhere
  deriving Repr, Inhabited

/-- What a front-end hands over. -/
structure ProgramTree where
  modules : List ModuleTree
  deriving Repr, Inhabited

end MiddleEnd.Surface
