import MiddleEnd.Proofs.Surface.Hoist

/-! Which declaration a name of a surface program stands for, read off the text alone. -/

namespace MiddleEnd.Surface

/-- The declarations of one scope that can be seen from a place. -/
abbrev Visible := List (String × SymbolSort)

/-- A declaration, by how many scopes further out it stands and what it declares. -/
structure Target where
  depth : Nat
  sort : SymbolSort
  deriving DecidableEq, Repr

/-- Variables and formals hold values. -/
def Target.isValue (target : Target) : Bool := target.sort = .var || target.sort = .arg

/-- The declaration of a name in the innermost scope that holds one that can be seen. -/
def select : List Visible → String → Option Target
  | [], _ => none
  | scope :: outer, name =>
    match scope.lookup name with
    | some sort => some ⟨0, sort⟩
    | none => (select outer name).map fun target => { target with depth := target.depth + 1 }

/-- What is selected is declared so far out, and no scope further in declares the name. -/
theorem select_eq_some_iff {visible : List Visible} {name : String} {target : Target} :
    select visible name = some target ↔
      visible[target.depth]?.bind (·.lookup name) = some target.sort ∧
        ∀ depth < target.depth, visible[depth]?.bind (·.lookup name) = none := by
  obtain ⟨depth, sort⟩ := target
  induction visible generalizing depth with
  | nil => simp [select]
  | cons scope outer ih =>
    rw [select]
    cases here : scope.lookup name with
    | some found =>
      cases depth with
      | zero => simp [here]
      | succ depth =>
        constructor
        · intro same
          cases same
        · intro further
          have first := further.2 0 (Nat.succ_pos depth)
          simp [here] at first
    | none =>
      cases depth with
      | zero => simp [here]
      | succ depth =>
        have inner : (select outer name).map (fun target =>
            { target with depth := target.depth + 1 }) = some ⟨depth + 1, sort⟩ ↔
            select outer name = some ⟨depth, sort⟩ := by
          cases select outer name with
          | none => simp
          | some target =>
            cases target
            simp
        rw [inner, ih depth]
        refine and_congr Iff.rfl ⟨fun further d less => ?_, fun further d less => ?_⟩
        · cases d with
          | zero => exact here
          | succ d => exact further d (Nat.lt_of_succ_lt_succ less)
        · exact further (d + 1) (Nat.succ_lt_succ less)

/-- A place where a value is called by its name. -/
structure Naming where
  span : Span
  name : String
  target : Option Target
  deriving DecidableEq, Repr

/-- Does the name stand for a variable or a formal? -/
def Naming.isBound (naming : Naming) : Bool := naming.target.any Target.isValue

namespace Resolved

/-- An expression whose names have been looked up. -/
inductive Expr where
  | literal (value : Literal)
  | name (naming : Naming)
  | call (name : String) (target : Option Target) (args : List Expr)
  | named (name : String) (value : Expr)
  | prim (op : PrimOp) (args : List Expr)

/-- A statement whose names have been looked up. -/
inductive Stmt where
  | var (name : String) (init : Option Expr)
  | type (name : String)
  | fn (name : String) (formals : List (String × Option Expr)) (body : List Stmt)
  | assign (target value : Expr)
  | cond (test : Expr) (thenBody : List Stmt) (elseBody : Option (List Stmt))
  | loop (test : Expr) (body : List Stmt) (testFirst : Bool)
  | forLoop (index : String) (iterable : Expr) (body : List Stmt)
  | ret (value : Option Expr)
  /-- A jump or a label. -/
  | jump (kind : NodeKind)
  | expr (expr : Expr)

mutual

/-- The places in an expression where a value is called by its name. -/
def Expr.namings : Expr → List Naming
  | .literal _ => []
  | .name naming => [naming]
  | .call _ _ args => namingsOf args
  | .named _ value => value.namings
  | .prim _ args => namingsOf args

def namingsOf : List Expr → List Naming
  | [] => []
  | e :: rest => e.namings ++ namingsOf rest

end

def namingsOf? (e : Option Expr) : List Naming := (e.map Expr.namings).getD []

mutual

def Stmt.namings : Stmt → List Naming
  | .var _ init => namingsOf? init
  | .type _ => []
  | .fn _ formals body => formals.flatMap (fun formal => namingsOf? formal.2) ++ namingsIn body
  | .assign target value => target.namings ++ value.namings
  | .cond test thenBody none => test.namings ++ namingsIn thenBody
  | .cond test thenBody (some elseBody) =>
    test.namings ++ namingsIn thenBody ++ namingsIn elseBody
  | .loop test body _ => test.namings ++ namingsIn body
  | .forLoop _ iterable body => iterable.namings ++ namingsIn body
  | .ret value => namingsOf? value
  | .jump _ => []
  | .expr e => e.namings

def namingsIn : List Stmt → List Naming
  | [] => []
  | st :: rest => st.namings ++ namingsIn rest

end

end Resolved

section

variable (visible : List Visible) (span : Span)

mutual

/-- Looks up the names of an expression. -/
def resolveExpr : Expr → Resolved.Expr
  | .int value => .literal (.int value)
  | .bool value => .literal (.bool value)
  | .str value => .literal (.str value)
  | .name name => .name ⟨span, name, select visible name⟩
  | .call name args => .call name (select visible name) (resolveExprs args)
  | .named name value => .named name (resolveExpr value)
  | .prim op args => .prim op (resolveExprs args)
  | .addrOf operand => .prim .addrOf [resolveExpr operand]
  | .deref operand => .prim .deref [resolveExpr operand]

def resolveExprs : List Expr → List Resolved.Expr
  | [] => []
  | e :: rest => resolveExpr e :: resolveExprs rest

end

def resolveFormal (formal : Formal) : String × Option Resolved.Expr :=
  (formal.name, formal.default.map (resolveExpr visible span))

end

/-- What can be seen at the start of a block: the types and functions that it declares anywhere. -/
def enterBlock (visible : List Visible) (body : List Stmt) : List Visible :=
  body.filterMap Stmt.hoists? :: visible

/-- What can be seen after a statement: if it declares a variable, that too. -/
def seeNext (visible : List Visible) : Stmt → List Visible
  | .var _ name .. => visible.modifyHead (· ++ [(name, .var)])
  | _ => visible

mutual

/-- Looks up the names of a statement. -/
def resolveStmt (visible : List Visible) : Stmt → Resolved.Stmt
  | .var span name _ init _ => .var name (init.map (resolveExpr visible span))
  | .type _ name => .type name
  | .fn span name formals _ _ _ body =>
    -- A default value sees every formal, and nothing of the body.
    let inside := formals.map (fun formal => (formal.name, .arg)) :: visible
    .fn name (formals.map (resolveFormal inside span)) (resolveItems (enterBlock inside body) body)
  | .assign span target value =>
    .assign (resolveExpr visible span target) (resolveExpr visible span value)
  | .cond span test thenBody none =>
    .cond (resolveExpr visible span test) (resolveItems (enterBlock visible thenBody) thenBody) none
  | .cond span test thenBody (some elseBody) =>
    .cond (resolveExpr visible span test) (resolveItems (enterBlock visible thenBody) thenBody)
      (some (resolveItems (enterBlock visible elseBody) elseBody))
  | .loop span test body testFirst =>
    .loop (resolveExpr visible span test) (resolveItems (enterBlock visible body) body) testFirst
  | .forLoop span index iterable body =>
    .forLoop index (resolveExpr visible span iterable)
      (resolveItems (enterBlock ([(index, .var)] :: visible) body) body)
  | .ret span value => .ret (value.map (resolveExpr visible span))
  | .brk _ => .jump .brk
  | .cont _ => .jump .cont
  | .label _ name => .jump (.label name)
  | .goto _ name => .jump (.goto name)
  | .expr span e => .expr (resolveExpr visible span e)

/-- Looks up the names of statements that follow each other in a block. -/
def resolveItems (visible : List Visible) : List Stmt → List Resolved.Stmt
  | [] => []
  | st :: rest => resolveStmt visible st :: resolveItems (seeNext visible st) rest

end

/-- Looks up the names of a module. -/
def ModuleTree.resolve (m : ModuleTree) : List Resolved.Stmt :=
  resolveItems (enterBlock [] m.items) m.items

/-- The places in a program where a value is called by its name. -/
def ProgramTree.namings (tree : ProgramTree) : List Naming :=
  tree.modules.flatMap fun m => Resolved.namingsIn m.resolve

/-! What a program makes of resolved text. A frame tells for each name that a scope declares which
symbol the declaration became; the frames around a place come innermost first. -/

/-- The symbol of the declaration that a name stands for. -/
def Target.symbol? (target : Target) (frames : List Scope) (name : String) : Option SymbolId :=
  frames[target.depth]?.bind (·.lookup name)

/-- The symbol of a declaration in the innermost scope. -/
def own? (frames : List Scope) (name : String) : Option SymbolId :=
  frames.head?.bind (·.lookup name)

/-- A call is bound if its name stands for a function. -/
def CalleeOf (frames : List Scope) (name : String) (target : Option Target) :
    Option SymbolId → Prop
  | some f => ∃ t, target = some t ∧ t.sort = .fn ∧ t.symbol? frames name = some f
  | none => ∀ t, target = some t → t.sort ≠ .fn

section

variable (p : Program)

mutual

/-- The node is what the expression says, and it names the symbols of the declarations that the
expression's names stand for. -/
def SpellsExpr (frames : List Scope) : Resolved.Expr → NodeId → Prop
  | .literal value, n => p.kind n = .literal value
  | .name naming, n => ∃ target v, naming.target = some target ∧ target.isValue = true ∧
      target.symbol? frames naming.name = some v ∧ p.kind n = .symRef v
  | .call name target args, n => ∃ callee nodes, p.kind n = .call callee name nodes ∧
      CalleeOf frames name target callee ∧ SpellsExprs frames args nodes
  | .named name value, n => ∃ c, p.kind n = .namedArg name c ∧ SpellsExpr frames value c
  | .prim op args, n => ∃ nodes, p.kind n = .prim op nodes ∧ SpellsExprs frames args nodes

def SpellsExprs (frames : List Scope) : List Resolved.Expr → List NodeId → Prop
  | [], nodes => nodes = []
  | e :: rest, nodes => ∃ n others, nodes = n :: others ∧ SpellsExpr frames e n ∧
      SpellsExprs frames rest others

end

def SpellsOptional (frames : List Scope) : Option Resolved.Expr → Option NodeId → Prop
  | none, value => value = none
  | some e, value => ∃ n, value = some n ∧ SpellsExpr p frames e n

/-- The node defines the formal in its function's frame. -/
def SpellsFormal (frames : List Scope) (formal : String × Option Resolved.Expr) (n : NodeId) : Prop :=
  ∃ v value, p.kind n = .define v value ∧ own? frames formal.1 = some v ∧
    SpellsOptional p frames formal.2 value

mutual

/-- The nodes are what the statement says. What the statement declares, they define with the symbol
that the innermost frame has for it. -/
def SpellsStmt (frames : List Scope) : Resolved.Stmt → List NodeId → Prop
  | .var name init, nodes => ∃ n v value, nodes = [n] ∧ p.kind n = .define v value ∧
      own? frames name = some v ∧ SpellsOptional p frames init value
  | .type name, nodes => ∃ n v, nodes = [n] ∧ p.kind n = .define v none ∧ own? frames name = some v
  | .fn name formals body, nodes => ∃ n v defs block inner, nodes = [n] ∧
      p.kind n = .fnDef v defs block ∧ own? frames name = some v ∧ ∃ frame,
      List.Forall₂ (SpellsFormal p (frame :: frames)) formals defs ∧ p.kind block = .block inner ∧
      ∃ own, SpellsItems (own :: frame :: frames) body inner
  | .assign target value, nodes => ∃ n m k, nodes = [n] ∧ p.kind n = .assign m k ∧
      SpellsExpr p frames target m ∧ SpellsExpr p frames value k
  | .cond test thenBody none, nodes => ∃ n m block inner, nodes = [n] ∧
      p.kind n = .cond m block none ∧ SpellsExpr p frames test m ∧ p.kind block = .block inner ∧
      ∃ own, SpellsItems (own :: frames) thenBody inner
  | .cond test thenBody (some elseBody), nodes => ∃ n m block inner other others, nodes = [n] ∧
      p.kind n = .cond m block (some other) ∧ SpellsExpr p frames test m ∧
      (p.kind block = .block inner ∧ ∃ own, SpellsItems (own :: frames) thenBody inner) ∧
      p.kind other = .block others ∧ ∃ own, SpellsItems (own :: frames) elseBody others
  -- Both copies of the condition stand under the frames around the loop.
  | .loop test body testFirst, nodes => ∃ tempDef n temp init tested block inner assign target again,
      nodes = [tempDef, n] ∧ p.kind tempDef = .define temp init ∧
      SpellsOptional p frames (if testFirst then some test else none) init ∧
      p.kind n = .loop tested block testFirst ∧ p.kind tested = .symRef temp ∧
      p.kind block = .block (inner ++ [assign]) ∧ p.kind assign = .assign target again ∧
      p.kind target = .symRef temp ∧ SpellsExpr p frames test again ∧
      ∃ own, SpellsItems (own :: frames) body inner
  | .forLoop index iterable body, nodes => ∃ n v indexDef m block inner, nodes = [n] ∧
      p.kind n = .forLoop indexDef m block ∧ p.kind indexDef = .define v none ∧
      SpellsExpr p frames iterable m ∧ p.kind block = .block inner ∧ ∃ header,
      own? (header :: frames) index = some v ∧
      ∃ own, SpellsItems (own :: header :: frames) body inner
  | .ret value, nodes => ∃ n m, nodes = [n] ∧ p.kind n = .ret m ∧ SpellsOptional p frames value m
  | .jump kind, nodes => ∃ n, nodes = [n] ∧ p.kind n = kind
  | .expr e, nodes => ∃ n, nodes = [n] ∧ SpellsExpr p frames e n

def SpellsItems (frames : List Scope) : List Resolved.Stmt → List NodeId → Prop
  | [], nodes => nodes = []
  | st :: rest, nodes => ∃ first others, nodes = first ++ others ∧ SpellsStmt frames st first ∧
      SpellsItems frames rest others

end

/-- The top level of the module is what its text says. -/
def SpellsModule (m : ModuleTree) (v : SymbolId) : Prop :=
  ∃ root nodes frame, p.moduleBlock? v = some root ∧ p.kind root = .block nodes ∧
    SpellsItems p [frame] m.resolve nodes

end

end MiddleEnd.Surface
