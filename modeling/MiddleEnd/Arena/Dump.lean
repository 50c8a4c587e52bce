import MiddleEnd.Arena.Ancestry

namespace MiddleEnd.Program

/-- An expression on one line. Nothing is nested deeper than the arena is large. -/
def exprText (p : Program) : Nat → NodeId → String
  | 0, _ => ""
  | depth + 1, id =>
    let list (ids : List NodeId) := ", ".intercalate (ids.map (p.exprText depth))
    match p.kind id with
    | .symRef sym => p.name sym
    | .literal value => value.text
    | .call _ name args => s!"{name}({list args})"
    | .namedArg name value => s!"{name}: {p.exprText depth value}"
    | .prim op args => s!"{op.word}({list args})"
    | other => s!"<{other.tag.word}>"

def expr (p : Program) (id : NodeId) : String := p.exprText (p.nodes.size + 1) id

/-- The flags of a symbol, at the end of its line. -/
def flagsText (flags : FlagSet) : String := if flags.isEmpty then "" else " " ++ flags.text

def valueText (p : Program) : Option NodeId → String
  | some value => " = " ++ p.expr value
  | none => ""

/-- The line of a variable or type definition. -/
def definitionText (p : Program) (sym : SymbolId) (value : Option NodeId) : String :=
  let symbol := p.symbol sym
  let word := if symbol.isType then "type " else "var "
  let ty := if symbol.ty.isUnknown || symbol.isType then "" else ": " ++ symbol.ty.text
  word ++ symbol.name ++ ty ++ p.valueText value ++ flagsText symbol.flags

/-- A formal inside the line of its function. -/
def formalText (p : Program) (sym : SymbolId) (value : Option NodeId) : String :=
  let symbol := p.symbol sym
  let intent := (symbol.intent?.getD .blank).text
  let intent := if intent.isEmpty then "" else intent ++ " "
  let ty := if symbol.ty.isUnknown then "" else ": " ++ symbol.ty.text
  intent ++ symbol.name ++ ty ++ p.valueText value

/-- The line that opens a function. -/
def fnText (p : Program) (sym : SymbolId) (formals : List NodeId) : String :=
  let symbol := p.symbol sym
  let shown :=
    formals.filterMap fun formal =>
      match p.kind formal with
      | .define sym value => some (p.formalText sym value)
      | _ => none
  let ty := if symbol.ty.isUnknown || symbol.ty.isVoid then "" else " -> " ++ symbol.ty.text
  s!"fn {symbol.name}(" ++ ", ".intercalate shown ++ ")" ++ ty ++ flagsText symbol.flags

/-- A line with its line break, two spaces further in for each level. -/
def indented (level : Nat) (text : String) : String :=
  "".pushn ' ' (2 * level) ++ text ++ "\n"

/-- The lines of a statement, down to a depth. -/
def stmtText (p : Program) : Nat → Nat → NodeId → String
  | 0, _, _ => ""
  | depth + 1, level, id =>
    let line := indented level
    let inside (block : NodeId) :=
      String.join ((p.children block).map (p.stmtText depth (level + 1)))
    match p.kind id with
    | .block _ => line "\x7b" ++ inside id ++ line "\x7d"
    | .assign target value => line s!"{p.expr target} = {p.expr value}"
    | .cond test thenBlock elseBlock =>
      line s!"if {p.expr test}" ++ inside thenBlock ++
        match elseBlock with
        | some block => line "else" ++ inside block
        | none => ""
    | .loop test body testFirst =>
      line ((if testFirst then "while " else "do-while ") ++ p.expr test) ++ inside body
    | .forLoop index iterable body =>
      let name := ((p.kind index).defines?.map p.name).getD ""
      line s!"for {name} in {p.expr iterable}" ++ inside body
    | .ret (some value) => line s!"return {p.expr value}"
    | .ret none => line "return"
    | .brk => line "break"
    | .cont => line "continue"
    | .label name => line s!"label {name}"
    | .goto name => line s!"goto {name}"
    | .define sym value => line (p.definitionText sym value)
    | .fnDef sym formals body => line (p.fnText sym formals) ++ inside body
    | _ => line (p.expr id)

/-- The text of one subtree. -/
def dumpNode (p : Program) (id : NodeId) : String := p.stmtText (p.nodes.size + 1) 0 id

def dumpModule (p : Program) (sym : SymbolId) : String :=
  let stmts := ((p.moduleBlock? sym).map p.children).getD []
  indented 0 ("module " ++ p.name sym) ++
    String.join (stmts.map (p.stmtText (p.nodes.size + 1) 1))

/-- The text of the whole program, a line for each statement. -/
def dump (p : Program) : String := String.join (p.modules.map p.dumpModule)

end MiddleEnd.Program
