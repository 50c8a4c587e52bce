import MiddleEnd.Arena.Ancestry
import MiddleEnd.Arena.Walk
import MiddleEnd.Check.Finding

namespace MiddleEnd.Check

/-- The variable that holds the return value of a function. -/
def retVar? (p : Program) (f : SymbolId) : Option SymbolId :=
  (p.symbol f).fnData?.bind (·.retVar)

/-- Can a turn of a loop end before the end of its body? -/
def exitsEarly (p : Program) (body : NodeId) : Bool :=
  [NodeTag.brk, .cont, .goto].any fun tag => !(p.collectOwn tag body).isEmpty

/-- How often the return value is defined on the path through a statement that defines it least,
down to a depth. What a loop or a jump may leave out counts nothing; the body of a loop that tests
after each turn runs at least once. -/
def definitions (p : Program) (retVar : Option SymbolId) : Nat → NodeId → Nat
  | 0, _ => 0
  | depth + 1, id =>
    match p.kind id with
    | .block stmts => stmts.foldr (definitions p retVar depth · + ·) 0
    | .cond _ thenBlock elseBlock =>
      let least := (elseBlock.map (definitions p retVar depth)).getD 0
      min (definitions p retVar depth thenBlock) least
    | .loop _ body false => if exitsEarly p body then 0 else definitions p retVar depth body
    | .assign target _ =>
      match p.kind target with
      | .symRef sym => if some sym = retVar then 1 else 0
      | _ => 0
    | .define sym (some _) => if some sym = retVar then 1 else 0
    | .ret (some _) => 1
    | .prim .halt _ => 1
    | .call (some callee) _ _ => if p.hasFlag callee .terminatesProgram then 1 else 0
    | _ => 0

/-- The least number of definitions of the return value on any path through a function. -/
def definedOnAllPaths (p : Program) (f : SymbolId) : Nat :=
  match p.fnBody? f with
  | some body => definitions p (retVar? p f) (p.nodes.size + 1) body
  | none => 0

/-- Is the return value's variable given a value where it is declared, because the function has a
declared return type? -/
def onlyDefaultDefines (p : Program) (f : SymbolId) : Bool :=
  p.hasFlag f .specifiedReturnType &&
    match (retVar? p f).bind fun sym => (p.symbol sym).decl with
    | some decl =>
      match p.kind decl with
      | .define _ (some _) => true
      | _ => false
    | none => false

/-- Can control fall off the end of a function that is to return a value? -/
def missesReturn (p : Program) (f : SymbolId) : Bool :=
  let symbol := p.symbol f
  if symbol.ty.isVoid || symbol.hasFlag .iterator || symbol.hasFlag .external then false
  else
    let defined := definedOnAllPaths p f
    defined == 0 || (defined == 1 && onlyDefaultDefines p f)

/-- Every function whose end control can reach without a return value. -/
def returnCoverage (p : Program) : List Finding :=
  (p.registries.fns.filter (missesReturn p)).map fun f =>
    .missingReturn (p.name f) ((p.declSpan? f).getD .nowhere)

end MiddleEnd.Check
