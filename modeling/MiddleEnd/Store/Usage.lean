import MiddleEnd.Arena.Ancestry
import MiddleEnd.Arena.Walk

namespace MiddleEnd.Store

/-- The symbol whose address a node takes. -/
def addressed? (p : Program) (id : NodeId) : Option SymbolId :=
  match p.kind id with
  | .prim .addrOf (operand :: _) => (p.kind operand).symRef?
  | _ => none

/-- The symbols whose address is taken in a function. A store to one may be read through the
reference. -/
def addressTaken (p : Program) (f : SymbolId) : List SymbolId :=
  match p.fnDef? f with
  | none => []
  | some fnDef => (p.collect .prim fnDef).filterMap (addressed? p)

/-- Is evaluating an expression without effects for certain? Any call might have one. -/
def isPure (p : Program) (root : NodeId) : Bool :=
  (p.preorder root).all fun id =>
    match p.kind id with
    | .call .. => false
    | .prim op _ => !op.hasSideEffects
    | _ => true

end MiddleEnd.Store
