import MiddleEnd.Arena.Ancestry

namespace MiddleEnd.Calls

/-- Which function calls which. A call from module level comes from no function and adds nothing. -/
structure CallGraph where
  /-- All functions, in the order of the registry. -/
  functions : List SymbolId
  /-- Each caller with a callee, without repetitions, in the order of the first such call. -/
  edges : List (SymbolId × SymbolId)
  deriving DecidableEq, Repr

namespace CallGraph

/-- The caller and the callee of a resolved call between two of the functions. -/
def edge? (p : Program) (call : NodeId) : Option (SymbolId × SymbolId) := do
  let caller ← p.enclosingFn? call
  let callee ← p.callee? call
  if p.registries.fns.contains caller && p.registries.fns.contains callee then
    pure (caller, callee)
  else none

def build (p : Program) : CallGraph where
  functions := p.registries.fns
  edges := (p.registries.calls.filterMap (edge? p)).foldl Registries.insertNew []

def indexOf? (g : CallGraph) (f : SymbolId) : Option Nat := g.functions.idxOf? f

/-- The functions that `f` calls, in the order of their first calls. -/
def callees (g : CallGraph) (f : SymbolId) : List SymbolId :=
  (g.edges.filter (·.1 == f)).map Prod.snd

/-- The functions that call `f`, in the order of their first calls. -/
def callers (g : CallGraph) (f : SymbolId) : List SymbolId :=
  (g.edges.filter (·.2 == f)).map Prod.fst

/-- The callees of each function as places in `functions`. -/
def successors (g : CallGraph) : List (List Nat) :=
  g.functions.map fun f => (g.callees f).filterMap g.indexOf?

end CallGraph

end MiddleEnd.Calls
