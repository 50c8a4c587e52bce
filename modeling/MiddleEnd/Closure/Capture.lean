import MiddleEnd.Arena.Walk
import MiddleEnd.Calls.Graph
import MiddleEnd.Flow.Ascending
import MiddleEnd.Flow.Fixpoint

namespace MiddleEnd.Closure

/-! What a function captures: the variables and formals of the functions around it that it needs
when it runs, because it refers to them itself or calls a function that captures them. -/

/-- The order of captures: by the places of the symbols. -/
def captureRank (sym : SymbolId) : Int := sym.index

/-- The symbols that `f` refers to itself, functions inside it apart. -/
def ownRefs (p : Program) (f : SymbolId) : List SymbolId :=
  match p.fnDef? f with
  | none => []
  | some fnDef => (p.collectOwn .symRef fnDef).filterMap fun id => (p.kind id).symRef?

/-- The outer variables that `f` refers to itself, functions inside it apart. -/
def directCaptures (p : Program) (f : SymbolId) : List SymbolId :=
  Flow.Ascending.ofList captureRank ((ownRefs p f).filter (p.isOuterVar · f))

/-- Captures flow from callees to callers, as far as they are outer variables of the caller. -/
def captureProblem (p : Program) (g : Calls.CallGraph) : Flow.Problem (List SymbolId) where
  succ := g.successors
  bottom := []
  join := Flow.Ascending.union captureRank
  transfer node fromCallees :=
    match g.functions[node]? with
    | some f =>
      Flow.Ascending.union captureRank (directCaptures p f)
        (fromCallees.filter (p.isOuterVar · f))
    | none => []
  height := p.symbols.size

/-- The captures of every function. -/
structure Captures where
  /-- The functions that capture something, with what they capture, ascending. -/
  sets : List (SymbolId × List SymbolId)
  /-- Sweeps that it took to find them. -/
  sweeps : Nat
  deriving DecidableEq, Repr

namespace Captures

def compute (p : Program) (g : Calls.CallGraph) : Captures :=
  let solution := (captureProblem p g).solve
  { sets := (g.functions.zip solution.ins.toList).filter fun (_, caps) => !caps.isEmpty
    sweeps := solution.sweeps }

/-- What a function captures, in the order in which its new formals will stand. -/
def of (c : Captures) (f : SymbolId) : List SymbolId := (c.sets.lookup f).getD []

/-- The functions that capture something, ascending. -/
def capturing (c : Captures) : List SymbolId :=
  Flow.Ascending.ofList captureRank (c.sets.map Prod.fst)

/-- How many pairs there are of a function and a variable that it captures. -/
def total (c : Captures) : Nat := c.sets.foldr (·.2.length + ·) 0

end Captures

end MiddleEnd.Closure
