import MiddleEnd.Flow.Liveness
import MiddleEnd.Store.Usage
import MiddleEnd.Transform

namespace MiddleEnd.Store

/-! Dead stores: assignments of a pure value to a local that is not live afterwards, whose address
is never taken, that no nested function captures, and that does not hold the return value. -/

open TransformM

/-- May stores to the variable be judged by liveness alone? -/
def removable (p : Program) (escaped : List SymbolId) (var : SymbolId) : Bool :=
  !escaped.contains var && !p.hasFlag var .captured && !p.hasFlag var .returnValue

/-- The statement, if it is a dead store, from what is live after it. -/
def deadStore? (p : Program) (l : Flow.Liveness) (escaped : List SymbolId) (item : Flow.Item)
    (live : Flow.BitSet l.locals.size) : Option NodeId := do
  let .stmt stmt := item | none
  let .assign target value := p.kind stmt | none
  let var ← (p.kind target).symRef?
  let bit ← l.bit? var
  if live.contains bit || !removable p escaped var || !isPure p value then none else some stmt

/-- The dead stores of one block. -/
def deadStoresIn (p : Program) (g : Flow.Graph) (l : Flow.Liveness) (escaped : List SymbolId)
    (block : Nat) : Except Flow.FlowError (List NodeId) := do
  let live ← l.liveAfter p g block
  pure (((g.block block).items.zip live).filterMap fun (item, live) => deadStore? p l escaped item live)

/-- The stores of a function that no later read can observe. -/
def deadStores (p : Program) (f : SymbolId) : Except Flow.FlowError (List NodeId) := do
  let g ← Flow.Graph.build p f
  let l ← Flow.Liveness.analyze p g
  let stores ← (List.range g.blocks.size).mapM (deadStoresIn p g l (addressTaken p f))
  pure stores.flatten

/-- The number of stores removed and of rounds made. -/
structure Tally where
  removed : Nat := 0
  rounds : Nat := 0
  deriving DecidableEq, Repr, Inhabited

/-- Removes the dead stores of a function until there are none: to remove one can make another
one dead. -/
def sweepFunction (f : SymbolId) : Nat → Tally → TransformM Tally
  | 0, tally => pure tally
  | fuel + 1, tally => do
    let tally := { tally with rounds := tally.rounds + 1 }
    match deadStores (← get) f with
    | .error error => throw (.flow error)
    | .ok [] => pure tally
    | .ok dead => do
      dead.forM fun store => edit (·.remove store)
      sweepFunction f fuel { tally with removed := tally.removed + dead.length }

/-- The functions whose stores are looked at. -/
def sweptFunctions (p : Program) : List SymbolId :=
  p.registries.fns.filter fun f => !p.hasFlag f .external && (p.fnBody? f).isSome

/-- Removes the dead stores of every function. Each round but the last removes a node. -/
def eliminateDeadStores : TransformM TransformResult := do
  let p ← get
  let tally ← (sweptFunctions p).foldlM (fun tally f => sweepFunction f (p.nodes.size + 1) tally) {}
  pure
    { modified := decide (0 < tally.removed)
      stats := [("removed", tally.removed), ("rounds", tally.rounds)] }

end MiddleEnd.Store
