namespace MiddleEnd.Flow

/-- A backward problem over a finite graph: at every node, OUT is the join of IN over the
successors, and IN is the transfer of OUT. -/
structure Problem (α : Type) where
  /-- The successors of each node, by place. -/
  succ : List (List Nat)
  bottom : α
  join : α → α → α
  transfer : Nat → α → α
  /-- How often a value can rise on its way up from the bottom. -/
  height : Nat

/-- IN and OUT at every node. -/
structure Facts (α : Type) where
  ins : Array α
  outs : Array α
  deriving DecidableEq, Repr

structure Solution (α : Type) extends Facts α where
  /-- Sweeps over all nodes, the last one that changed nothing included. -/
  sweeps : Nat
  deriving DecidableEq, Repr

namespace Problem

variable {α : Type} [DecidableEq α]

def size (problem : Problem α) : Nat := problem.succ.length

/-- Do the nodes of the order exist, and their successors? -/
def inRange (problem : Problem α) (order : List Nat) : Bool :=
  order.all fun node =>
    match problem.succ[node]? with
    | some succ => succ.all (· < problem.size)
    | none => false

def start (problem : Problem α) : Facts α where
  ins := Array.replicate problem.size problem.bottom
  outs := Array.replicate problem.size problem.bottom

/-- The join of IN over the successors of a node. -/
def joined (problem : Problem α) (facts : Facts α) (node : Nat) : α :=
  (problem.succ.getD node []).foldl
    (fun acc s => problem.join acc (facts.ins.getD s problem.bottom)) problem.bottom

/-- Computes OUT and IN of a node anew. The first part says whether anything has changed by now. -/
def visit (problem : Problem α) (state : Bool × Facts α) (node : Nat) : Bool × Facts α :=
  let (changed, facts) := state
  let out := problem.joined facts node
  let outChanged := decide (out ≠ facts.outs.getD node problem.bottom)
  let value := problem.transfer node out
  let inChanged := decide (value ≠ facts.ins.getD node problem.bottom)
  (changed || outChanged || inChanged,
    { ins := facts.ins.setIfInBounds node value, outs := facts.outs.setIfInBounds node out })

/-- Visits the nodes one after the other; a later one sees what an earlier one changed. -/
def sweep (problem : Problem α) (order : List Nat) (facts : Facts α) : Bool × Facts α :=
  order.foldl problem.visit (false, facts)

/-- Sweeps until a sweep changes nothing. -/
def settle (problem : Problem α) (order : List Nat) : Nat → Nat → Facts α → Solution α
  | 0, sweeps, facts => { facts with sweeps := sweeps }
  | fuel + 1, sweeps, facts =>
    match problem.sweep order facts with
    | (true, facts) => problem.settle order fuel (sweeps + 1) facts
    | (false, facts) => { facts with sweeps := sweeps + 1 }

/-- The solution, with the nodes visited in a given order. Every sweep but the last raises one of
the values at the nodes, and each can rise no more often than the height says. -/
def solveInOrder (problem : Problem α) (order : List Nat) : Solution α :=
  problem.settle order (2 * problem.size * problem.height + 1) 0 problem.start

/-- The solution, with the last node visited first. -/
def solve (problem : Problem α) : Solution α :=
  problem.solveInOrder (List.range problem.size).reverse

end Problem

end MiddleEnd.Flow
