import MiddleEnd.Arena.Walk
import MiddleEnd.Flow.BitSet
import MiddleEnd.Flow.Fixpoint
import MiddleEnd.Flow.Graph

namespace MiddleEnd.Flow

/-- A read or write of a symbol. -/
inductive Access where
  | read (sym : SymbolId)
  | write (sym : SymbolId)
  deriving DecidableEq, Repr

/-- The reads of an expression, from left to right. -/
def reads (p : Program) (root : NodeId) : List Access :=
  (p.collectOwn .symRef root).filterMap fun id => (p.kind id).symRef?.map .read

/-- The reads and writes of an item, in the order in which they happen. -/
def accesses (p : Program) : Item → List Access
  | .stmt id =>
    match p.kind id with
    | .assign target value =>
      reads p value ++
        match p.kind target with
        | .symRef sym => [.write sym]
        -- A store through a reference reads the reference.
        | _ => reads p target
    | .define sym (some value) => reads p value ++ [.write sym]
    | .define _ none => []
    | _ => reads p id
  | .branch test | .loopTest test => reads p test
  | .forHeader id =>
    match p.kind id with
    | .forLoop index iterable _ =>
      reads p iterable ++ ((p.kind index).defines?.map .write).toList
    | _ => []

/-- The variables that the body of `f` declares, those of nested functions apart. Formals are not
among them. -/
def localsOf (p : Program) (f : SymbolId) : List SymbolId :=
  match p.fnBody? f with
  | none => []
  | some body =>
    ((p.collectOwn .define body).filterMap fun id => (p.kind id).defines?).filter fun sym =>
      (p.symbol sym).isVar

/-- The bit of a local. Of a local that is declared twice, the last place counts. -/
def bitOf? (locals : Array SymbolId) (sym : SymbolId) : Option (Fin locals.size) :=
  (List.finRange locals.size).reverse.find? fun i => locals[i] == sym

section

variable (locals : Array SymbolId)

/-- A change of live locals by an access, seen from after it: a write ends the life of the value
before it, a read needs it. -/
def before (access : Access) (live : BitSet locals.size) : BitSet locals.size :=
  match access with
  | .write sym =>
    match bitOf? locals sym with
    | some bit => (live.erase bit).2
    | none => live
  | .read sym =>
    match bitOf? locals sym with
    | some bit => (live.insert bit).2
    | none => live

/-- What a block reads before it writes it, what it writes before it reads it, and all that it
touches. -/
structure Summary where
  uses : BitSet locals.size
  defs : BitSet locals.size
  seen : BitSet locals.size

/-- Adds an access to a summary; only the first access to a local counts. -/
def Summary.add (s : Summary locals) (access : Access) : Summary locals :=
  let note (sym : SymbolId) (first : Fin locals.size → Summary locals → Summary locals) :=
    match bitOf? locals sym with
    | none => s
    | some bit =>
      let (fresh, seen) := s.seen.insert bit
      if fresh then first bit { s with seen := seen } else s
  match access with
  | .read sym => note sym fun bit s => { s with uses := (s.uses.insert bit).2 }
  | .write sym => note sym fun bit s => { s with defs := (s.defs.insert bit).2 }

def summarize (sequence : List Access) : Summary locals :=
  sequence.foldl (Summary.add locals) ⟨.empty _, .empty _, .empty _⟩

end

/-- The gen and kill problem over bit sets: IN is what is used and what of OUT is not defined. -/
def genKill {width : Nat} (succ : List (List Nat)) (uses defs : List (BitSet width)) :
    Problem (BitSet width) where
  succ := succ
  bottom := .empty width
  join := .union
  transfer node out :=
    (out.subtract (defs.getD node (.empty width))).union (uses.getD node (.empty width))
  height := width

/-- The locals of a function that are live at the ends of its blocks. -/
structure Liveness where
  function : SymbolId
  locals : Array SymbolId
  liveIn : Array (BitSet locals.size)
  liveOut : Array (BitSet locals.size)

namespace Liveness

/-- Live variables of a function, from a graph that is not stale. -/
def analyze (p : Program) (g : Graph) : Except FlowError Liveness := do
  g.checkFresh p
  let locals := (localsOf p g.function).toArray
  let summaries :=
    g.blocks.toList.map fun block => summarize locals (block.items.flatMap (accesses p))
  let solution :=
    (genKill g.successors (summaries.map (·.uses)) (summaries.map (·.defs))).solve
  pure
    { function := g.function, locals := locals
      liveIn := solution.ins, liveOut := solution.outs }

def inOf (l : Liveness) (block : Nat) : BitSet l.locals.size := l.liveIn.getD block (.empty _)

def outOf (l : Liveness) (block : Nat) : BitSet l.locals.size := l.liveOut.getD block (.empty _)

def bit? (l : Liveness) (sym : SymbolId) : Option (Fin l.locals.size) := bitOf? l.locals sym

def isLiveIn (l : Liveness) (block : Nat) (sym : SymbolId) : Bool :=
  (l.bit? sym).any fun bit => (l.inOf block).contains bit

def isLiveOut (l : Liveness) (block : Nat) (sym : SymbolId) : Bool :=
  (l.bit? sym).any fun bit => (l.outOf block).contains bit

/-- What is live before an item, from what is live after it. -/
def beforeItem (l : Liveness) (p : Program) (item : Item) (live : BitSet l.locals.size) :
    BitSet l.locals.size :=
  (accesses p item).foldr (before l.locals) live

/-- What is live after each of the items, and before the first, from what is live at the end. -/
def afterEach (l : Liveness) (p : Program) (out : BitSet l.locals.size) :
    List Item → List (BitSet l.locals.size) × BitSet l.locals.size
  | [] => ([], out)
  | item :: rest =>
    let (sets, live) := l.afterEach p out rest
    (live :: sets, l.beforeItem p item live)

/-- The locals that are live right after each item of a block. -/
def liveAfter (l : Liveness) (p : Program) (g : Graph) (block : Nat) :
    Except FlowError (List (BitSet l.locals.size)) := do
  g.checkFresh p
  pure (l.afterEach p (l.outOf block) (g.block block).items).1

/-- The names of the members of a set. -/
def names (l : Liveness) (p : Program) (set : BitSet l.locals.size) : List String :=
  set.toList.filterMap fun i => l.locals[i]?.map p.name

end Liveness

end MiddleEnd.Flow
