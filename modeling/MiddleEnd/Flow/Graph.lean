import MiddleEnd.Arena.Ancestry
import MiddleEnd.Arena.Registry

namespace MiddleEnd.Flow

/-- Why a function has no flow graph, or none that may be used. -/
inductive FlowError where
  | notAFunction (f : SymbolId)
  | stale (function : String) (built current : Nat)
  | unknownLabel (function label : String)
  deriving DecidableEq, Repr

namespace FlowError

def code : FlowError → String
  | notAFunction _ => "E-FLOW-001"
  | stale .. => "E-FLOW-002"
  | unknownLabel .. => "E-FLOW-003"

def message : FlowError → String
  | notAFunction f => s!"{f.text} is not a function with a body"
  | stale function built current =>
    s!"CFG of '{function}' is stale (built at epoch {built}, now {current})"
  | unknownLabel function label => s!"goto to unknown label '{label}' in '{function}'"

end FlowError

/-- One step of straight-line code. -/
inductive Item where
  /-- A simple statement. -/
  | stmt (node : NodeId)
  /-- The condition of an `if`, at the end of its block. -/
  | branch (node : NodeId)
  /-- The condition of a loop. -/
  | loopTest (node : NodeId)
  /-- A `for` loop: evaluates what it runs over and binds the index. -/
  | forHeader (node : NodeId)
  deriving DecidableEq, Repr

namespace Item

def node : Item → NodeId
  | stmt node | branch node | loopTest node | forHeader node => node

def word : Item → String
  | stmt _ => "stmt"
  | branch _ => "branch"
  | loopTest _ => "loop_test"
  | forHeader _ => "for_header"

end Item

/-- A basic block; blocks refer to each other by place. -/
structure Block where
  items : List Item := []
  succ : List Nat := []
  pred : List Nat := []
  deriving DecidableEq, Repr, Inhabited

/-- The basic blocks of a function body, in the order in which they were begun; the first is the
entry. Empty blocks stand for joins and loop exits. -/
structure Graph where
  function : SymbolId
  /-- The function's epoch when the graph was built. -/
  epoch : Nat
  blocks : Array Block
  deriving DecidableEq, Repr

/-- A graph under construction. -/
structure Builder where
  blocks : Array Block := #[{}]
  current : Nat := 0
  /-- Where `continue` and `break` go, for each loop around the current place. -/
  loops : List (Nat × Nat) := []
  /-- The blocks of the labels, the last one first. -/
  labels : List (String × Nat) := []
  /-- The jumps, in source order. -/
  gotos : List (Nat × String) := []
  deriving DecidableEq, Repr

namespace Builder

/-- Begins a block that nothing leads to yet. -/
def newBlock (b : Builder) : Nat × Builder :=
  (b.blocks.size, { b with blocks := b.blocks.push {} })

def goTo (b : Builder) (block : Nat) : Builder := { b with current := block }

/-- An edge, which is there once at most. -/
def edge (b : Builder) (source target : Nat) : Builder :=
  if (b.blocks.getD source {}).succ.contains target then b
  else
    let blocks :=
      b.blocks.modify source fun block => { block with succ := block.succ ++ [target] }
    { b with
      blocks := blocks.modify target fun block => { block with pred := block.pred ++ [source] } }

def push (b : Builder) (item : Item) : Builder :=
  { b with
    blocks := b.blocks.modify b.current fun block => { block with items := block.items ++ [item] } }

/-- What follows a jump cannot be reached; it goes into a block of its own. -/
def afterJump (b : Builder) : Builder :=
  let (block, b) := b.newBlock
  b.goTo block

/-- Runs inside a loop. -/
def inLoop (b : Builder) (continueTo breakTo : Nat) (inner : Builder → Builder) : Builder :=
  let b := inner { b with loops := (continueTo, breakTo) :: b.loops }
  { b with loops := b.loops.tail }

/-- A loop that is left from its header. -/
def headedLoop (b : Builder) (item : Item) (inner : Builder → Builder) : Builder :=
  let (header, b) := b.newBlock
  let b := ((b.edge b.current header).goTo header).push item
  let (body, b) := b.newBlock
  let (exit, b) := b.newBlock
  let b := (b.edge header body).edge header exit
  let b := (b.goTo body).inLoop header exit fun b =>
    let b := inner b
    b.edge b.current header
  b.goTo exit

/-- A loop that is left after a turn. -/
def testedLoop (b : Builder) (item : Item) (inner : Builder → Builder) : Builder :=
  let (body, b) := b.newBlock
  let b := b.edge b.current body
  let (test, b) := b.newBlock
  let (exit, b) := b.newBlock
  let b := (b.goTo body).inLoop test exit fun b =>
    let b := inner b
    b.edge b.current test
  let b := (b.goTo test).push item
  ((b.edge test body).edge test exit).goTo exit

/-- A choice between two branches, or between one and none. -/
def choice (b : Builder) (item : Item) (thenInner : Builder → Builder)
    (elseInner : Option (Builder → Builder)) : Builder :=
  let b := b.push item
  let branch := b.current
  let (start, b) := b.newBlock
  let b := thenInner ((b.edge branch start).goTo start)
  let thenEnd := b.current
  let (elseEnd, b) :=
    match elseInner with
    | some inner =>
      let (start, b) := b.newBlock
      let b := inner ((b.edge branch start).goTo start)
      (b.current, b)
    | none => (branch, b)
  let (join, b) := b.newBlock
  ((b.edge thenEnd join).edge elseEnd join).goTo join

/-- Adds a statement, down to a depth. Functions inside have graphs of their own. -/
def stmt (p : Program) : Nat → NodeId → Builder → Builder
  | 0, _, b => b
  | depth + 1, id, b =>
    let inside (block : NodeId) (b : Builder) : Builder :=
      (p.children block).foldl (fun b child => stmt p depth child b) b
    match p.kind id with
    | .block _ => inside id b
    | .cond test thenBlock elseBlock =>
      b.choice (.branch test) (inside thenBlock) (elseBlock.map inside)
    | .loop test body true => b.headedLoop (.loopTest test) (inside body)
    | .loop test body false => b.testedLoop (.loopTest test) (inside body)
    | .forLoop _ _ body => b.headedLoop (.forHeader id) (inside body)
    | .ret _ => (b.push (.stmt id)).afterJump
    | .brk =>
      match b.loops.head? with
      | some (_, exit) => (b.edge b.current exit).afterJump
      | none => b.afterJump
    | .cont =>
      match b.loops.head? with
      | some (next, _) => (b.edge b.current next).afterJump
      | none => b.afterJump
    | .label name =>
      let (block, b) := b.newBlock
      let b := (b.edge b.current block).goTo block
      { b with labels := (name, block) :: b.labels }
    | .goto name => ({ b with gotos := b.gotos ++ [(b.current, name)] } : Builder).afterJump
    | .fnDef .. => b
    | _ => b.push (.stmt id)

/-- Adds the statements of a block. -/
def stmts (p : Program) (block : NodeId) (b : Builder) : Builder :=
  (p.children block).foldl (fun b child => stmt p (p.nodes.size + 1) child b) b

/-- Adds the edges of the jumps; the last label of a name is the one that counts. -/
def resolveGotos (b : Builder) (function : String) : Except FlowError Builder :=
  b.gotos.foldlM
    (fun b (source, name) =>
      match b.labels.lookup name with
      | some target => .ok (b.edge source target)
      | none => .error (.unknownLabel function name))
    b

end Builder

namespace Graph

/-- Cuts the body of a function into basic blocks. -/
def build (p : Program) (f : SymbolId) : Except FlowError Graph :=
  match p.fnBody? f with
  | none => .error (.notAFunction f)
  | some body =>
    ((Builder.stmts p body {}).resolveGotos (p.name f)).map fun b =>
      { function := f, epoch := p.epoch f, blocks := b.blocks }

def block (g : Graph) (id : Nat) : Block := g.blocks.getD id {}

def successors (g : Graph) : List (List Nat) := g.blocks.toList.map Block.succ

/-- Has the function changed since the graph was built? -/
def isStale (g : Graph) (p : Program) : Bool := p.epoch g.function != g.epoch

/-- Refuses a stale graph. -/
def checkFresh (g : Graph) (p : Program) : Except FlowError Unit :=
  if g.isStale p then
    .error (.stale (p.name g.function) g.epoch (p.epoch g.function))
  else .ok ()

/-- The block that holds an item with this node, and the place of the item in it. -/
def locate? (g : Graph) (node : NodeId) : Option (Nat × Nat) :=
  (List.range g.blocks.size).findSome? fun id =>
    ((g.block id).items.findIdx? fun item => item.node == node).map fun place => (id, place)

def blockText (id : Nat) (b : Block) : String :=
  let targets := ", ".intercalate (b.succ.map fun target => s!"bb{target}")
  s!"bb{id}: {b.items.length} items -> [{targets}]\n"

/-- The blocks and where they lead, a line each. -/
def text (g : Graph) : String :=
  String.join ((List.range g.blocks.size).map fun id => blockText id (g.block id))

end Graph

end MiddleEnd.Flow
