import MiddleEnd.Arena.Program

namespace MiddleEnd

/-- A traversal in pre-order that can be stopped, resumed and repeated: the nodes still to be
opened, and which of the opened ones it yields. -/
structure Walk where
  root : NodeId
  stack : List NodeId
  /-- Only nodes of this construct are yielded; none means all. -/
  tag : Option NodeTag := none
  /-- Definitions of functions below the root are yielded and not opened. -/
  skipNested : Bool := false
  deriving DecidableEq, Repr

namespace Walk

def start (root : NodeId) : Walk := { root := root, stack := [root] }

def only (w : Walk) (tag : NodeTag) : Walk := { w with tag := some tag }

def skippingNested (w : Walk) : Walk := { w with skipNested := true }

/-- Opens the next node: its children come before all that was left. A destroyed node is dropped
together with what is below it. The result says what the walk yields at this step, if anything. -/
def step? (p : Program) (w : Walk) : Option (Option NodeId × Walk) :=
  match w.stack with
  | [] => none
  | id :: rest =>
    let node := p.node id
    if node.live then
      let nested := id != w.root && node.kind.isFnDef
      let below := if w.skipNested && nested then rest else node.kind.children ++ rest
      let yielded := if w.tag.all (· == node.kind.tag) then some id else none
      some (yielded, { w with stack := below })
    else some (none, { w with stack := rest })

/-- What at most `fuel` steps yield. -/
def run (p : Program) : Nat → Walk → List NodeId
  | 0, _ => []
  | fuel + 1, w =>
    match w.step? p with
    | none => []
    | some (some id, w) => id :: run p fuel w
    | some (none, w) => run p fuel w

end Walk

namespace Program

/-- How many nodes there are at and below a node, counted down to a depth. -/
def extent (p : Program) : Nat → NodeId → Nat
  | 0, _ => 1
  | depth + 1, id => 1 + (p.children id).foldr (p.extent depth · + ·) 0

/-- As many steps as a walk can need: no path downward is longer than the arena. -/
def stepsLeft (p : Program) (w : Walk) : Nat := w.stack.foldr (p.extent (p.nodes.size + 1) · + ·) 0

end Program

/-- Everything that a walk still yields. -/
def Walk.toList (p : Program) (w : Walk) : List NodeId := w.run p (p.stepsLeft w)

namespace Program

/-- The live nodes at and below a node, each before its children and those in source order. -/
def preorder (p : Program) (root : NodeId) : List NodeId := (Walk.start root).toList p

/-- The nodes of one construct at and below a node, in pre-order. -/
def collect (p : Program) (tag : NodeTag) (root : NodeId) : List NodeId :=
  ((Walk.start root).only tag).toList p

/-- As `collect`, without what lies inside functions defined below the node. -/
def collectOwn (p : Program) (tag : NodeTag) (root : NodeId) : List NodeId :=
  ((Walk.start root).only tag).skippingNested.toList p

/-- Enters a node that can be reached, and the symbol that it defines. -/
def enter (p : Program) (r : Registries) (id : NodeId) : Registries :=
  let r := if (p.kind id).isCall then r.addCall id else r
  match (p.kind id).defines? with
  | some sym => r.addSymbol sym (p.symbol sym).kind
  | none => r

/-- Takes out a node that can no longer be reached, and the symbol that it defines. -/
def leave (p : Program) (r : Registries) (id : NodeId) : Registries :=
  let r := if (p.kind id).isCall then r.dropCall id else r
  match (p.kind id).defines? with
  | some sym => r.dropSymbol sym (p.symbol sym).kind
  | none => r

/-- Registries as a walk from the module roots builds them. -/
def computeRegistries (p : Program) : Registries :=
  let modules := p.modules.foldl (fun r m => r.addSymbol m (p.symbol m).kind) {}
  (p.roots.flatMap p.preorder).foldl p.enter modules

end Program

end MiddleEnd
