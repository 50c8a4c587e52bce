import MiddleEnd.Arena.Ancestry
import MiddleEnd.Arena.Walk

namespace MiddleEnd

/-- A broken back-reference: a mistake of the pass that ran last, never of the user's program. -/
inductive Violation where
  | sharedNode (node : NodeId)
  | deadNodeReachable (node parent : NodeId)
  | parentMismatch (node owner : NodeId) (recorded : Option NodeId)
  | scopeMismatch (node : NodeId) (recorded expected : Option SymbolId)
  | declarationMismatch (node : NodeId) (sym : SymbolId) (recorded : Option NodeId)
  | danglingSymbol (node : NodeId) (sym : SymbolId)
  | calleeNotFunction (node : NodeId) (sym : SymbolId)
  | malformedLoop (node : NodeId)
  | malformedRoot (node : NodeId)
  | registryMismatch
  | staleCallSite (sym : SymbolId) (call : NodeId)
  deriving DecidableEq, Repr

def Violation.message : Violation → String
  | sharedNode node => s!"node {node.text} is reachable more than once (shared child or cycle)"
  | deadNodeReachable node parent =>
    s!"destroyed node {node.text} is still reachable from {parent.text}"
  | parentMismatch node owner recorded =>
    s!"node {node.text} is owned by {owner.text} but records parent {NodeId.optionText recorded}"
  | scopeMismatch node recorded expected =>
    s!"node {node.text} records parent symbol {SymbolId.optionText recorded}, expected " ++
      SymbolId.optionText expected
  | declarationMismatch node sym recorded =>
    s!"definition {node.text} binds {sym.text}, whose declaration points at " ++
      NodeId.optionText recorded
  | danglingSymbol node sym => s!"node {node.text} refers to destroyed symbol {sym.text}"
  | calleeNotFunction node sym =>
    s!"call {node.text} targets {sym.text}, which is not a function"
  | malformedLoop node => s!"while loop {node.text} does not test a symbol reference"
  | malformedRoot node => s!"module root {node.text} is not a block owned by its module"
  | registryMismatch => "registries disagree with the nodes reachable from the roots"
  | staleCallSite sym call =>
    s!"function {sym.text} lists call site {call.text}, which does not call it"

namespace Program

/-- What is wrong with a node itself. -/
def nodeViolations (p : Program) (id : NodeId) : List Violation :=
  match p.kind id with
  | .symRef sym => if (p.symbol sym).live then [] else [.danglingSymbol id sym]
  | .call (some sym) _ _ =>
    if !(p.symbol sym).live then [.danglingSymbol id sym]
    else if p.isFn sym then []
    else [.calleeNotFunction id sym]
  | .loop test _ _ => if (p.kind test).symRef?.isSome then [] else [.malformedLoop id]
  | .define sym _ | .fnDef sym _ _ =>
    let symbol := p.symbol sym
    if !symbol.live then [.danglingSymbol id sym]
    else if symbol.decl = some id then []
    else [.declarationMismatch id sym symbol.decl]
  | _ => []

/-- What is wrong with the links between a node and one of its children. -/
def linkViolations (p : Program) (owner child : NodeId) : List Violation :=
  let node := p.node child
  if node.live then
    (if node.parent = some owner then [] else [.parentMismatch child owner node.parent]) ++
      (if node.scope = p.scopeBelow owner then []
        else [.scopeMismatch child node.scope (p.scopeBelow owner)])
  else [.deadNodeReachable child owner]

/-- What a survey of the tree has met so far. -/
structure Survey where
  reached : List NodeId := []
  violations : List Violation := []

/-- Visits the nodes of a stack and all live nodes below them, the last child first, and notes
what is wrong; a node that was met before is not opened again. -/
def survey (p : Program) : Nat → List NodeId → Survey → Survey
  | 0, _, s => s
  | _ + 1, [], s => s
  | fuel + 1, id :: rest, s =>
    if s.reached.contains id then
      p.survey fuel rest { s with violations := s.violations ++ [.sharedNode id] }
    else
      let children := p.children id
      let found := p.nodeViolations id ++ children.flatMap (p.linkViolations id)
      let below := (children.filter fun child => (p.node child).live).reverse
      p.survey fuel (below ++ rest)
        { reached := id :: s.reached, violations := s.violations ++ found }

/-- The number of child slots of the whole arena. Every node is opened once at most, so a survey of
one root takes at most one step more. -/
def slotCount (p : Program) : Nat :=
  p.nodes.toList.foldr (fun node slots => node.kind.children.length + slots) 0

def rootViolations (p : Program) (sym : SymbolId) (root : NodeId) : List Violation :=
  let node := p.node root
  if node.parent.isNone && node.scope == some sym && node.kind.isBlock then []
  else [.malformedRoot root]

/-- Surveys the tree of one module. -/
def surveyModule (p : Program) (s : Survey) (sym : SymbolId) : Survey :=
  match p.moduleBlock? sym with
  | none => s
  | some root =>
    p.survey (p.slotCount + 1) [root]
      { s with violations := s.violations ++ p.rootViolations sym root }

/-- The entries of a function's call list that can not be reached or do not call it. -/
def staleCallSites (p : Program) (reached : List NodeId) (f : SymbolId) : List Violation :=
  match (p.symbol f).fnData? with
  | none => []
  | some data =>
    (data.calledBy.filter fun call => !(reached.contains call && p.callee? call == some f)).map
      (.staleCallSite f)

/-- Everything that is wrong with the structure of a program; nothing means that it is sound. -/
def verify (p : Program) : List Violation :=
  let s := p.modules.foldl p.surveyModule {}
  let registries :=
    if p.computeRegistries.sameEntries p.registries then [] else [.registryMismatch]
  s.violations ++ registries ++ p.registries.fns.flatMap (p.staleCallSites s.reached)

end Program

end MiddleEnd
