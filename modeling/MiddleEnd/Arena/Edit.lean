import MiddleEnd.Arena.Ancestry
import MiddleEnd.Arena.Walk

namespace MiddleEnd

/-- Why an edit of the program is refused. Each of these is a mistake of the pass that asked. -/
inductive EditError where
  | noSuchNode (node : NodeId)
  | noSuchSymbol (sym : SymbolId)
  | deadNode (node : NodeId)
  | alreadyAttached (node parent : NodeId)
  | moduleRoot (node : NodeId)
  | detached (node : NodeId)
  | cycle (node parent : NodeId)
  | noChildList (parent : NodeId)
  | requiredChild (node parent : NodeId)
  | notAFunction (sym : SymbolId)
  | wrongKind (node : NodeId) (expected : String)
  deriving DecidableEq, Repr

def EditError.message : EditError → String
  | noSuchNode node => s!"there is no node {node.text}"
  | noSuchSymbol sym => s!"there is no symbol {sym.text}"
  | deadNode node => s!"node {node.text} has been destroyed"
  | alreadyAttached node parent => s!"node {node.text} is already attached under {parent.text}"
  | moduleRoot node => s!"node {node.text} is a module root"
  | detached node => s!"node {node.text} has no parent"
  | cycle node parent => s!"attaching {node.text} under {parent.text} would create a cycle"
  | noChildList parent => s!"node {parent.text} has no child list to insert into"
  | requiredChild node parent =>
    s!"node {node.text} fills a required slot of {parent.text} and cannot be detached"
  | notAFunction sym => s!"symbol {sym.text} is not a function"
  | wrongKind node expected => s!"node {node.text} is not a {expected}"

namespace Program

/-! What an edit does once it is allowed. -/

/-- Counts a structural change of a function or module. -/
def touch (p : Program) : Option SymbolId → Program
  | some scope => p.modifySymbol scope fun s => { s with epoch := s.epoch + 1 }
  | none => p

/-- Sets the scopes at and below a node, down to a depth, the last child first. -/
def rescope : Nat → NodeId → Option SymbolId → Program → Program
  | 0, _, _, p => p
  | depth + 1, id, scope, p =>
    let p := p.modifyNode id fun node => { node with scope := scope }
    let inner := p.scopeBelow id
    (p.children id).foldr (fun child p => rescope depth child inner p) p

def registerSubtree (p : Program) (root : NodeId) : Program :=
  { p with registries := (p.preorder root).foldl p.enter p.registries }

def deregisterSubtree (p : Program) (root : NodeId) : Program :=
  { p with registries := (p.preorder root).foldl p.leave p.registries }

/-- Takes a call off the list of calls of a function. -/
def dropCaller (p : Program) (call : NodeId) : Option SymbolId → Program
  | some f =>
    p.modifySymbol f
      (Symbol.mapFnData fun data => { data with calledBy := data.calledBy.filter (· != call) })
  | none => p

/-- Puts a call on the list of calls of a function. -/
def addCaller (p : Program) (call : NodeId) (f : SymbolId) : Program :=
  p.modifySymbol f
    (Symbol.mapFnData fun data =>
      { data with calledBy := Registries.insertNew data.calledBy call })

/-- Clears the live marks of a node and of the symbol that it defines. -/
def destroyNode (p : Program) (id : NodeId) : Program :=
  let kind := p.kind id
  let p := p.dropCaller id kind.callee?
  let p :=
    match kind.defines? with
    | some sym => p.modifySymbol sym fun s => { s with live := false }
    | none => p
  p.modifyNode id fun node => { node with live := false }

/-- Destroys everything at and below a detached node. -/
def destroy (p : Program) (root : NodeId) : Program := (p.preorder root).foldl destroyNode p

/-- Finishes attaching `node` below `parent`, whose slots already name it. -/
def adopt (p : Program) (parent node : NodeId) : Program :=
  let p := p.setParent node (some parent)
  let scope := p.scopeBelow parent
  let p := rescope (p.nodes.size + 1) node scope p
  let p := if p.isAttached parent then p.registerSubtree node else p
  p.touch scope

/-! What an edit must find. -/

def checkLive (p : Program) (id : NodeId) : Except EditError Unit :=
  if !p.hasNode id then throw (.noSuchNode id)
  else if (p.node id).live then pure ()
  else throw (.deadNode id)

/-- The owner of a live node that has one. -/
def liveParent (p : Program) (id : NodeId) : Except EditError NodeId := do
  p.checkLive id
  match (p.node id).parent with
  | some parent => pure parent
  | none => throw (if p.isRoot id then .moduleRoot id else .detached id)

def checkAttachable (p : Program) (parent node : NodeId) : Except EditError Unit := do
  p.checkLive parent
  p.checkLive node
  if p.isRoot node then throw (.moduleRoot node)
  if let some current := (p.node node).parent then throw (.alreadyAttached node current)
  if p.isAncestor node parent then throw (.cycle node parent)

/-! The edits. Each keeps parents, scopes, registries, call lists and epochs in step, and each
leaves the program alone when it is refused. -/

/-- Adds a node at the end of the child list of `owner`. -/
def append (p : Program) (owner node : NodeId) : Except EditError Program := do
  p.checkAttachable owner node
  match (p.kind owner).childList? with
  | some children =>
    let p := p.setKind owner ((p.kind owner).withChildList (children ++ [node]))
    pure (p.adopt owner node)
  | none => throw (.noChildList owner)

/-- Adds a node to the child list that holds `anchor`, so many places after it. -/
def insertNear (p : Program) (anchor node : NodeId) (offset : Nat) : Except EditError Program := do
  let parent ← p.liveParent anchor
  p.checkAttachable parent node
  match (p.kind parent).childList? with
  | some children =>
    if children.contains anchor then
      let place := children.idxOf anchor + offset
      let children := children.take place ++ node :: children.drop place
      let p := p.setKind parent ((p.kind parent).withChildList children)
      pure (p.adopt parent node)
    else throw (.noChildList parent)
  | none => throw (.noChildList parent)

def insertBefore (p : Program) (anchor node : NodeId) : Except EditError Program :=
  p.insertNear anchor node 0

def insertAfter (p : Program) (anchor node : NodeId) : Except EditError Program :=
  p.insertNear anchor node 1

/-- Puts `new` in the slot of `old` and destroys `old`. -/
def replace (p : Program) (old new : NodeId) : Except EditError Program := do
  let parent ← p.liveParent old
  p.checkAttachable parent new
  let wasAttached := p.isAttached old
  let p := p.setKind parent ((p.kind parent).replaceChild old new)
  let p := p.setParent old none
  let p := if wasAttached then p.deregisterSubtree old else p
  let p := p.destroy old
  pure (p.adopt parent new)

/-- Takes a subtree from its owner without destroying it. -/
def detach (p : Program) (node : NodeId) : Except EditError Program := do
  let parent ← p.liveParent node
  let wasAttached := p.isAttached node
  match (p.kind parent).withoutChild? node with
  | some kind =>
    let p := p.setKind parent kind
    let p := p.setParent node none
    let p := if wasAttached then p.deregisterSubtree node else p
    pure (p.touch (p.scopeBelow parent))
  | none => throw (.requiredChild node parent)

/-- Takes a subtree from its owner and destroys it with the symbols that it defines. -/
def remove (p : Program) (node : NodeId) : Except EditError Program := do
  let p ← p.detach node
  pure (p.destroy node)

/-- Makes a reference name another symbol. -/
def setRef (p : Program) (node : NodeId) (sym : SymbolId) : Except EditError Program := do
  p.checkLive node
  match p.kind node with
  | .symRef _ => pure ((p.setKind node (.symRef sym)).touch (p.node node).scope)
  | _ => throw (.wrongKind node "symbol reference")

/-- Resolves a call, or takes its resolution back, and keeps the call lists in step. -/
def setCallee (p : Program) (call : NodeId) (target : Option SymbolId) : Except EditError Program := do
  p.checkLive call
  if let some f := target then
    if !p.hasSymbol f then throw (.noSuchSymbol f)
    if !p.isFn f then throw (.notAFunction f)
  match p.kind call with
  | .call previous name args =>
    let p := p.setKind call (.call target name args)
    let p := p.dropCaller call previous
    pure (match target with | some f => p.addCaller call f | none => p)
  | _ => throw (.wrongKind call "call")

def rebuildRegistries (p : Program) : Program := { p with registries := p.computeRegistries }

end Program

end MiddleEnd
