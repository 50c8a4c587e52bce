import MiddleEnd.Arena.Registry
import MiddleEnd.Node

namespace MiddleEnd

/-- One compilation's nodes, symbols and registries. The two arenas only grow; a destroyed entry
stays in its place with its live mark cleared, so that an id never changes its meaning. -/
structure Program where
  nodes : Array Node := #[]
  symbols : Array Symbol := #[]
  modules : List SymbolId := []
  registries : Registries := {}
  deriving DecidableEq, Repr, Inhabited

namespace Program

def empty : Program := {}

def hasNode (p : Program) (id : NodeId) : Bool := id.index < p.nodes.size

def hasSymbol (p : Program) (id : SymbolId) : Bool := id.index < p.symbols.size

/-- The node at a place; a place that no node takes holds a destroyed one. -/
def node (p : Program) (id : NodeId) : Node := p.nodes.getD id.index .absent

/-- The symbol at a place; a place that no symbol takes holds a destroyed one. -/
def symbol (p : Program) (id : SymbolId) : Symbol := p.symbols.getD id.index .absent

def kind (p : Program) (id : NodeId) : NodeKind := (p.node id).kind

def children (p : Program) (id : NodeId) : List NodeId := (p.kind id).children

def span (p : Program) (id : NodeId) : Span := (p.node id).span

def modifyNode (p : Program) (id : NodeId) (f : Node → Node) : Program :=
  { p with nodes := p.nodes.modify id.index f }

def modifySymbol (p : Program) (id : SymbolId) (f : Symbol → Symbol) : Program :=
  { p with symbols := p.symbols.modify id.index f }

def setKind (p : Program) (id : NodeId) (kind : NodeKind) : Program :=
  p.modifyNode id fun node => { node with kind := kind }

def setParent (p : Program) (id : NodeId) (parent : Option NodeId) : Program :=
  p.modifyNode id fun node => { node with parent := parent }

/-- The ids of all nodes, destroyed ones included. -/
def nodeIds (p : Program) : List NodeId := (List.range p.nodes.size).map NodeId.mk

/-- The ids of all symbols, destroyed ones included. -/
def symbolIds (p : Program) : List SymbolId := (List.range p.symbols.size).map SymbolId.mk

def moduleBlock? (p : Program) (sym : SymbolId) : Option NodeId := (p.symbol sym).moduleBlock?

/-- The top-level blocks of all modules. -/
def roots (p : Program) : List NodeId := p.modules.filterMap p.moduleBlock?

/-! New entries. A node comes into being detached; its symbol becomes reachable once the node is
attached below a module root. -/

def addSymbol (p : Program) (sym : Symbol) : SymbolId × Program :=
  (⟨p.symbols.size⟩, { p with symbols := p.symbols.push sym })

/-- Do the children of a new node and the symbol that it defines exist? The node has taken its
place before it adopts its children, so its own id counts as there. -/
def admits (p : Program) (kind : NodeKind) : Bool :=
  kind.children.all (·.index ≤ p.nodes.size) && kind.defines?.all p.hasSymbol

/-- Adds a detached node. It adopts the children that its kind names and becomes the declaration
of the symbol that it defines. -/
def addNode (p : Program) (kind : NodeKind) (span : Span) : NodeId × Program :=
  let id : NodeId := ⟨p.nodes.size⟩
  let p := { p with nodes := p.nodes.push { kind := kind, span := span } }
  let p := kind.children.foldl (fun p child => p.setParent child (some id)) p
  let p :=
    match kind.defines? with
    | some sym => p.modifySymbol sym fun s => { s with decl := some id }
    | none => p
  (id, p)

/-- Adds a module with an empty top level. -/
def addModule (p : Program) (name : String) (span : Span) : SymbolId × Program :=
  let block : NodeId := ⟨p.nodes.size⟩
  let (sym, p) := p.addSymbol { name := name, kind := .moduleRoot block, ty := .void }
  let root : Node := { kind := .block [], span := span, scope := some sym }
  (sym,
    { p with
      nodes := p.nodes.push root
      modules := p.modules ++ [sym]
      registries := p.registries.addSymbol sym (.moduleRoot block) })

def attachFlag (p : Program) (sym : SymbolId) (flag : Flag) : Program :=
  p.modifySymbol sym fun s => { s with flags := s.flags.insert flag }

def removeFlag (p : Program) (sym : SymbolId) (flag : Flag) : Program :=
  p.modifySymbol sym fun s => { s with flags := s.flags.erase flag }

def hasFlag (p : Program) (sym : SymbolId) (flag : Flag) : Bool := (p.symbol sym).hasFlag flag

def attachFlags (p : Program) (sym : SymbolId) (flags : List Flag) : Program :=
  flags.foldl (fun p flag => p.attachFlag sym flag) p

/-- Adds a variable of the compiler's own, named for its place. -/
def addTemp (p : Program) (ty : Ty) : SymbolId × Program :=
  p.addSymbol
    { name := s!"_t{p.symbols.size}", kind := .var, ty := ty, flags := FlagSet.empty.insert .temp }

def addRef (p : Program) (sym : SymbolId) (span : Span) : NodeId × Program :=
  p.addNode (.symRef sym) span

def addDefinition (p : Program) (sym : SymbolId) (value : Option NodeId) (span : Span) :
    NodeId × Program :=
  p.addNode (.define sym value) span

end Program

end MiddleEnd
