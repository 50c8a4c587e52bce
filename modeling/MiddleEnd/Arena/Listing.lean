import MiddleEnd.Arena.Dump
import MiddleEnd.Arena.Verify
import MiddleEnd.Json.Value

namespace MiddleEnd.Listing

/-! Programs listed as JSON values, node by node and symbol by symbol. Ids are listed as numbers. -/

abbrev Fields := List (String × Json)

def strs (xs : List String) : Json := .arr (xs.map .str)

def nats (xs : List Nat) : Json := .arr (xs.map .nat)

def node (id : NodeId) : Json := .nat id.index

def sym (id : SymbolId) : Json := .nat id.index

def nodes (ids : List NodeId) : Json := .arr (ids.map node)

def syms (ids : List SymbolId) : Json := .arr (ids.map sym)

def nodeOpt : Option NodeId → Json := .ofOption node

def symOpt : Option SymbolId → Json := .ofOption sym

/-- The two ends of a span. -/
def pair (s : Span) : Json := nats [s.start, s.stop]

/-- The parts of a node, by its construct. -/
def kindFields : NodeKind → Fields
  | .symRef s => [("sym", sym s)]
  | .call callee name args =>
    [("callee", symOpt callee), ("name", .str name), ("args", nodes args)]
  | .namedArg name value => [("name", .str name), ("value", node value)]
  | .literal value => [("text", .str value.text)]
  | .prim op args => [("op", .str op.word), ("args", nodes args)]
  | .block stmts => [("stmts", nodes stmts)]
  | .assign target value => [("target", node target), ("value", node value)]
  | .cond test thenBlock elseBlock =>
    [("cond", node test), ("then", node thenBlock), ("else", nodeOpt elseBlock)]
  | .loop test body first =>
    [("cond", node test), ("body", node body), ("test_first", .bool first)]
  | .forLoop index iterable body =>
    [("index", node index), ("iterable", node iterable), ("body", node body)]
  | .ret value => [("value", nodeOpt value)]
  | .brk | .cont => []
  | .label name | .goto name => [("name", .str name)]
  | .define s value => [("sym", sym s), ("value", nodeOpt value)]
  | .fnDef s formals body => [("sym", sym s), ("formals", nodes formals), ("body", node body)]

/-- The construct of a node and its parts. -/
def kindEntries (kind : NodeKind) : Fields := ("tag", .str kind.tag.word) :: kindFields kind

def nodeListing (p : Program) (id : NodeId) : Json :=
  let n := p.node id
  .obj ([("id", node id), ("parent", nodeOpt n.parent), ("scope", symOpt n.scope),
    ("span", pair n.span)] ++ kindEntries n.kind)

/-- What is listed of a symbol only for its kind. -/
def symbolFields : SymbolKind → Fields
  | .var | .type => []
  | .arg intent => [("intent", .str intent.text)]
  | .fn data =>
    [("ret_tag", .str data.retTag.text), ("ret_var", symOpt data.retVar),
      ("called_by", nodes data.calledBy)]
  | .moduleRoot block => [("block", node block)]

def symbolListing (p : Program) (id : SymbolId) : Json :=
  let s := p.symbol id
  .obj ([("id", sym id), ("name", .str s.name), ("kind", .str s.kind.word), ("ty", .str s.ty.text),
    ("def", nodeOpt s.decl), ("flags", .str s.flags.text)] ++ symbolFields s.kind)

/-- What an edit of the program can change besides the tree: registries, epochs of functions and
modules, and what is broken. -/
def stateFields (p : Program) : Fields :=
  let r := p.registries
  [ ("registries", .obj
      [("calls", nodes r.calls), ("fns", syms r.fns), ("vars", syms r.vars), ("args", syms r.args),
        ("types", syms r.types), ("modules", syms r.modules)]),
    ("epochs", .arr ((r.fns ++ r.modules).map fun s => nats [s.index, p.epoch s])),
    ("violations", strs (p.verify.map Violation.message)) ]

def state (p : Program) : Json := .obj (stateFields p)

/-- Everything about a program: its state, its text, and its live nodes and symbols. -/
def snapshot (p : Program) : Json :=
  let liveNodes := p.nodeIds.filter fun id => (p.node id).live
  let liveSymbols := p.symbolIds.filter fun id => (p.symbol id).live
  .obj (stateFields p ++
    [("dump", .str p.dump), ("nodes", .arr (liveNodes.map (nodeListing p))),
      ("symbols", .arr (liveSymbols.map (symbolListing p)))])

end MiddleEnd.Listing
