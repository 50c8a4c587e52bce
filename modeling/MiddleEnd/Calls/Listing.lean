import MiddleEnd.Arena.Listing
import MiddleEnd.Calls.Graph
import MiddleEnd.Calls.Sites

namespace MiddleEnd.Listing

/-- A function of the call graph. A symbol that was a function when it was registered and is none
any more has no call list. -/
def functionListing (p : Program) (g : Calls.CallGraph) (f : SymbolId) : Json :=
  .obj
    [("sym", sym f), ("name", .str (p.name f)), ("index", .ofOption .nat (g.indexOf? f)),
      ("callees", syms (g.callees f)), ("callers", syms (g.callers f)),
      ("called_by", .ofOption (fun data => nodes data.calledBy) (p.symbol f).fnData?)]

/-- The call graph of a program, its calls, and where call lists and calls disagree. -/
def callgraphFields (p : Program) : Fields :=
  let g := Calls.CallGraph.build p
  let calls := p.registries.calls.map fun call =>
    Json.arr [node call, symOpt (p.enclosingFn? call), symOpt (p.callee? call)]
  [ ("len", .nat g.functions.length), ("is_empty", .bool g.functions.isEmpty),
    ("functions", .arr (g.functions.map (functionListing p g))),
    ("successors", .arr (g.successors.map nats)), ("calls", .arr calls),
    ("broken", .arr ((Calls.brokenSites p).map fun (f, call) => .arr [sym f, node call])) ]

end MiddleEnd.Listing
