import MiddleEnd.Arena.Listing
import MiddleEnd.Flow.Liveness

namespace MiddleEnd.Listing

def blockListing (b : Flow.Block) : Json :=
  .obj
    [("items", .arr (b.items.map fun item => .arr [.str item.word, node item.node])),
      ("succ", nats b.succ), ("pred", nats b.pred)]

def graphListing (g : Flow.Graph) : Json :=
  .obj
    [("epoch", .nat g.epoch), ("entry", .nat 0), ("is_empty", .bool g.blocks.isEmpty),
      ("text", .str g.text), ("blocks", .arr (g.blocks.toList.map blockListing))]

/-- What is live at the ends of blocks, as sets and by name. -/
def livenessFields (p : Program) (l : Flow.Liveness) : Fields :=
  let ins := l.liveIn.toList
  let outs := l.liveOut.toList
  [ ("locals", syms l.locals.toList), ("live_in", strs (ins.map Flow.BitSet.text)),
    ("live_out", strs (outs.map Flow.BitSet.text)),
    ("live_in_names", .arr (ins.map fun set => strs (l.names p set))),
    ("live_out_names", .arr (outs.map fun set => strs (l.names p set))) ]

def accessListing : Flow.Access → Json
  | .read s => .arr [.str "r", sym s]
  | .write s => .arr [.str "w", sym s]

/-- Everything about the flow of control and values in a function. -/
def flowFields (p : Program) (f : SymbolId) : Except Flow.FlowError Fields := do
  let g ← Flow.Graph.build p f
  let l ← Flow.Liveness.analyze p g
  let after ← (List.range g.blocks.size).mapM (l.liveAfter p g)
  let accesses := (g.blocks.toList.flatMap Flow.Block.items).map fun item =>
    Json.arr [node item.node, .arr ((Flow.accesses p item).map accessListing)]
  pure (livenessFields p l ++
    [("cfg", graphListing g),
      ("live_after", .arr (after.map fun sets => strs (sets.map Flow.BitSet.text))),
      ("accesses", .arr accesses)])

end MiddleEnd.Listing
