import MiddleEnd.Arena.Edit
import Mathlib.Data.List.Perm.Subperm
import Mathlib.Tactic.Common

namespace MiddleEnd

theorem NodeId.index_inj {a b : NodeId} : a.index = b.index ↔ a = b :=
  ⟨fun same => by cases a; cases b; exact congrArg NodeId.mk same, congrArg NodeId.index⟩

theorem SymbolId.index_inj {a b : SymbolId} : a.index = b.index ↔ a = b :=
  ⟨fun same => by cases a; cases b; exact congrArg SymbolId.mk same, congrArg SymbolId.index⟩

namespace Program

/-- The node is there and has not been destroyed. -/
abbrev Live (p : Program) (n : NodeId) : Prop := (p.node n).live = true

/-- The owner that a node records. -/
abbrev parent? (p : Program) (n : NodeId) : Option NodeId := (p.node n).parent

/-- The function or module that a node records. -/
abbrev scope? (p : Program) (n : NodeId) : Option SymbolId := (p.node n).scope

variable {p : Program}

theorem hasNode_iff {n : NodeId} : p.hasNode n = true ↔ n.index < p.nodes.size := by
  simp [hasNode]

theorem hasSymbol_iff {s : SymbolId} : p.hasSymbol s = true ↔ s.index < p.symbols.size := by
  simp [hasSymbol]

theorem node_of_not_known {n : NodeId} (unknown : p.nodes.size ≤ n.index) :
    p.node n = .absent := by
  simp [node, Array.getD_eq_getD_getElem?, Array.getElem?_eq_none unknown]

theorem symbol_of_not_known {s : SymbolId} (unknown : p.symbols.size ≤ s.index) :
    p.symbol s = .absent := by
  simp [symbol, Array.getD_eq_getD_getElem?, Array.getElem?_eq_none unknown]

theorem node_of_nodes {q : Program} (nodes : q.nodes = p.nodes) (n : NodeId) : q.node n = p.node n := by
  rw [node, nodes, node]

theorem symbol_of_symbols {q : Program} (symbols : q.symbols = p.symbols) (s : SymbolId) :
    q.symbol s = p.symbol s := by
  rw [symbol, symbols, symbol]

theorem Live.known {n : NodeId} (live : p.Live n) : n.index < p.nodes.size := by
  by_contra unknown
  rw [Live, node_of_not_known (Nat.not_lt.mp unknown)] at live
  exact Bool.noConfusion live

theorem known_of_parent {n owner : NodeId} (above : p.parent? n = some owner) :
    n.index < p.nodes.size := by
  by_contra unknown
  rw [parent?, node_of_not_known (Nat.not_lt.mp unknown)] at above
  exact absurd above (by simp [Node.absent])

theorem symbol_known_of_live {s : SymbolId} (live : (p.symbol s).live = true) :
    s.index < p.symbols.size := by
  by_contra unknown
  rw [symbol_of_not_known (Nat.not_lt.mp unknown)] at live
  exact Bool.noConfusion live

theorem node_modifyNode (id n : NodeId) (f : Node → Node) :
    (p.modifyNode id f).node n =
      if n = id ∧ id.index < p.nodes.size then f (p.node n) else p.node n := by
  simp only [node, modifyNode, Array.getD_eq_getD_getElem?, Array.getElem?_modify]
  by_cases same : n = id
  · subst same
    by_cases known : n.index < p.nodes.size
    · simp [known]
    · simp [known]
  · have different : id.index ≠ n.index := fun equal => same (NodeId.index_inj.mp equal).symm
    simp [same, different]

theorem node_modifyNode_self {id : NodeId} (known : id.index < p.nodes.size) (f : Node → Node) :
    (p.modifyNode id f).node id = f (p.node id) := by
  simp [node_modifyNode, known]

theorem node_modifyNode_of_ne {id n : NodeId} (different : n ≠ id) (f : Node → Node) :
    (p.modifyNode id f).node n = p.node n := by
  simp [node_modifyNode, different]

theorem symbol_modifySymbol (id s : SymbolId) (f : Symbol → Symbol) :
    (p.modifySymbol id f).symbol s =
      if s = id ∧ id.index < p.symbols.size then f (p.symbol s) else p.symbol s := by
  simp only [symbol, modifySymbol, Array.getD_eq_getD_getElem?, Array.getElem?_modify]
  by_cases same : s = id
  · subst same
    by_cases known : s.index < p.symbols.size
    · simp [known]
    · simp [known]
  · have different : id.index ≠ s.index := fun equal => same (SymbolId.index_inj.mp equal).symm
    simp [same, different]

@[simp] theorem node_modifySymbol (id : SymbolId) (f : Symbol → Symbol) (n : NodeId) :
    (p.modifySymbol id f).node n = p.node n := rfl

@[simp] theorem symbol_modifyNode (id : NodeId) (f : Node → Node) (s : SymbolId) :
    (p.modifyNode id f).symbol s = p.symbol s := rfl

@[simp] theorem size_modifyNode (id : NodeId) (f : Node → Node) :
    (p.modifyNode id f).nodes.size = p.nodes.size := by simp [modifyNode]

@[simp] theorem size_modifySymbol (id : SymbolId) (f : Symbol → Symbol) :
    (p.modifySymbol id f).symbols.size = p.symbols.size := by simp [modifySymbol]

@[simp] theorem parent?_setKind (id n : NodeId) (kind : NodeKind) :
    (p.setKind id kind).parent? n = p.parent? n := by
  simp only [parent?, setKind, node_modifyNode]
  split <;> rfl

@[simp] theorem scope?_setKind (id n : NodeId) (kind : NodeKind) :
    (p.setKind id kind).scope? n = p.scope? n := by
  simp only [scope?, setKind, node_modifyNode]
  split <;> rfl

@[simp] theorem live_setKind (id n : NodeId) (kind : NodeKind) :
    ((p.setKind id kind).node n).live = (p.node n).live := by
  simp only [setKind, node_modifyNode]
  split <;> rfl

theorem kind_setKind {id : NodeId} (known : id.index < p.nodes.size) (kind : NodeKind)
    (n : NodeId) : (p.setKind id kind).kind n = if n = id then kind else p.kind n := by
  simp only [Program.kind, setKind, node_modifyNode, known, and_true]
  split <;> rfl

@[simp] theorem kind_setParent (id n : NodeId) (parent : Option NodeId) :
    (p.setParent id parent).kind n = p.kind n := by
  simp only [kind, setParent, node_modifyNode]
  split <;> rfl

@[simp] theorem scope?_setParent (id n : NodeId) (parent : Option NodeId) :
    (p.setParent id parent).scope? n = p.scope? n := by
  simp only [scope?, setParent, node_modifyNode]
  split <;> rfl

@[simp] theorem live_setParent (id n : NodeId) (parent : Option NodeId) :
    ((p.setParent id parent).node n).live = (p.node n).live := by
  simp only [setParent, node_modifyNode]
  split <;> rfl

theorem parent?_setParent {id : NodeId} (known : id.index < p.nodes.size)
    (parent : Option NodeId) (n : NodeId) :
    (p.setParent id parent).parent? n = if n = id then parent else p.parent? n := by
  simp only [parent?, setParent, node_modifyNode, known, and_true]
  split <;> rfl

@[simp] theorem size_setKind (id : NodeId) (kind : NodeKind) :
    (p.setKind id kind).nodes.size = p.nodes.size := size_modifyNode ..

@[simp] theorem size_setParent (id : NodeId) (parent : Option NodeId) :
    (p.setParent id parent).nodes.size = p.nodes.size := size_modifyNode ..

end Program

end MiddleEnd
