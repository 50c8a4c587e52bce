import MiddleEnd.Proofs.Arena.Epoch
import MiddleEnd.Proofs.Surface.Lowering
import MiddleEnd.Proofs.Surface.Scoping

namespace MiddleEnd

namespace Program

variable {p q r : Program} {touched touched' : List NodeId} {owner node : NodeId}

/-- Attaching changes a symbol in its epoch alone. -/
theorem adopt_same (parent node : NodeId) (p : Program) :
    (∀ s, ((p.adopt parent node).symbol s).kind = (p.symbol s).kind) ∧
      (p.adopt parent node).symbols.size = p.symbols.size ∧
      (p.adopt parent node).modules = p.modules ∧
      (p.adopt parent node).nodes.size = p.nodes.size := by
  have owned := size_setParent (p := p) node (some parent)
  unfold adopt
  generalize step : p.setParent node (some parent) = u at *
  have first : u.symbols = p.symbols ∧ u.modules = p.modules := by
    rw [← step]
    exact ⟨rfl, rfl⟩
  dsimp only
  generalize u.scopeBelow parent = scope
  have symbols := symbols_rescope (p := u) (u.nodes.size + 1) node scope
  have modules := rescope_keeps Program.modules (fun _ _ _ => rfl) (u.nodes.size + 1) node scope u
  have size := rescope_keeps (·.nodes.size) (fun _ _ _ => size_modifyNode ..) (u.nodes.size + 1) node
    scope u
  generalize rescope (u.nodes.size + 1) node scope u = t at *
  have entered : ∃ registries, (if t.isAttached parent then t.registerSubtree node else t) =
      { t with registries := registries } := by
    split
    · exact ⟨_, rfl⟩
    · exact ⟨t.registries, rfl⟩
  obtain ⟨registries, entered⟩ := entered
  rw [entered]
  refine ⟨fun s => ?_, ?_, ?_, ?_⟩
  · have same : t.symbol s = p.symbol s := symbol_of_symbols (symbols.trans first.1) s
    rw [symbol_touch, ← same]
    rfl
  · exact (symbols_size_touch ..).trans (congrArg Array.size (symbols.trans first.1))
  · exact (modules_touch ..).trans (modules.trans first.2)
  · exact (congrArg Array.size (nodes_touch ..)).trans (size.trans owned)

/-- On the way from `p` to `q` entries were only added. The constructs at `touched` may have become
others. -/
structure Adds (p : Program) (touched : List NodeId) (q : Program) : Prop where
  nodes_le : p.nodes.size ≤ q.nodes.size
  symbols_le : p.symbols.size ≤ q.symbols.size
  kind {n : NodeId} : n.index < p.nodes.size → n ∉ touched → q.kind n = p.kind n
  sort {s : SymbolId} : s.index < p.symbols.size → (q.symbol s).kind.sort = (p.symbol s).kind.sort
  moduleBlock {s : SymbolId} : s.index < p.symbols.size → q.moduleBlock? s = p.moduleBlock? s
  modules : q.modules = p.modules

namespace Adds

theorem refl : Adds p touched p where
  nodes_le := Nat.le_refl _
  symbols_le := Nat.le_refl _
  kind _ _ := rfl
  sort _ := rfl
  moduleBlock _ := rfl
  modules := rfl

theorem trans (first : Adds p touched q) (second : Adds q touched r) : Adds p touched r where
  nodes_le := Nat.le_trans first.nodes_le second.nodes_le
  symbols_le := Nat.le_trans first.symbols_le second.symbols_le
  kind known apart := by
    rw [second.kind (Nat.lt_of_lt_of_le known first.nodes_le) apart, first.kind known apart]
  sort known := by
    rw [second.sort (Nat.lt_of_lt_of_le known first.symbols_le), first.sort known]
  moduleBlock known := by
    rw [second.moduleBlock (Nat.lt_of_lt_of_le known first.symbols_le), first.moduleBlock known]
  modules := second.modules.trans first.modules

theorem mono (adds : Adds p touched q) (wider : touched ⊆ touched') : Adds p touched' q :=
  { adds with kind := fun known apart => adds.kind known fun member => apart (wider member) }

end Adds

theorem Relabel.adds (change : Relabel p q) : Adds p touched q where
  nodes_le := Nat.le_of_eq (congrArg Array.size change.nodes).symm
  symbols_le := Nat.le_of_eq change.symbols_size.symm
  kind _ _ := change.kind _
  sort _ := change.sort _
  moduleBlock _ := change.moduleBlock _
  modules := change.modules

theorem adds_addSymbol (sym : Symbol) : Adds p touched (p.addSymbol sym).2 where
  nodes_le := Nat.le_refl _
  symbols_le := by
    show p.symbols.size ≤ (p.symbols.push sym).size
    rw [Array.size_push]
    omega
  kind _ _ := rfl
  sort known := by rw [symbol_addSymbol_of_known sym known]
  moduleBlock known := by rw [moduleBlock?, symbol_addSymbol_of_known sym known, moduleBlock?]
  modules := rfl

theorem modules_addNode (k : NodeKind) (span : Span) : (p.addNode k span).2.modules = p.modules := by
  have kept (ids : List NodeId) (owner : NodeId) (t : Program) :
      (ids.foldl (fun t c => t.setParent c (some owner)) t).modules = t.modules := by
    induction ids generalizing t with
    | nil => rfl
    | cons c ids ih => exact ih (t.setParent c (some owner))
  simp only [addNode]
  split <;> exact kept ..

theorem adds_addNode (k : NodeKind) (span : Span) : Adds p touched (p.addNode k span).2 where
  nodes_le := by
    rw [(size_addNode k span).1]
    omega
  symbols_le := Nat.le_of_eq (size_addNode k span).2.symm
  kind {n} known _ := by
    rw [kind_addNode, if_neg]
    intro same
    rw [same] at known
    exact Nat.lt_irrefl _ known
  sort _ := by rw [symbol_addNode]
  moduleBlock _ := by
    rw [moduleBlock?, symbol_addNode]
    rfl
  modules := modules_addNode k span

/-- A block that has got one more statement. -/
theorem adds_append {ids : List NodeId} (list : p.kind owner = .block ids)
    (result : p.append owner node = .ok q) :
    Adds p [owner] q ∧ q.kind owner = .block (ids ++ [node]) ∧ q.nodes.size = p.nodes.size := by
  obtain ⟨known, ids', list', equal⟩ := of_append result
  rw [list] at list' equal
  cases list'
  obtain ⟨kinds, symbols, modules, nodes⟩ :=
    adopt_same owner node (p.setKind owner (.block (ids ++ [node])))
  have equal : q = (p.setKind owner (.block (ids ++ [node]))).adopt owner node := equal
  have kind (n : NodeId) : q.kind n = if n = owner then .block (ids ++ [node]) else p.kind n := by
    rw [equal, kind_adopt, kind_setKind known]
  have symbol (s : SymbolId) : (q.symbol s).kind = (p.symbol s).kind := by
    rw [equal, kinds]
    rfl
  have size : q.nodes.size = p.nodes.size := by rw [equal, nodes, size_setKind]
  refine ⟨?_, ?_, size⟩
  · exact
      { nodes_le := Nat.le_of_eq size.symm
        symbols_le := by
          rw [equal, symbols]
          exact Nat.le_refl _
        kind := fun {n} _ apart => by
          rw [kind, if_neg fun same => apart (List.mem_singleton.mpr same)]
        sort := fun _ => by rw [symbol]
        moduleBlock := fun _ => by
          rw [moduleBlock?, Symbol.moduleBlock?, symbol]
          rfl
        modules := by
          rw [equal, modules]
          rfl }
  · rw [kind, if_pos rfl]

end Program

end MiddleEnd
