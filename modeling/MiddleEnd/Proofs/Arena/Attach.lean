import MiddleEnd.Proofs.Arena.Sound

namespace MiddleEnd.Program

variable {p q t : Program} {owner : NodeId} {gone come lost : Option NodeId}

theorem Relink.of_sameTree (edit : Relink p owner gone come lost t) (same : SameTree t q) :
    Relink p owner gone come lost q where
  owner_live := edit.owner_live
  gone_live := edit.gone_live
  gone_owned := edit.gone_owned
  lost_gone := edit.lost_gone
  come_live := edit.come_live
  come_top := edit.come_top
  come_free := edit.come_free
  come_apart := edit.come_apart
  size := same.size.trans edit.size
  kind_of_ne different := (same.kind _).trans (edit.kind_of_ne different)
  head n := by
    rw [same.kind]
    exact edit.head n
  mem_children := by
    rw [same.children]
    exact edit.mem_children
  children_nodup := by
    rw [same.children]
    exact edit.children_nodup
  parent n := (same.parent n).trans (edit.parent n)
  live {n} := by
    rw [same.live_iff]
    exact edit.live

/-- Only the epoch of a symbol is new. -/
theorem symbol_touch (p : Program) (scope : Option SymbolId) (s : SymbolId) :
    (p.touch scope).symbol s = { p.symbol s with epoch := ((p.touch scope).symbol s).epoch } := by
  cases scope with
  | none => rfl
  | some f =>
    rw [touch, symbol_modifySymbol]
    split <;> rfl

theorem nodes_touch (p : Program) (scope : Option SymbolId) : (p.touch scope).nodes = p.nodes := by
  cases scope <;> rfl

theorem modules_touch (p : Program) (scope : Option SymbolId) :
    (p.touch scope).modules = p.modules := by
  cases scope <;> rfl

theorem registries_touch (p : Program) (scope : Option SymbolId) :
    (p.touch scope).registries = p.registries := by
  cases scope <;> rfl

theorem symbols_size_touch (p : Program) (scope : Option SymbolId) :
    (p.touch scope).symbols.size = p.symbols.size := by
  cases scope with
  | none => rfl
  | some f => exact size_modifySymbol ..

theorem sameTree_of_nodes (nodes : q.nodes = p.nodes) : SameTree p q where
  size := congrArg Array.size nodes
  kind n := congrArg Node.kind (node_of_nodes nodes n)
  children n := congrArg (fun node => node.kind.children) (node_of_nodes nodes n)
  parent n := congrArg Node.parent (node_of_nodes nodes n)
  live n := congrArg Node.live (node_of_nodes nodes n)

theorem Pruned.touch (pruned : Pruned p lost q) (scope : Option SymbolId) :
    Pruned p lost (q.touch scope) where
  modules := (modules_touch q scope).trans pruned.modules
  symbols_size := (symbols_size_touch q scope).trans pruned.symbols_size
  core s := by
    rw [symbol_touch]
    exact pruned.core s
  symbol_live {s} := by
    rw [symbol_touch]
    exact pruned.symbol_live
  mem_callers {f c} := by
    rw [symbol_touch]
    exact pruned.mem_callers

theorem Pruned.of_symbols (pruned : Pruned p lost t) (modules : q.modules = t.modules)
    (symbols : q.symbols = t.symbols) : Pruned p lost q where
  modules := modules.trans pruned.modules
  symbols_size := (congrArg Array.size symbols).trans pruned.symbols_size
  core s := by
    rw [symbol_of_symbols symbols]
    exact pruned.core s
  symbol_live {s} := by
    rw [symbol_of_symbols symbols]
    exact pruned.symbol_live
  mem_callers {f c} := by
    rw [symbol_of_symbols symbols]
    exact pruned.mem_callers

namespace Relink

variable {node : NodeId}

theorem above_come (edit : Relink p owner gone (some node) lost q) {n : NodeId}
    (below : q.Above node n) : p.Above node n := by
  rcases edit.above_cases below with old | ⟨⟨_, same, old⟩, _⟩
  · exact old
  · exact Option.some.inj same ▸ old

/-- The nodes at and below the new child, once it is in its place. -/
theorem mem_preorder_come (edit : Relink p owner gone (some node) lost q) (forest : p.Forest)
    {n : NodeId} : n ∈ q.preorder node ↔ p.Live n ∧ p.Under (some node) n := by
  rw [(edit.forest forest).mem_preorder, edit.live]
  constructor
  · rintro ⟨⟨live, _⟩, below⟩
    exact ⟨live, node, rfl, edit.above_come below⟩
  · rintro ⟨live, below⟩
    have stays := edit.not_under_gone_of_come below
    refine ⟨⟨live, fun isLost => stays (edit.under_gone_of_lost isLost)⟩, ?_⟩
    obtain ⟨_, same, old⟩ := below
    cases same
    exact edit.above_of_not_under forest old stays

/-- Once the registries lack what goes, entering the new child below an attached owner makes them
exact. -/
theorem exact_register (edit : Relink p owner gone (some node) lost q) (sound : p.Sound)
    (pruned : Pruned p lost q) (rooted : q.Rooted)
    (exact : p.Exact (fun n => p.Reached n ∧ ¬ p.Under gone n) q.registries) :
    q.Exact q.Reached (if q.isAttached owner then q.registerSubtree node else q).registries := by
  have reached {n : NodeId} := edit.reached_iff sound.forest sound.rooted rooted pruned.roots (n := n)
  have attached : q.isAttached owner = true ↔ p.Reached owner := by
    rw [(edit.forest sound.forest).isAttached_iff rooted, reached]
    constructor
    · rintro (⟨reached, _⟩ | ⟨reached, _⟩) <;> exact reached
    · exact fun reached => .inl ⟨reached, edit.not_under_gone_owner sound.forest⟩
  have exactQ : q.Exact (fun n => p.Reached n ∧ ¬ p.Under gone n) q.registries :=
    exact.congr (fun _ => Iff.rfl) pruned.modules (fun n => (edit.head n).isCall)
      (fun n => (edit.head n).defines) pruned.sort
  by_cases isAttached : q.isAttached owner = true
  · simp only [isAttached, if_true]
    refine (exactQ.enter (q.preorder node)).congr_inside fun n => ?_
    rw [reached, edit.mem_preorder_come sound.forest]
    exact or_congr_right ⟨fun member => member.2, fun member => ⟨attached.mp isAttached, member⟩⟩
  · simp only [isAttached]
    refine exactQ.congr_inside fun n => ?_
    rw [reached]
    constructor
    · rintro (old | ⟨reachedOwner, _⟩)
      · exact old
      · exact absurd (attached.mpr reachedOwner) isAttached
    · exact .inl

end Relink

/-- Attaching brings scopes and registries in step: if setting the owner of `node` completes a
change of the tree, and the registries already lack what goes, then adoption completes the edit. -/
theorem adopt_edit (sound : p.Sound) {node : NodeId}
    (relink : Relink p owner gone (some node) lost (t.setParent node (some owner)))
    (pruned : Pruned p lost t) (scopes : ∀ n, t.scope? n = p.scope? n)
    (exact : p.Exact (fun n => p.Reached n ∧ ¬ p.Under gone n) t.registries) :
    Edit p owner gone (some node) lost (t.adopt owner node) := by
  rw [adopt]
  replace pruned : Pruned p lost (t.setParent node (some owner)) := pruned.of_symbols rfl rfl
  replace scopes (n : NodeId) : (t.setParent node (some owner)).scope? n = p.scope? n := by
    rw [scope?_setParent, scopes]
  replace exact : p.Exact (fun n => p.Reached n ∧ ¬ p.Under gone n)
    (t.setParent node (some owner)).registries := exact
  generalize t.setParent node (some owner) = linked at *
  have forest := relink.forest sound.forest
  have live : linked.Live node := relink.live.mpr ⟨relink.come_live rfl, fun below =>
    relink.not_under_gone_of_come ⟨node, rfl, .refl⟩ (relink.under_gone_of_lost below)⟩
  have rescoped : Rescoped linked node (linked.scopeBelow owner)
      (rescope (linked.nodes.size + 1) node (linked.scopeBelow owner) linked) :=
    rescope_spec forest live (by omega) _
  generalize rescope (linked.nodes.size + 1) node (linked.scopeBelow owner) linked = u at *
  have relinkU : Relink p owner gone (some node) lost u := relink.of_sameTree rescoped.sameTree
  have modules : u.modules = linked.modules := by rw [rescoped.rest]
  have symbols : u.symbols = linked.symbols := by rw [rescoped.rest]
  have registries : u.registries = linked.registries := by rw [rescoped.rest]
  have prunedU : Pruned p lost u := pruned.of_symbols modules symbols
  have scopeKept {n : NodeId} (apart : ¬ p.Under (some node) n) : u.scope? n = p.scope? n := by
    rw [rescoped.scope_kept fun below => apart ⟨node, rfl, relink.above_come below⟩, scopes]
  have rootedU : u.Rooted := relinkU.rooted prunedU sound fun r root =>
    scopeKept (relinkU.root_not_under sound.rooted root)
  have exactU := relinkU.exact_register sound prunedU rootedU (registries ▸ exact)
  have nodes : (if u.isAttached owner then u.registerSubtree node else u).nodes = u.nodes := by
    split <;> rfl
  have prunedV : Pruned p lost (if u.isAttached owner then u.registerSubtree node else u) := by
    split
    · exact prunedU.of_symbols rfl rfl
    · exact prunedU
  generalize (if u.isAttached owner then u.registerSubtree node else u) = v at *
  have prunedQ := prunedV.touch (linked.scopeBelow owner)
  have nodesQ := (nodes_touch v (linked.scopeBelow owner)).trans nodes
  have registriesQ := registries_touch v (linked.scopeBelow owner)
  generalize v.touch (linked.scopeBelow owner) = q at *
  have sameQ : SameTree u q := sameTree_of_nodes nodesQ
  have scopeQ (n : NodeId) : q.scope? n = u.scope? n :=
    congrArg Node.scope (node_of_nodes nodesQ n)
  have belowQ (n : NodeId) : q.scopeBelow n = u.scopeBelow n :=
    scopeBelow_congr (sameQ.kind n) (scopeQ n)
  refine { relinkU.of_sameTree sameQ, prunedQ with
    scope_kept := fun apart => (scopeQ _).trans (scopeKept apart)
    scope_come := fun {c} new => ?_
    scope_inside := fun {m c} live below child => ?_
    exact := ?_ }
  · cases new
    rw [scopeQ, belowQ, rescoped.scope_top]
    refine (scopeBelow_congr (rescoped.sameTree.kind owner) (rescoped.scope_kept fun below => ?_)).symm
    exact relink.come_apart rfl (relink.above_come below)
  · have stays := relink.not_under_gone_of_come below
    have different : m ≠ owner := by
      rintro rfl
      exact relink.not_under_come_owner below
    have liveM : linked.Live m :=
      relink.live.mpr ⟨live, fun isLost => stays (relink.under_gone_of_lost isLost)⟩
    obtain ⟨_, same, old⟩ := below
    cases same
    rw [scopeQ, belowQ]
    refine rescoped.scope_inside liveM (relink.above_of_not_under sound.forest old stays) ?_
    rwa [relink.children_of_ne different]
  · rw [registriesQ]
    have roots : q.roots = u.roots := prunedQ.roots.trans prunedU.roots.symm
    exact exactU.congr (fun n => sameQ.reached_iff roots)
      (prunedQ.modules.trans prunedU.modules.symm) (fun n => by rw [sameQ.kind])
      (fun n => by rw [sameQ.kind]) fun s => (prunedQ.sort s).trans (prunedU.sort s).symm

end MiddleEnd.Program
