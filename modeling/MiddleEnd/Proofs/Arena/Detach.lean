import MiddleEnd.Proofs.Arena.Attach

namespace MiddleEnd.Program

/-- The program after `owner` has become `kind`, `node` has lost its owner, and what could be reached
below `node` has left the registries. -/
def cut (p : Program) (owner : NodeId) (kind : NodeKind) (node : NodeId) : Program :=
  let t := (p.setKind owner kind).setParent node none
  if p.isAttached node then t.deregisterSubtree node else t

variable {p q : Program} {owner node : NodeId} {kind : NodeKind}

theorem nodes_deregisterSubtree (p : Program) (root : NodeId) :
    (p.deregisterSubtree root).nodes = p.nodes := rfl

theorem symbols_deregisterSubtree (p : Program) (root : NodeId) :
    (p.deregisterSubtree root).symbols = p.symbols := rfl

/-- What is below a child of `owner` stays as it is. -/
theorem preorder_relabel (forest : p.Forest) (live : p.Live node)
    (owned : p.parent? node = some owner) {t : Program} (size : t.nodes.size = p.nodes.size)
    (kinds : ∀ n, n ≠ owner → t.kind n = p.kind n)
    (lives : ∀ n, (t.node n).live = (p.node n).live) : t.preorder node = p.preorder node := by
  have closed : ∀ n, p.Live n ∧ p.Above node n → ∀ c ∈ p.children n, p.Live c ∧ p.Above node c :=
    fun n ⟨liveN, above⟩ c child =>
      ⟨forest.child_live liveN child, .up (forest.child_parent liveN child) above⟩
  refine preorder_congr size closed ?_ (fun n _ => lives n) ⟨live, .refl⟩
  rintro n ⟨_, above⟩
  refine kinds n ?_
  rintro rfl
  exact forest.acyclic owned above

theorem exact_cut (sound : p.Sound) (live : p.Live node) (owned : p.parent? node = some owner)
    (head : (p.kind owner).SameHead kind) :
    p.Exact (fun n => p.Reached n ∧ ¬ p.Under (some node) n) (p.cut owner kind node).registries := by
  have known := sound.forest.owner_known owned
  have below {n : NodeId} : n ∈ p.preorder node ↔ p.Live n ∧ p.Under (some node) n := by
    rw [sound.forest.mem_preorder]
    exact and_congr_right fun _ => ⟨fun above => ⟨node, rfl, above⟩, fun ⟨_, same, above⟩ =>
      Option.some.inj same ▸ above⟩
  unfold cut
  split
  · generalize relabelled : (p.setKind owner kind).setParent node none = t
    have kinds (n : NodeId) : t.kind n = if n = owner then kind else p.kind n := by
      rw [← relabelled, kind_setParent, kind_setKind known]
    have heads (n : NodeId) : (p.kind n).SameHead (t.kind n) := by
      rw [kinds]
      split
      · rename_i same
        exact same ▸ head
      · exact .refl _
    have walk : t.preorder node = p.preorder node := by
      refine preorder_relabel sound.forest live owned ?_ (fun n different => ?_) fun n => ?_
      · rw [← relabelled, size_setParent, size_setKind]
      · rw [kinds, if_neg different]
      · rw [← relabelled, live_setParent, live_setKind]
    have symbols (s : SymbolId) : t.symbol s = p.symbol s := by
      rw [← relabelled]
      rfl
    have modules : t.modules = p.modules := by
      rw [← relabelled]
      rfl
    have exactT : t.Exact p.Reached t.registries := by
      have registries : t.registries = p.registries := by
        rw [← relabelled]
        rfl
      rw [registries]
      exact sound.exact.congr (fun _ => Iff.rfl) modules (fun n => (heads n).isCall)
        (fun n => (heads n).defines) fun s => by rw [symbols]
    have left := exactT.leave (t.preorder node)
      (fun {m n s} first second => by
        rw [(heads _).defines] at first second
        exact sound.bound_unique first second)
      (fun {n s} defines => by
        rw [(heads _).defines] at defines
        rw [modules]
        exact sound.bound_local defines)
    refine left.congr (fun n => ?_) modules.symm (fun n => (heads n).isCall.symm)
      (fun n => (heads n).defines.symm) fun s => by rw [symbols]
    rw [walk, below]
    exact and_congr_right fun reached =>
      ⟨fun apart member => apart member.2, fun apart member => apart
        ⟨sound.live_of_reached reached, member⟩⟩
  · rename_i detached
    refine sound.exact.congr_inside fun n => ?_
    refine ⟨And.left, fun reached => ⟨reached, ?_⟩⟩
    rintro ⟨_, same, above⟩
    cases same
    obtain ⟨_, r, root, aboveR⟩ := sound.reached_iff.mp reached
    refine detached (sound.isAttached_iff.mpr (sound.reached_iff.mpr ⟨live, r, root, ?_⟩))
    rcases aboveR.total above with up | up
    · exact up
    · exact absurd (up.eq_of_top (sound.rooted.top_of_root root) ▸ owned)
        (by rw [sound.rooted.top_of_root root]; simp)

/-- The program `t` is `p` with `kind` at `owner` and with `node` cut off: without an owner, and with
all that could be reached below it out of the registries. -/
structure Cut (p : Program) (owner : NodeId) (kind : NodeKind) (node : NodeId) (t : Program) :
    Prop where
  symbols : t.symbols = p.symbols
  modules : t.modules = p.modules
  size : t.nodes.size = p.nodes.size
  kind_eq (n : NodeId) : t.kind n = if n = owner then kind else p.kind n
  parent (n : NodeId) : t.parent? n = if n = node then none else p.parent? n
  live (n : NodeId) : (t.node n).live = (p.node n).live
  scope (n : NodeId) : t.scope? n = p.scope? n
  preorder : t.preorder node = p.preorder node
  exact : p.Exact (fun n => p.Reached n ∧ ¬ p.Under (some node) n) t.registries

theorem cut_spec (sound : p.Sound) (live : p.Live node) (owned : p.parent? node = some owner)
    (head : (p.kind owner).SameHead kind) : Cut p owner kind node (p.cut owner kind node) := by
  have known := sound.forest.owner_known owned
  have nodes : (p.cut owner kind node).nodes = ((p.setKind owner kind).setParent node none).nodes := by
    unfold cut
    split <;> rfl
  have sameNode (n : NodeId) := node_of_nodes nodes n
  have size : (p.cut owner kind node).nodes.size = p.nodes.size := by
    rw [nodes, size_setParent, size_setKind]
  have kinds (n : NodeId) :
      (p.cut owner kind node).kind n = if n = owner then kind else p.kind n := by
    rw [Program.kind, sameNode, ← Program.kind, kind_setParent, kind_setKind known]
  have lives (n : NodeId) : ((p.cut owner kind node).node n).live = (p.node n).live := by
    rw [sameNode, live_setParent, live_setKind]
  exact
    { symbols := by
        unfold cut
        split <;> rfl
      modules := by
        unfold cut
        split <;> rfl
      size := size
      kind_eq := kinds
      parent := fun n => by
        rw [parent?, sameNode, ← parent?, parent?_setParent (by simpa using live.known),
          parent?_setKind]
      live := lives
      scope := fun n => by
        rw [scope?, sameNode, ← scope?, scope?_setParent, scope?_setKind]
      preorder := preorder_relabel sound.forest live owned size
        (fun n different => by rw [kinds, if_neg different]) lives
      exact := exact_cut sound live owned head }

theorem pruned_none (symbols : q.symbols = p.symbols) (modules : q.modules = p.modules) :
    Pruned p none q where
  modules := modules
  symbols_size := congrArg Array.size symbols
  core s := by rw [symbol_of_symbols symbols]
  symbol_live {s} := by
    rw [symbol_of_symbols symbols]
    exact ⟨fun live => ⟨live, fun n _ below => by obtain ⟨_, none, _⟩ := below; cases none⟩,
      And.left⟩
  mem_callers {f c} := by
    rw [symbol_of_symbols symbols]
    exact ⟨fun listed => ⟨listed, fun ⟨_, below, _⟩ => by obtain ⟨_, none, _⟩ := below; cases none⟩,
      And.left⟩

theorem not_under_none {n : NodeId} : ¬ p.Under none n := by
  rintro ⟨_, none, _⟩
  cases none

/-- Taking a child from its owner is an edit. -/
theorem cut_edit (sound : p.Sound) (live : p.Live node) (owned : p.parent? node = some owner)
    (head : (p.kind owner).SameHead kind) (fewer : kind.children = (p.children owner).filter (· ≠ node))
    (scope : Option SymbolId) :
    Edit p owner (some node) none none ((p.cut owner kind node).touch scope) := by
  have cut := cut_spec sound live owned head
  have ownerLive := sound.forest.owner_live live owned
  have nodes := nodes_touch (p.cut owner kind node) scope
  have same : SameTree (p.cut owner kind node) ((p.cut owner kind node).touch scope) :=
    sameTree_of_nodes nodes
  have childrenOwner : (p.cut owner kind node).children owner =
      (p.children owner).filter (· ≠ node) := by
    rw [children, cut.kind_eq, if_pos rfl, fewer]
  have relink : Relink p owner (some node) none none (p.cut owner kind node) :=
    { owner_live := ownerLive
      gone_live := fun {g} old => Option.some.inj old ▸ live
      gone_owned := fun {g} old => Option.some.inj old ▸ owned
      lost_gone := fun new => absurd new (Option.some_ne_none _).symm
      come_live := fun new => absurd new (Option.some_ne_none _).symm
      come_top := fun new => absurd new (Option.some_ne_none _).symm
      come_free := fun new => absurd new (Option.some_ne_none _).symm
      come_apart := fun new => absurd new (Option.some_ne_none _).symm
      size := cut.size
      kind_of_ne := fun different => by rw [cut.kind_eq, if_neg different]
      head := fun n => by
        rw [cut.kind_eq]
        split
        · rename_i same
          exact same ▸ head
        · exact .refl _
      mem_children := fun {c} => by
        rw [childrenOwner, List.mem_filter, decide_eq_true_eq]
        simp [eq_comm]
      children_nodup := by
        rw [childrenOwner]
        exact (sound.forest.children_nodup ownerLive).filter _
      parent := fun n => by
        rw [cut.parent]
        simp [eq_comm]
      live := fun {n} => by
        rw [Live, cut.live]
        exact ⟨fun live => ⟨live, not_under_none⟩, And.left⟩ }
  have pruned : Pruned p none (p.cut owner kind node) := pruned_none cut.symbols cut.modules
  have prunedQ := pruned.touch scope
  have relinkQ := relink.of_sameTree same
  have scopes (n : NodeId) : ((p.cut owner kind node).touch scope).scope? n = p.scope? n := by
    rw [scope?, node_of_nodes nodes, ← scope?, cut.scope]
  have rootedQ : ((p.cut owner kind node).touch scope).Rooted :=
    relinkQ.rooted prunedQ sound fun r _ => scopes r
  refine { relinkQ, prunedQ with
    scope_kept := fun {n} _ => scopes n
    scope_come := fun new => absurd new (Option.some_ne_none _).symm
    scope_inside := fun {m c} _ below => absurd below not_under_none
    exact := ?_ }
  rw [registries_touch]
  refine cut.exact.congr (fun n => ?_) prunedQ.modules
    (fun n => (relinkQ.head n).isCall) (fun n => (relinkQ.head n).defines) prunedQ.sort
  rw [relinkQ.reached_iff sound.forest sound.rooted rootedQ prunedQ.roots]
  refine ⟨fun member => member.elim id fun come => ?_, .inl⟩
  exact absurd come.2.2 not_under_none

end MiddleEnd.Program
