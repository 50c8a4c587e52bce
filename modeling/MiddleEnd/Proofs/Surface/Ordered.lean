import MiddleEnd.Proofs.Surface.Grow

/-! Registries that list their entries in the order of the program text. -/

namespace MiddleEnd

namespace Registries

/-- Only the sort of a symbol decides which list it belongs to. -/
theorem mapKind_congr (r : Registries) {k k' : SymbolKind} (same : k.sort = k'.sort)
    (f : List SymbolId → List SymbolId) : r.mapKind k f = r.mapKind k' f := by
  cases k <;> cases k' <;> first | rfl | cases same

theorem mapKind_comm (r : Registries) {k k' : SymbolKind} (different : k.sort ≠ k'.sort)
    (f g : List SymbolId → List SymbolId) :
    (r.mapKind k f).mapKind k' g = (r.mapKind k' g).mapKind k f := by
  cases k <;> cases k' <;> first | rfl | exact absurd rfl different

theorem mapKind_mapCalls (r : Registries) (k : SymbolKind) (f : List SymbolId → List SymbolId)
    (g : List NodeId → List NodeId) : (r.mapKind k f).mapCalls g = (r.mapCalls g).mapKind k f := by
  cases k <;> rfl

end Registries

namespace Program

variable {p q : Program} {touched : List NodeId} {claimed : List SymbolId}

/-- The registries list what can be reached in the order in which a walk from the roots meets it. -/
def Ordered (p : Program) : Prop := p.registries = p.computeRegistries

theorem enter_congr {n : NodeId} (head : (p.kind n).SameHead (q.kind n))
    (sort : ∀ s, (p.kind n).defines? = some s →
      (q.symbol s).kind.sort = (p.symbol s).kind.sort) (r : Registries) : q.enter r n = p.enter r n := by
  rw [enter, enter, head.isCall, head.defines]
  cases defines : (p.kind n).defines? with
  | none => rfl
  | some s => exact Registries.mapKind_congr _ (sort s defines) _

theorem foldl_enter_congr {ids : List NodeId} (head : ∀ n ∈ ids, (p.kind n).SameHead (q.kind n))
    (sort : ∀ n ∈ ids, ∀ s, (p.kind n).defines? = some s →
      (q.symbol s).kind.sort = (p.symbol s).kind.sort) (r : Registries) :
    ids.foldl q.enter r = ids.foldl p.enter r :=
  List.foldl_ext _ _ _ fun r n member => enter_congr (head n member) (sort n member) r

/-- Entering definitions that bind no module commutes with entering a module. -/
theorem foldl_enter_addSymbol {ids : List NodeId} {m : SymbolId} {block : NodeId}
    (inner : ∀ n ∈ ids, ∀ s, (p.kind n).defines? = some s →
      (p.symbol s).kind.sort ≠ .moduleRoot) (r : Registries) :
    ids.foldl p.enter (r.addSymbol m (.moduleRoot block)) =
      (ids.foldl p.enter r).addSymbol m (.moduleRoot block) := by
  induction ids generalizing r with
  | nil => rfl
  | cons n rest ih =>
    have step : p.enter (r.addSymbol m (.moduleRoot block)) n =
        (p.enter r n).addSymbol m (.moduleRoot block) := by
      have calls : (if (p.kind n).isCall then (r.addSymbol m (.moduleRoot block)).addCall n
          else r.addSymbol m (.moduleRoot block)) =
          (if (p.kind n).isCall then r.addCall n else r).addSymbol m (.moduleRoot block) := by
        split
        · exact Registries.mapKind_mapCalls ..
        · rfl
      rw [enter, enter, calls]
      cases defines : (p.kind n).defines? with
      | none => rfl
      | some s =>
        exact Registries.mapKind_comm _ (fun same => inner n List.mem_cons_self s defines same.symm) _ _
    rw [List.foldl_cons, List.foldl_cons, step,
      ih fun n member => inner n (List.mem_cons_of_mem _ member)]

/-- A tree stays as it is while the program grows elsewhere. -/
theorem Keeps.preorder (keeps : Keeps p touched q) (forest : p.Forest) (forestQ : q.Forest)
    {a : NodeId} (live : p.Live a) (apart : ∀ m ∈ touched, p.Live m → ¬ p.Above a m) :
    q.preorder a = p.preorder a := by
  induction room : p.nodes.size - (p.path a).length using Nat.strongRecOn generalizing a with
  | _ size ih =>
    have same : q.children a = p.children a := by
      rw [children, keeps.kind live fun member => apart a member live .refl, children]
    rw [forestQ.preorder_eq, forest.preorder_eq, if_pos live, if_pos (keeps.live live), same]
    refine congrArg (a :: ·) (List.flatMap_congr fun c child => ?_)
    have shorter := forest.room_child live child
    refine ih _ (room ▸ shorter) (forest.child_live live child) (fun m member liveM below => ?_) rfl
    exact apart m member liveM (forest.above_of_child live child below)

/-- A program that has grown enters old nodes as it did before. -/
theorem Grows.foldl_enter (grows : Grows p touched claimed q) (sound : p.Sound) {ids : List NodeId}
    (live : ∀ n ∈ ids, p.Live n) :
    ids.foldl q.enter (q.modules.foldl (fun r m => r.addSymbol m (q.symbol m).kind) {}) =
      ids.foldl p.enter (p.modules.foldl (fun r m => r.addSymbol m (p.symbol m).kind) {}) := by
  have modules : q.modules.foldl (fun r m => r.addSymbol m (q.symbol m).kind) {} =
      p.modules.foldl (fun r m => r.addSymbol m (p.symbol m).kind) ({} : Registries) := by
    rw [grows.modules]
    exact List.foldl_ext _ _ _ fun r m member =>
      Registries.mapKind_congr _ (grows.sort (sound.rooted.known_of_module member)) _
  rw [modules]
  exact foldl_enter_congr (fun n member => grows.head (live n member))
    (fun n _ s defines => grows.sort (sound.bound_known defines)) _

theorem Sound.live_of_traversal (sound : p.Sound) {n : NodeId}
    (member : n ∈ p.roots.flatMap p.preorder) : p.Live n := by
  obtain ⟨r, _, inside⟩ := List.mem_flatMap.mp member
  exact (sound.forest.mem_preorder.mp inside).1

/-- What grows out of reach does not change what a walk from the roots finds. -/
theorem Grows.computeRegistries (grows : Grows p touched claimed q) (sound : p.Sound)
    (soundQ : q.Sound) (hidden : ∀ n ∈ touched, ¬ p.Reached n) :
    q.computeRegistries = p.computeRegistries := by
  have trees : q.roots.flatMap q.preorder = p.roots.flatMap p.preorder := by
    rw [grows.roots]
    refine List.flatMap_congr fun r root => ?_
    refine grows.preorder sound.forest soundQ.forest (sound.rooted.live_of_root root) ?_
    exact fun m member live below =>
      hidden m member (sound.reached_iff.mpr ⟨live, r, root, below⟩)
  unfold Program.computeRegistries
  rw [trees]
  exact grows.foldl_enter sound fun n => sound.live_of_traversal

/-- Growth out of reach keeps registries that are in order. -/
theorem Ordered.grow (ordered : p.Ordered) (grows : Grows p touched claimed q) (sound : p.Sound)
    (soundQ : q.Sound) (hidden : ∀ n ∈ touched, ¬ p.Reached n)
    (registries : q.registries = p.registries) : q.Ordered := by
  rw [Ordered, registries, ordered, grows.computeRegistries sound soundQ hidden]

/-- A detached tree is out of reach. -/
theorem not_reached_of_top (sound : p.Sound) {n : NodeId} (top : p.parent? n = none)
    (free : n ∉ p.roots) : ¬ p.Reached n := by
  intro reached
  obtain ⟨_, r, root, above⟩ := sound.reached_iff.mp reached
  exact free (above.eq_of_top top ▸ root)

theorem SameTree.isAttached (same : SameTree p q) (roots : q.roots = p.roots) (n : NodeId) :
    q.isAttached n = p.isAttached n := by
  have root : q.isRoot = p.isRoot := by
    funext n
    rw [isRoot, roots, isRoot]
  have live : (fun n => (q.node n).live) = fun n => (p.node n).live := funext same.live
  simp only [Program.isAttached, same.path, root, live]

/-- What attaching a tree does to the registries: the nodes of the tree come to the end, if the tree
comes within reach. -/
theorem registries_adopt {t : Program} {owner node : NodeId}
    (forest : (t.setParent node (some owner)).Forest) (live : t.Live node) :
    (t.adopt owner node).registries =
      if (t.adopt owner node).isAttached owner then
        ((t.adopt owner node).preorder node).foldl (t.adopt owner node).enter t.registries
      else t.registries := by
  rw [adopt]
  have kept : t.registries = (t.setParent node (some owner)).registries := rfl
  have liveL : (t.setParent node (some owner)).Live node := by rwa [Live, live_setParent]
  rw [kept]
  generalize t.setParent node (some owner) = linked at *
  have rescoped : Rescoped linked node (linked.scopeBelow owner)
      (rescope (linked.nodes.size + 1) node (linked.scopeBelow owner) linked) :=
    rescope_spec forest liveL (by omega) _
  generalize rescope (linked.nodes.size + 1) node (linked.scopeBelow owner) linked = u at *
  have registries : u.registries = linked.registries := by rw [rescoped.rest]
  generalize linked.scopeBelow owner = scope
  have nodes : ((if u.isAttached owner then u.registerSubtree node else u).touch scope).nodes =
      u.nodes := by
    rw [nodes_touch]
    split <;> rfl
  have symbol (s : SymbolId) :
      (((if u.isAttached owner then u.registerSubtree node else u).touch scope).symbol s).kind =
        (u.symbol s).kind := by
    rw [symbol_touch]
    split <;> rfl
  have modules : ((if u.isAttached owner then u.registerSubtree node else u).touch scope).modules =
      u.modules := by
    rw [modules_touch]
    split <;> rfl
  have listed := registries_touch (if u.isAttached owner then u.registerSubtree node else u) scope
  generalize (if u.isAttached owner then u.registerSubtree node else u).touch scope = q at *
  have same := sameTree_of_nodes nodes
  have roots : q.roots = u.roots := by
    rw [Program.roots, Program.roots, modules]
    refine List.filterMap_congr fun m _ => ?_
    rw [moduleBlock?, Symbol.moduleBlock?, symbol, moduleBlock?, Symbol.moduleBlock?]
  rw [listed, same.isAttached roots]
  have order : q.preorder node = u.preorder node :=
    preorder_congr same.size (fun _ (_ : True) _ _ => trivial) (fun n _ => same.kind n)
      (fun n _ => same.live n) trivial
  have entered : q.enter = u.enter := by
    funext r n
    refine enter_congr ?_ (fun s _ => by rw [symbol]) r
    rw [same.kind]
    exact .refl _
  split
  · rw [registerSubtree, order, entered, registries]
  · exact registries

/-- The walk over a program that has got one more statement at the end of its last module. -/
theorem traversal_append (sound : p.Sound) {block node : NodeId}
    (result : p.append block node = .ok q) (isBlock : (p.kind block).isBlock = true)
    (last : p.roots.getLast? = some block) :
    q.roots.flatMap q.preorder = p.roots.flatMap p.preorder ++ q.preorder node := by
  have edit := append_edit sound result
  have forest := sound.forest
  have forestQ := (edit.sound sound).forest
  obtain ⟨front, roots⟩ := List.getLast?_eq_some_iff.mp last
  have root : block ∈ p.roots := by simp [roots]
  have top := sound.rooted.top_of_root root
  have live := sound.rooted.live_of_root root
  have topN := edit.come_top rfl
  have unchanged {a : NodeId} (liveA : p.Live a) (otherB : a ≠ block) (otherN : a ≠ node) :
      q.preorder a = p.preorder a := by
    refine edit.grows.preorder forest forestQ liveA fun m member _ above => ?_
    rcases List.mem_pair.mp member with rfl | rfl
    · exact otherB (above.eq_of_top top)
    · exact otherN (above.eq_of_top topN)
  have others : front.flatMap q.preorder = front.flatMap p.preorder := by
    refine List.flatMap_congr fun r member => ?_
    have rootR : r ∈ p.roots := by simp [roots, member]
    have distinct := sound.rooted.roots_nodup
    rw [roots] at distinct
    refine unchanged (sound.rooted.live_of_root rootR) ?_ ?_
    · rintro rfl
      exact (List.nodup_append'.mp distinct).2.2 member List.mem_cons_self
    · rintro rfl
      exact edit.come_free rfl rootR
  obtain ⟨ids, list, kinds⟩ : ∃ ids, p.kind block = .block ids ∧ q.kind block = .block (ids ++ [node]) := by
    obtain ⟨attachable, ids, list, rfl⟩ := (append_eq_ok_iff forest).mp result
    rw [kind_adopt, kind_setKind attachable.owner_live.known, if_pos rfl]
    cases kind : p.kind block <;> simp [kind, NodeKind.isBlock] at isBlock
    cases (kind ▸ list : (NodeKind.block _).childList? = some ids)
    exact ⟨ids, rfl, rfl⟩
  have statements : ids.flatMap q.preorder = ids.flatMap p.preorder := by
    refine List.flatMap_congr fun c member => ?_
    have child : c ∈ p.children block := by rwa [children, list]
    refine unchanged (forest.child_live live child) (forest.child_ne live child) ?_
    rintro rfl
    have link := forest.child_parent live child
    rw [topN] at link
    cases link
  rw [edit.roots, roots, List.flatMap_append, List.flatMap_append, others, List.flatMap_singleton,
    List.flatMap_singleton, forestQ.preorder_eq, forest.preorder_eq, if_pos live,
    if_pos (edit.grows.live live), children, children, list, kinds, NodeKind.children,
    NodeKind.children, List.flatMap_append, List.flatMap_singleton, statements]
  simp

/-- Statements that come to the end of the last module keep the registries in order, and so does a
statement of a detached block. -/
theorem Ordered.append (ordered : p.Ordered) (sound : p.Sound) {block node : NodeId}
    (result : p.append block node = .ok q) (isBlock : (p.kind block).isBlock = true)
    (top : p.parent? block = none) (last : block ∈ p.roots → p.roots.getLast? = some block) :
    q.Ordered := by
  have edit := append_edit sound result
  have soundQ := edit.sound sound
  have grows := edit.grows
  have listed : q.registries = if q.isAttached block then
      (q.preorder node).foldl q.enter p.registries else p.registries := by
    obtain ⟨attachable, ids, list, rfl⟩ := (append_eq_ok_iff sound.forest).mp result
    refine registries_adopt ((link_relink sound attachable list List.perm_append_comm).forest
      sound.forest) ?_
    rw [Live, live_setKind]
    exact attachable.live
  by_cases root : block ∈ p.roots
  · have attached : q.isAttached block = true :=
      soundQ.isAttached_iff.mpr (soundQ.reached_iff.mpr
        ⟨grows.live (sound.rooted.live_of_root root), block, grows.roots ▸ root, .refl⟩)
    rw [if_pos attached, ordered] at listed
    rw [Ordered, listed, computeRegistries, computeRegistries,
      traversal_append sound result isBlock (last root), List.foldl_append,
      grows.foldl_enter sound fun n => sound.live_of_traversal]
  · have hidden := not_reached_of_top sound top root
    have detached : q.isAttached block = false := by
      rw [Bool.eq_false_iff]
      intro attached
      rcases (edit.reached_iff sound).mp (soundQ.isAttached_iff.mp attached) with ⟨old, _⟩ | ⟨old, _⟩
      · exact hidden old
      · exact hidden old
    rw [detached] at listed
    refine ordered.grow grows sound soundQ (fun n member => ?_) listed
    rcases List.mem_pair.mp member with rfl | rfl
    · exact hidden
    · exact not_reached_of_top sound (edit.come_top rfl) (edit.come_free rfl)

end Program

end MiddleEnd
