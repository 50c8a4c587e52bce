import MiddleEnd.Proofs.Closure.Frame

namespace MiddleEnd.Program

/-- What closure conversion keeps, from the program `base` that it starts with, until functions
begin to move. -/
structure Stage (base : Program) (pending : NodeId → SymbolId → SymbolId → Prop) (q : Program) :
    Prop where
  base_settled : base.Settled
  settled : q.Settled
  frame : Frame base q
  leads : q.Leads pending

variable {base p q : Program} {pending : NodeId → SymbolId → SymbolId → Prop} {t : NodeId}
  {targets : SymbolId → Prop}

theorem Stage.base_sound (stage : Stage base pending p) : base.Sound := stage.base_settled.sound

/-! New symbols. -/

theorem roots_addSymbol (sound : p.Sound) (sym : Symbol) : (p.addSymbol sym).2.roots = p.roots := by
  rw [roots, roots]
  refine List.filterMap_congr fun m member => ?_
  rw [moduleBlock?, symbol_addSymbol_of_known sym (sound.rooted.known_of_module member), moduleBlock?]

theorem reached_addSymbol (sound : p.Sound) (sym : Symbol) {n : NodeId} :
    (p.addSymbol sym).2.Reached n ↔ p.Reached n :=
  (sameTree_of_nodes (p := p) (q := (p.addSymbol sym).2) rfl).reached_iff (roots_addSymbol sound sym)

theorem above_addSymbol (sym : Symbol) {a n : NodeId} :
    (p.addSymbol sym).2.Above a n ↔ p.Above a n :=
  (sameTree_of_nodes (p := p) (q := (p.addSymbol sym).2) rfl).above_iff

theorem frame_addSymbol (sound : p.Sound) (sym : Symbol) : Frame p (p.addSymbol sym).2 where
  modules := rfl
  roots := roots_addSymbol sound sym
  symbols_size := by simp [addSymbol]
  sort known := by rw [symbol_addSymbol_of_known sym known]
  size := le_refl _
  live _ := id
  tag _ := rfl
  defines _ := rfl
  callee _ := rfl
  kept reached _ := (reached_addSymbol sound sym).mpr reached
  parent _ _ := rfl
  scope _ _ := rfl
  old reached _ := (reached_addSymbol sound sym).mp reached

theorem Tidy.scope_known (tidy : p.Tidy) {n : NodeId} {f : SymbolId} (reached : p.Reached n)
    (scope : p.scope? n = some f) : f.index < p.symbols.size := by
  rcases tidy.sound.scope_cases reached with ⟨m, member, scopeM, _⟩ | ⟨d, g, scopeG, inner⟩
  · rw [scope] at scopeM
    cases scopeM
    exact tidy.sound.rooted.known_of_module member
  · rw [scope] at scopeG
    cases scopeG
    exact tidy.sound.bound_known inner.defines

theorem Stage.addSymbol (stage : Stage base pending p) {sym : Symbol} (live : sym.live = true)
    (uncalled : sym.callers = []) : Stage base pending (p.addSymbol sym).2 := by
  have sound := stage.settled.sound
  have settled := stage.settled.addSymbol live uncalled
  have frame := frame_addSymbol sound sym
  refine
    { base_settled := stage.base_settled
      settled := settled
      frame := stage.frame.trans frame stage.base_sound sound
      leads := fun n v f reached ref scope fn => ?_ }
  have before := (reached_addSymbol sound sym).mp reached
  rw [frame.isFn (stage.settled.scope_known before scope)] at fn
  exact (stage.leads n v f before ref scope fn).imp_left (frame.home sound settled.sound)

theorem Sprig.addSymbol (sprig : p.Sprig t targets) (sound : p.Sound) (sym : Symbol) :
    (p.addSymbol sym).2.Sprig t targets where
  live := sprig.live
  top := sprig.top
  free := (roots_addSymbol sound sym).symm ▸ sprig.free
  plain live above := sprig.plain live ((above_addSymbol sym).mp above)
  leads live above := sprig.leads live ((above_addSymbol sym).mp above)

/-! New nodes. -/

theorem Stage.built (stage : Stage base pending p) {kind : NodeKind} {id : NodeId}
    (built : Built p kind id q) (buildable : p.Buildable kind) (lawful : p.Lawful kind) :
    Stage base pending q where
  base_settled := stage.base_settled
  settled := built.settled buildable lawful stage.settled
  frame := stage.frame.trans (built.frame buildable stage.settled.sound) stage.base_sound
    stage.settled.sound
  leads := built.leads buildable stage.settled.sound stage.leads

/-- What a step that builds a detached tree ends with. -/
structure Sprouts (base : Program) (pending : NodeId → SymbolId → SymbolId → Prop) (p : Program)
    (targets : SymbolId → Prop) (tag : NodeTag) (id : NodeId) (q : Program) : Prop where
  stage : Stage base pending q
  frame : Frame p q
  lives {n : NodeId} : p.Live n → q.Live n
  sprig : q.Sprig id targets
  tag_eq : (q.kind id).tag = tag

theorem Stage.addRef (stage : Stage base pending p) {v : SymbolId}
    (known : v.index < p.symbols.size) (value : (p.symbol v).isValue = true) (span : Span) :
    Sprouts base pending p (· = v) .symRef (p.addRef v span).1 (p.addRef v span).2 := by
  have buildable : p.Buildable (.symRef v) :=
    { child_live := nofun
      child_top := nofun
      child_free := nofun
      children_nodup := List.nodup_nil
      defines_known := nofun
      defines_local := nofun
      defines_new := nofun }
  have lawful : p.Lawful (.symRef v) :=
    { fits := nofun
      defines_known := nofun
      defines_fn := nofun
      defines_local := nofun
      ref_value := fun ref => by cases ref; exact ⟨known, value⟩
      callee_fn := nofun }
  have built := addNode_built buildable span
  exact
    { stage := stage.built built buildable lawful
      frame := built.frame buildable stage.settled.sound
      lives := built.live_of_live
      sprig := built.sprig buildable stage.settled.sound nofun ⟨rfl, rfl⟩
        fun w ref => (Option.some.inj ref).symm
      tag_eq := by rw [Program.addRef, built.kind_id]; rfl }

theorem Stage.addPrim (stage : Stage base pending p) (sprig : p.Sprig t targets)
    (expr : (p.kind t).isExpr = true) (op : PrimOp) (span : Span) :
    Sprouts base pending p targets .prim (p.addNode (.prim op [t]) span).1
      (p.addNode (.prim op [t]) span).2 := by
  have buildable : p.Buildable (.prim op [t]) :=
    { child_live := fun child => List.mem_singleton.mp child ▸ sprig.live
      child_top := fun child => List.mem_singleton.mp child ▸ sprig.top
      child_free := fun child => List.mem_singleton.mp child ▸ sprig.free
      children_nodup := List.nodup_singleton t
      defines_known := nofun
      defines_local := nofun
      defines_new := nofun }
  have lawful : p.Lawful (.prim op [t]) :=
    { fits := fun member => by
        cases List.mem_singleton.mp member
        exact expr
      defines_known := nofun
      defines_fn := nofun
      defines_local := nofun
      ref_value := nofun
      callee_fn := nofun }
  have built := addNode_built buildable span
  exact
    { stage := stage.built built buildable lawful
      frame := built.frame buildable stage.settled.sound
      lives := built.live_of_live
      sprig := built.sprig buildable stage.settled.sound
        (fun c child => List.mem_singleton.mp child ▸ sprig) ⟨rfl, rfl⟩ nofun
      tag_eq := by rw [built.kind_id]; rfl }

/-- A symbol that no node defines yet. -/
structure Undefined (p : Program) (s : SymbolId) : Prop where
  known : s.index < p.symbols.size
  unbound (n : NodeId) : (p.kind n).defines? ≠ some s
  not_fn : (p.symbol s).kind.sort ≠ .fn
  not_module : (p.symbol s).kind.sort ≠ .moduleRoot

theorem undefined_addSymbol (sound : p.Sound) {sym : Symbol} (notFn : sym.kind.sort ≠ .fn)
    (notModule : sym.kind.sort ≠ .moduleRoot) :
    (p.addSymbol sym).2.Undefined (p.addSymbol sym).1 := by
  have new : (p.addSymbol sym).2.symbol (p.addSymbol sym).1 = sym := by
    rw [symbol_addSymbol, if_pos rfl]
  refine ⟨by simp [Program.addSymbol], fun n defines => ?_, by rwa [new], by rwa [new]⟩
  exact Nat.lt_irrefl _ (sound.bound_known (n := n) defines)

theorem Stage.addDefinition (stage : Stage base pending p) {s : SymbolId} (fresh : p.Undefined s)
    (value : Option NodeId) (sprigs : ∀ c ∈ value, p.Sprig c targets)
    (exprs : ∀ c ∈ value, (p.kind c).isExpr = true) (span : Span) :
    Sprouts base pending p targets .define (p.addDefinition s value span).1
      (p.addDefinition s value span).2 ∧
      ((p.addDefinition s value span).2.kind (p.addDefinition s value span).1).defines? = some s := by
  have children {c : NodeId} (child : c ∈ (NodeKind.define s value).children) : c ∈ value :=
    Option.mem_toList.mp child
  have notModule : s ∉ p.modules := by
    intro member
    obtain ⟨r, block⟩ := stage.settled.sound.rooted.sort_module member
    have other := fresh.not_module
    rw [Program.moduleBlock?, Symbol.moduleBlock?] at block
    cases kind : (p.symbol s).kind <;> simp [kind, SymbolKind.sort] at block other
  have buildable : p.Buildable (.define s value) :=
    { child_live := fun child => (sprigs _ (children child)).live
      child_top := fun child => (sprigs _ (children child)).top
      child_free := fun child => (sprigs _ (children child)).free
      children_nodup := by cases value <;> simp [NodeKind.children]
      defines_known := fun defines => by cases defines; exact fresh.known
      defines_local := fun defines => by cases defines; exact notModule
      defines_new := fun defines => by cases defines; exact fresh.unbound }
  have lawful : p.Lawful (.define s value) :=
    { fits := fun member => by
        obtain ⟨d, child, same⟩ := List.mem_map.mp member
        cases same
        exact exprs _ (Option.mem_toList.mp child)
      defines_known := fun defines => by cases defines; exact fresh.known
      defines_fn := fun defines => by
        cases defines
        exact iff_of_false Bool.false_ne_true fresh.not_fn
      defines_local := fun defines => by cases defines; exact fresh.not_module
      ref_value := fun ref => absurd ref (Option.some_ne_none _).symm
      callee_fn := fun callee => absurd callee (Option.some_ne_none _).symm }
  have built := addNode_built buildable span
  refine ⟨?_, by rw [Program.addDefinition, built.kind_id]; rfl⟩
  exact
    { stage := stage.built built buildable lawful
      frame := built.frame buildable stage.settled.sound
      lives := built.live_of_live
      sprig := built.sprig buildable stage.settled.sound
        (fun c child => sprigs c (children child)) ⟨rfl, rfl⟩
        fun _ ref => absurd ref (Option.some_ne_none _).symm
      tag_eq := by rw [Program.addDefinition, built.kind_id]; rfl }

/-! Attaching a detached tree. -/

/-- The detached tree `t` stands below `owner` now. -/
structure Attached (p : Program) (owner t : NodeId) (q : Program) : Prop where
  frame : Frame p q
  reached : q.Reached t
  scope : q.scope? t = p.scopeBelow owner
  defines : (q.kind t).defines? = (p.kind t).defines?
  lives {n : NodeId} : p.Live n → q.Live n

theorem Edit.attached {owner : NodeId} (edit : Edit p owner none (some t) none q) (sound : p.Sound)
    (sprig : p.Sprig t targets) (reached : p.Reached owner) : Attached p owner t q where
  frame := edit.frame sound sprig fun _ _ below => absurd below not_under_none
  reached := (edit.reached_iff sound).mpr (.inr ⟨reached, sprig.live, t, rfl, .refl⟩)
  scope := edit.scope_sprig sound sprig sprig.live .refl
  defines := (edit.head t).defines
  lives live := edit.live.mpr ⟨live, not_under_none⟩

theorem Stage.edit (stage : Stage base pending p) {owner : NodeId} {gone : Option NodeId}
    (edit : Edit p owner gone (some t) gone q) (settled : q.Settled) (sprig : p.Sprig t targets)
    (exprs : ∀ n, p.Live n → p.Under gone n → (p.kind n).isExpr = true)
    (fresh : ∀ n v f, targets v → p.scopeBelow owner = some f → p.isFn f = true →
      p.Home v f ∨ pending n f v) : Stage base pending q where
  base_settled := stage.base_settled
  settled := settled
  frame := stage.frame.trans (edit.frame stage.settled.sound sprig exprs) stage.base_sound
    stage.settled.sound
  leads := edit.leads stage.settled.sound sprig exprs stage.leads fresh

theorem Stage.append (stage : Stage base pending p) {owner : NodeId} (sprig : p.Sprig t targets)
    (result : p.append owner t = .ok q) (fits : p.Fits t (p.kind owner).listSlot)
    (reached : p.Reached owner)
    (fresh : ∀ n v f, targets v → p.scopeBelow owner = some f → p.isFn f = true →
      p.Home v f ∨ pending n f v) : Stage base pending q ∧ Attached p owner t q := by
  have edit := append_edit stage.settled.sound result
  have settled := append_settled stage.settled result fits
  exact ⟨stage.edit edit settled sprig (fun n _ below => absurd below not_under_none) fresh,
    edit.attached stage.settled.sound sprig reached⟩

/-- The node stands in a block. -/
def Standing (p : Program) (n : NodeId) : Prop :=
  p.Reached n ∧ ∃ b, p.parent? n = some b ∧ (p.kind b).isBlock = true

theorem Standing.scopeBelow (standing : p.Standing t) (sound : p.Sound) {b : NodeId}
    (link : p.parent? t = some b) : p.Reached b ∧ p.scopeBelow b = p.scope? t := by
  obtain ⟨reached, _⟩ := standing
  have owner := sound.forest.reached_owner sound.rooted reached link
  have child := sound.forest.owner_lists (sound.live_of_reached reached) link
  exact ⟨owner, (sound.scope_below owner child).symm⟩

theorem Frame.standing (frame : Frame p q) (sound : p.Sound) {n : NodeId} (standing : p.Standing n)
    (live : q.Live n) : q.Standing n := by
  obtain ⟨reached, b, link, block⟩ := standing
  have owner := sound.forest.reached_owner sound.rooted reached link
  refine ⟨frame.kept reached (.inr live), b, (frame.parent reached live).trans link, ?_⟩
  rw [isBlock_of_tag (frame.tag (sound.live_of_reached owner).known)]
  exact block

/-! A detached tree is accepted wherever there is a place for it. -/

/-- Roots are blocks, so all else that can be reached has an owner. -/
theorem Sound.exists_owner (sound : p.Sound) {n : NodeId} (reached : p.Reached n)
    (notBlock : (p.kind n).isBlock = false) : ∃ owner, p.parent? n = some owner ∧ p.Reached owner := by
  cases reached with
  | root root =>
    obtain ⟨m, member, block⟩ := mem_roots.mp root
    rw [sound.rooted.root_block member block] at notBlock
    cases notBlock
  | @child owner n reached child =>
    exact ⟨owner, sound.forest.child_parent (sound.live_of_reached reached) child, reached⟩

theorem Sprig.append (sprig : p.Sprig t targets) (sound : p.Sound) {owner : NodeId}
    (reached : p.Reached owner) {ids : List NodeId} (list : (p.kind owner).childList? = some ids) :
    ∃ q, p.append owner t = .ok q :=
  ⟨_, (append_eq_ok_iff sound.forest).mpr ⟨sprig.attachable sound reached, ids, list, rfl⟩⟩

theorem Sprig.insertBefore (sprig : p.Sprig t targets) (sound : p.Sound) {anchor : NodeId}
    (standing : p.Standing anchor) : ∃ q, p.insertBefore anchor t = .ok q := by
  obtain ⟨reached, b, link, isBlock⟩ := standing
  have live := sound.live_of_reached reached
  have listed := sound.forest.owner_lists live link
  cases block : p.kind b <;> simp [block, NodeKind.isBlock] at isBlock
  rename_i stmts
  rw [children, block] at listed
  have attachable := sprig.attachable sound (sound.forest.reached_owner sound.rooted reached link)
  exact ⟨_, (insertNear_eq_ok_iff sound.forest).mpr
    ⟨b, ⟨live, link⟩, attachable, stmts, by rw [block]; rfl, listed, rfl⟩⟩

theorem Sprig.replace (sprig : p.Sprig t targets) (sound : p.Sound) {old : NodeId}
    (reached : p.Reached old) (expr : (p.kind old).isExpr = true) :
    ∃ q, p.replace old t = .ok q := by
  obtain ⟨owner, link, reachedOwner⟩ :=
    sound.exists_owner reached (NodeKind.isBlock_of_expr expr)
  exact ⟨_, (replace_eq_ok_iff sound.forest).mpr ⟨owner, ⟨sound.live_of_reached reached, link⟩,
    sprig.attachable sound reachedOwner, rfl⟩⟩

theorem Stage.insertBefore (stage : Stage base pending p) {anchor : NodeId}
    (sprig : p.Sprig t targets) (result : p.insertBefore anchor t = .ok q)
    (standing : p.Standing anchor)
    (fresh : ∀ n v f, targets v → p.scope? anchor = some f → p.isFn f = true →
      p.Home v f ∨ pending n f v) :
    Stage base pending q ∧ ∃ owner, p.scopeBelow owner = p.scope? anchor ∧ Attached p owner t q := by
  have sound := stage.settled.sound
  obtain ⟨owner, link, edit⟩ := insertNear_edit sound result
  obtain ⟨reached, scope⟩ := standing.scopeBelow sound link
  obtain ⟨_, b, linkB, block⟩ := standing
  have settled := insertNear_settled stage.settled result fun owner' link' => by
    rw [linkB] at link'
    cases link'
    exact block
  rw [← scope] at fresh
  exact ⟨stage.edit edit settled sprig (fun n _ below => absurd below not_under_none) fresh,
    owner, scope, edit.attached sound sprig reached⟩

/-- An expression gives way to a detached tree. -/
theorem Stage.replace (stage : Stage base pending p) {old : NodeId} (sprig : p.Sprig t targets)
    (result : p.replace old t = .ok q) (expr : (p.kind old).isExpr = true)
    (reached : p.Reached old)
    (fits : ∀ {owner slot}, p.parent? old = some owner → (slot, old) ∈ (p.kind owner).slots →
      p.Fits t slot)
    (fresh : ∀ n v f, targets v → p.scope? old = some f → p.isFn f = true →
      p.Home v f ∨ pending n f v) :
    Stage base pending q ∧ Frame p q ∧ ∀ n, p.Above old n → ¬ q.Live n := by
  have sound := stage.settled.sound
  obtain ⟨owner, link, edit⟩ := replace_edit sound result
  have exprs (n : NodeId) (live : p.Live n) (below : p.Under (some old) n) :
      (p.kind n).isExpr = true := by
    obtain ⟨_, same, above⟩ := below
    cases same
    exact stage.settled.expr_of_above expr live above
  have settled := replace_settled stage.settled result fits fun n live above =>
    NodeKind.defines?_of_expr (exprs n live ⟨old, rfl, above⟩)
  have child := sound.forest.owner_lists (sound.live_of_reached reached) link
  have reachedOwner := sound.forest.reached_owner sound.rooted reached link
  rw [sound.scope_below reachedOwner child] at fresh
  refine ⟨stage.edit edit settled sprig exprs fresh, edit.frame sound sprig exprs, ?_⟩
  exact fun n above live => (edit.live.mp live).2 ⟨old, rfl, above⟩

/-! Other changes. -/

theorem Relabel.frame (change : Relabel p q) : Frame p q where
  modules := change.modules
  roots := change.roots
  symbols_size := change.symbols_size.ge
  sort _ := change.sort _
  size := change.sameTree.size.ge
  live {n} _ live := by rwa [Live, change.node] at live
  tag _ := by rw [change.kind]
  defines _ := by rw [change.kind]
  callee _ := by rw [change.kind]
  kept reached _ := change.reached_iff.mpr reached
  parent {n} _ _ := change.sameTree.parent n
  scope {n} _ _ := change.scope n
  old reached _ := change.reached_iff.mp reached

theorem Stage.relabel (stage : Stage base pending p) (change : Relabel p q) :
    Stage base pending q := by
  have settled := change.settled stage.settled
  refine
    { base_settled := stage.base_settled
      settled := settled
      frame := stage.frame.trans change.frame stage.base_sound stage.settled.sound
      leads := fun n v f reached ref scope fn => ?_ }
  rw [change.kind] at ref
  rw [change.scope] at scope
  rw [isFn_iff_sort, change.sort, ← isFn_iff_sort] at fn
  exact (stage.leads n v f (change.reached_iff.mp reached) ref scope fn).imp_left
    (change.frame.home stage.settled.sound settled.sound)

theorem Stage.setRef (stage : Stage base pending p) {node : NodeId} {v f : SymbolId}
    (result : p.setRef node v = .ok q) (known : v.index < p.symbols.size)
    (value : (p.symbol v).isValue = true) (scope : p.scope? node = some f) (home : p.Home v f) :
    Stage base pending q ∧ Frame p q ∧ (q.kind node).symRef? = some v := by
  have change := setRef_retarget result
  have settled := setRef_settled stage.settled result known value
  obtain ⟨live, ⟨old, kind⟩, equal⟩ := setRef_eq_ok_iff.mp result
  have kinds (n : NodeId) : q.kind n = if n = node then .symRef v else p.kind n := by
    rw [equal, Program.kind, node_of_nodes (nodes_touch ..), ← Program.kind, kind_setKind live.known]
  have frame : Frame p q :=
    { modules := change.modules
      roots := change.roots
      symbols_size := change.symbols_size.ge
      sort := fun _ => Symbol.sort_of_core (change.core _)
      size := change.size.ge
      live := fun _ => change.live_iff.mp
      tag := fun _ => change.tag _
      defines := fun _ => change.defines _
      callee := fun {n} _ => by
        rw [kinds]
        split
        · rename_i same
          rw [same, kind]
          rfl
        · rfl
      kept := fun reached _ => change.reached.mpr reached
      parent := fun {n} _ _ => change.parent n
      scope := fun {n} _ _ => change.scope n
      old := fun reached _ => change.reached.mp reached }
  refine ⟨?_, frame, by rw [kinds, if_pos rfl]; rfl⟩
  refine
    { base_settled := stage.base_settled
      settled := settled
      frame := stage.frame.trans frame stage.base_sound stage.settled.sound
      leads := fun n w g reached ref scopeN fn => ?_ }
  rw [change.scope] at scopeN
  rw [isFn, Symbol.isFn_of_core (change.core g)] at fn
  refine Or.imp_left (frame.home stage.settled.sound settled.sound) ?_
  rw [kinds] at ref
  split at ref
  · rename_i same
    cases ref
    rw [same, scope] at scopeN
    cases scopeN
    exact .inl home
  · exact stage.leads n w g (change.reached.mp reached) ref scopeN fn

end MiddleEnd.Program
