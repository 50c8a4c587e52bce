import MiddleEnd.Proofs.Arena.Sound

namespace MiddleEnd.Program

variable {p : Program}

/-! A new symbol. -/

theorem symbol_addSymbol (sym : Symbol) (s : SymbolId) :
    (p.addSymbol sym).2.symbol s = if s = (p.addSymbol sym).1 then sym else p.symbol s := by
  simp only [symbol, addSymbol, Array.getD_eq_getD_getElem?, Array.getElem?_push,
    ← SymbolId.index_inj]
  split <;> simp_all

theorem symbol_addSymbol_of_known (sym : Symbol) {s : SymbolId} (known : s.index < p.symbols.size) :
    (p.addSymbol sym).2.symbol s = p.symbol s := by
  rw [symbol_addSymbol, if_neg]
  rintro rfl
  exact Nat.lt_irrefl _ known

theorem Rooted.known_of_module (rooted : p.Rooted) {m : SymbolId} (member : m ∈ p.modules) :
    m.index < p.symbols.size :=
  symbol_known_of_live (rooted.symbol_live member)

theorem Sound.addSymbol (sound : p.Sound) {sym : Symbol} (live : sym.live = true) :
    (p.addSymbol sym).2.Sound := by
  have old {s : SymbolId} (known : s.index < p.symbols.size) := symbol_addSymbol_of_known sym known
  have blocks {m : SymbolId} (member : m ∈ p.modules) :
      (p.addSymbol sym).2.moduleBlock? m = p.moduleBlock? m := by
    rw [moduleBlock?, old (sound.rooted.known_of_module member), moduleBlock?]
  have roots : (p.addSymbol sym).2.roots = p.roots := List.filterMap_congr fun m => blocks
  have links : SameLinks p (p.addSymbol sym).2 := ⟨rfl, fun _ => rfl, fun _ => rfl, fun _ => rfl⟩
  exact
    { forest := links.forest sound.forest
      rooted :=
        { modules_nodup := sound.rooted.modules_nodup
          symbol_live := fun {m} member => by
            rw [old (sound.rooted.known_of_module member)]
            exact sound.rooted.symbol_live member
          sort_module := fun {m} member => by
            rw [blocks member]
            exact sound.rooted.sort_module member
          root_live := fun member block => sound.rooted.root_live member (blocks member ▸ block)
          root_top := fun member block => sound.rooted.root_top member (blocks member ▸ block)
          root_block := fun member block => sound.rooted.root_block member (blocks member ▸ block)
          root_scope := fun member block => sound.rooted.root_scope member (blocks member ▸ block) }
      scope_below := fun reached child => sound.scope_below ((links.reached_iff roots).mp reached) child
      bound := fun {n s} defines => by
        rw [old (sound.bound_known defines)]
        exact sound.bound defines
      bound_known := fun {n s} defines => by
        have known := sound.bound_known defines
        simp only [Program.addSymbol, Array.size_push]
        omega
      bound_local := sound.bound_local
      symbol_live := fun {s} known lives => by
        rw [symbol_addSymbol]
        split
        · exact live
        · rename_i other
          refine sound.symbol_live ?_ lives
          rw [← SymbolId.index_inj] at other
          simp only [Program.addSymbol, Array.size_push] at known other
          omega
      exact :=
        { distinct := sound.exact.distinct
          mem_calls := fun {n} => by
            rw [links.reached_iff roots]
            exact sound.exact.mem_calls
          mem_entries := fun {s sort} => by
            simp only [links.reached_iff roots]
            refine Iff.trans sound.exact.mem_entries (and_congr_right fun entered => ?_)
            have known : s.index < p.symbols.size := by
              rcases entered with isModule | ⟨n, _, defines⟩
              · exact sound.rooted.known_of_module isModule
              · exact sound.bound_known defines
            rw [old known] } }

/-! A new node. -/

/-- What a new node may be made of: live nodes without an owner, each used once, and a symbol
that nothing defines yet. -/
structure Buildable (p : Program) (kind : NodeKind) : Prop where
  child_live {c : NodeId} : c ∈ kind.children → p.Live c
  child_top {c : NodeId} : c ∈ kind.children → p.parent? c = none
  child_free {c : NodeId} : c ∈ kind.children → c ∉ p.roots
  children_nodup : kind.children.Nodup
  defines_known {s : SymbolId} : kind.defines? = some s → s.index < p.symbols.size
  defines_local {s : SymbolId} : kind.defines? = some s → s ∉ p.modules
  defines_new {s : SymbolId} : kind.defines? = some s → ∀ n, (p.kind n).defines? ≠ some s

/-- The program `q` is `p` with one more node, detached, that owns the children its kind names. -/
structure Built (p : Program) (kind : NodeKind) (id : NodeId) (q : Program) : Prop where
  id_eq : id = ⟨p.nodes.size⟩
  size : q.nodes.size = p.nodes.size + 1
  kind_eq (n : NodeId) : q.kind n = if n = id then kind else p.kind n
  parent (n : NodeId) : q.parent? n = if n ∈ kind.children then some id else p.parent? n
  live (n : NodeId) : (q.node n).live = if n = id then true else (p.node n).live
  scope (n : NodeId) : q.scope? n = p.scope? n
  modules : q.modules = p.modules
  registries : q.registries = p.registries
  symbols_size : q.symbols.size = p.symbols.size
  symbol_eq (s : SymbolId) :
    q.symbol s = if kind.defines? = some s then { p.symbol s with decl := some id } else p.symbol s

theorem node_push (node : Node) (n : NodeId) :
    ({ p with nodes := p.nodes.push node } : Program).node n =
      if n = ⟨p.nodes.size⟩ then node else p.node n := by
  simp only [Program.node, Array.getD_eq_getD_getElem?, Array.getElem?_push, ← NodeId.index_inj]
  split <;> simp_all

/-- Nothing stands yet where the next node will be. -/
theorem node_next : p.node ⟨p.nodes.size⟩ = .absent := node_of_not_known (Nat.le_refl _)

/-- Giving many nodes one owner. -/
theorem foldl_setParent (ids : List NodeId) (owner : NodeId) (t : Program)
    (known : ∀ c ∈ ids, c.index < t.nodes.size) :
    let q := ids.foldl (fun t c => t.setParent c (some owner)) t
    q.nodes.size = t.nodes.size ∧ q.symbols = t.symbols ∧ q.modules = t.modules ∧
      q.registries = t.registries ∧ ∀ n, q.kind n = t.kind n ∧ (q.node n).live = (t.node n).live ∧
        q.scope? n = t.scope? n ∧ q.parent? n = if n ∈ ids then some owner else t.parent? n := by
  induction ids generalizing t with
  | nil => simp
  | cons c ids ih =>
    have knownC := known c List.mem_cons_self
    obtain ⟨size, symbols, modules, registries, node⟩ :=
      ih (t.setParent c (some owner)) fun d member => by
        rw [size_setParent]
        exact known d (List.mem_cons_of_mem _ member)
    refine ⟨size.trans (size_setParent ..), symbols, modules, registries, fun n => ?_⟩
    obtain ⟨kind, live, scope, parent⟩ := node n
    refine ⟨kind.trans (kind_setParent ..), live.trans (live_setParent ..),
      scope.trans (scope?_setParent ..), parent.trans ?_⟩
    rw [parent?_setParent knownC]
    by_cases same : n = c <;> by_cases later : n ∈ ids <;> simp [same, later]

/-- Giving nodes an owner changes no construct, no symbol and no place. -/
theorem foldl_setParent_same (ids : List NodeId) (owner : NodeId) (p : Program) :
    let q := ids.foldl (fun p c => p.setParent c (some owner)) p
    (∀ n, q.kind n = p.kind n) ∧ q.symbols = p.symbols ∧ q.nodes.size = p.nodes.size := by
  induction ids generalizing p with
  | nil => exact ⟨fun _ => rfl, rfl, rfl⟩
  | cons c ids ih =>
    obtain ⟨kinds, symbols, size⟩ := ih (p.setParent c (some owner))
    exact ⟨fun n => (kinds n).trans (kind_setParent ..), symbols, size.trans (size_setParent ..)⟩

theorem kind_addNode (k : NodeKind) (span : Span) (n : NodeId) :
    (p.addNode k span).2.kind n = if n = ⟨p.nodes.size⟩ then k else p.kind n := by
  have pushed := node_push (p := p) { kind := k, span := span } n
  obtain ⟨adopted, _⟩ := foldl_setParent_same k.children ⟨p.nodes.size⟩
    { p with nodes := p.nodes.push { kind := k, span := span } }
  simp only [addNode]
  split
  · rw [kind, node_modifySymbol, ← kind, adopted, kind, pushed]
    split <;> rfl
  · rw [adopted, kind, pushed]
    split <;> rfl

/-- Only the declaration of a symbol is new. -/
theorem symbol_addNode (k : NodeKind) (span : Span) (s : SymbolId) :
    (p.addNode k span).2.symbol s =
      { p.symbol s with decl := ((p.addNode k span).2.symbol s).decl } := by
  obtain ⟨_, symbols, _⟩ := foldl_setParent_same k.children ⟨p.nodes.size⟩
    { p with nodes := p.nodes.push { kind := k, span := span } }
  have same := symbol_of_symbols symbols s
  simp only [addNode]
  split
  · rw [symbol_modifySymbol, same]
    split <;> rfl
  · rw [same]
    rfl

theorem size_addNode (k : NodeKind) (span : Span) :
    (p.addNode k span).2.nodes.size = p.nodes.size + 1 ∧
      (p.addNode k span).2.symbols.size = p.symbols.size := by
  obtain ⟨_, symbols, size⟩ := foldl_setParent_same k.children ⟨p.nodes.size⟩
    { p with nodes := p.nodes.push { kind := k, span := span } }
  rw [Array.size_push] at size
  simp only [addNode]
  split
  · exact ⟨size, by rw [size_modifySymbol, symbols]⟩
  · exact ⟨size, by rw [symbols]⟩

theorem Buildable.child_known {kind : NodeKind} (buildable : p.Buildable kind) {c : NodeId}
    (child : c ∈ kind.children) : c.index < p.nodes.size :=
  (buildable.child_live child).known

theorem addNode_built {kind : NodeKind} (buildable : p.Buildable kind) (span : Span) :
    Built p kind (p.addNode kind span).1 (p.addNode kind span).2 := by
  have pushed (n : NodeId) := node_push { kind := kind, span := span } n (p := p)
  obtain ⟨size, symbols, modules, registries, node⟩ :=
    foldl_setParent kind.children ⟨p.nodes.size⟩
      { p with nodes := p.nodes.push { kind := kind, span := span } } fun c child => by
        have known := buildable.child_known child
        simp only [Array.size_push]
        omega
  simp only [addNode]
  generalize kind.children.foldl (fun t c => t.setParent c (some ⟨p.nodes.size⟩))
    { p with nodes := p.nodes.push { kind := kind, span := span } } = t at *
  have kinds (n : NodeId) : t.kind n = if n = ⟨p.nodes.size⟩ then kind else p.kind n := by
    rw [(node n).1, Program.kind, pushed]
    split <;> rfl
  have lives (n : NodeId) :
      (t.node n).live = if n = ⟨p.nodes.size⟩ then true else (p.node n).live := by
    rw [(node n).2.1, pushed]
    split <;> rfl
  have scopes (n : NodeId) : t.scope? n = p.scope? n := by
    rw [(node n).2.2.1, scope?, pushed]
    split
    · rename_i same
      rw [same, scope?, node_next]
      rfl
    · rfl
  have parents (n : NodeId) :
      t.parent? n = if n ∈ kind.children then some ⟨p.nodes.size⟩ else p.parent? n := by
    rw [(node n).2.2.2, parent?, pushed]
    split
    · rfl
    · split
      · rename_i same
        rw [same, parent?, node_next]
        rfl
      · rfl
  rw [Array.size_push] at size
  have symbolT (s : SymbolId) : t.symbol s = p.symbol s := symbol_of_symbols symbols s
  cases defines : kind.defines? with
  | none =>
    exact ⟨rfl, size, kinds, parents, lives, scopes, modules, registries, congrArg Array.size symbols,
      fun s => by simp [symbolT, defines]⟩
  | some sym =>
    refine ⟨rfl, size, kinds, parents, lives, scopes, modules, registries,
      (size_modifySymbol ..).trans (congrArg Array.size symbols), fun s => ?_⟩
    rw [symbol_modifySymbol, symbolT, symbols, defines]
    have known := buildable.defines_known defines
    by_cases same : s = sym
    · simp [same, known]
    · simp [same, Ne.symm same]

namespace Built

variable {q : Program} {kind : NodeKind} {id : NodeId}

theorem unknown (built : Built p kind id q) : p.node id = .absent := by
  rw [built.id_eq, node_next]

theorem ne_of_live (built : Built p kind id q) {n : NodeId} (live : p.Live n) : n ≠ id := by
  rintro rfl
  rw [Live, built.unknown] at live
  cases live

theorem kind_id (built : Built p kind id q) : q.kind id = kind := by
  rw [built.kind_eq, if_pos rfl]

theorem kind_of_ne (built : Built p kind id q) {n : NodeId} (other : n ≠ id) :
    q.kind n = p.kind n := by
  rw [built.kind_eq, if_neg other]

theorem children_of_ne (built : Built p kind id q) {n : NodeId} (other : n ≠ id) :
    q.children n = p.children n := by
  rw [children, built.kind_of_ne other, children]

theorem live_id (built : Built p kind id q) : q.Live id := by
  rw [Live, built.live, if_pos rfl]

theorem live_iff (built : Built p kind id q) {n : NodeId} : q.Live n ↔ n = id ∨ p.Live n := by
  rw [Live, built.live]
  split
  · rename_i same
    simp [same]
  · rename_i other
    simp [other]

theorem live_of_live (built : Built p kind id q) {n : NodeId} (live : p.Live n) : q.Live n :=
  built.live_iff.mpr (.inr live)

/-- Only a child of the new node has a new owner. -/
theorem parent_cases (built : Built p kind id q) {n owner : NodeId}
    (link : q.parent? n = some owner) :
    n ∈ kind.children ∧ owner = id ∨ n ∉ kind.children ∧ p.parent? n = some owner := by
  rw [built.parent] at link
  split at link
  · rename_i child
    exact .inl ⟨child, (Option.some.inj link).symm⟩
  · rename_i other
    exact .inr ⟨other, link⟩

theorem parent_kept (built : Built p kind id q) (buildable : p.Buildable kind) {n owner : NodeId}
    (link : p.parent? n = some owner) : q.parent? n = some owner := by
  rw [built.parent, if_neg, link]
  intro child
  rw [buildable.child_top child] at link
  cases link

theorem parent_id (built : Built p kind id q) (buildable : p.Buildable kind) :
    q.parent? id = none := by
  rw [built.parent, if_neg, parent?, built.unknown]
  · rfl
  · intro child
    exact built.ne_of_live (buildable.child_live child) rfl

theorem above_cases (built : Built p kind id q) (buildable : p.Buildable kind) {a n : NodeId}
    (above : q.Above a n) : p.Above a n ∨ a = id ∧ ∃ c ∈ kind.children, p.Above c n := by
  induction above with
  | refl => exact .inl .refl
  | @up n owner link rest ih =>
    rcases built.parent_cases link with ⟨child, rfl⟩ | ⟨_, old⟩
    · have same := rest.eq_of_top (built.parent_id buildable)
      exact .inr ⟨same, n, child, .refl⟩
    · rcases ih with above | ⟨same, c, child, above⟩
      · exact .inl (.up old above)
      · exact .inr ⟨same, c, child, .up old above⟩

theorem forest (built : Built p kind id q) (buildable : p.Buildable kind) (forest : p.Forest) :
    q.Forest where
  child_live {n c} live child := by
    rcases built.live_iff.mp live with rfl | liveN
    · rw [children, built.kind_id] at child
      exact built.live_of_live (buildable.child_live child)
    · rw [built.children_of_ne (built.ne_of_live liveN)] at child
      exact built.live_of_live (forest.child_live liveN child)
  child_parent {n c} live child := by
    rcases built.live_iff.mp live with rfl | liveN
    · rw [children, built.kind_id] at child
      rw [built.parent, if_pos child]
    · rw [built.children_of_ne (built.ne_of_live liveN)] at child
      exact built.parent_kept buildable (forest.child_parent liveN child)
  children_nodup {n} live := by
    rcases built.live_iff.mp live with rfl | liveN
    · rw [children, built.kind_id]
      exact buildable.children_nodup
    · rw [built.children_of_ne (built.ne_of_live liveN)]
      exact forest.children_nodup liveN
  owner_live {n owner} live link := by
    rcases built.parent_cases link with ⟨_, rfl⟩ | ⟨_, old⟩
    · exact built.live_id
    · rcases built.live_iff.mp live with rfl | liveN
      · rw [parent?, built.unknown] at old
        cases old
      · exact built.live_of_live (forest.owner_live liveN old)
  owner_lists {n owner} live link := by
    rcases built.parent_cases link with ⟨child, rfl⟩ | ⟨_, old⟩
    · rw [children, built.kind_id]
      exact child
    · rcases built.live_iff.mp live with rfl | liveN
      · rw [parent?, built.unknown] at old
        cases old
      · rw [built.children_of_ne (built.ne_of_live (forest.owner_live liveN old))]
        exact forest.owner_lists liveN old
  owner_known {n owner} link := by
    rw [built.size]
    rcases built.parent_cases link with ⟨_, rfl⟩ | ⟨_, old⟩
    · rw [built.id_eq]
      exact Nat.lt_succ_self _
    · exact Nat.lt_succ_of_lt (forest.owner_known old)
  acyclic {n owner} link circle := by
    rcases built.parent_cases link with ⟨child, rfl⟩ | ⟨_, old⟩
    · have same := circle.eq_of_top (built.parent_id buildable)
      exact built.ne_of_live (buildable.child_live child) same
    · rcases built.above_cases buildable circle with above | ⟨rfl, _⟩
      · exact forest.acyclic old above
      · rw [parent?, built.unknown] at old
        cases old

theorem decl_eq (built : Built p kind id q) (s : SymbolId) :
    (q.symbol s).decl = if kind.defines? = some s then some id else (p.symbol s).decl := by
  rw [built.symbol_eq]
  split <;> rfl

theorem symbol_kind (built : Built p kind id q) (s : SymbolId) :
    (q.symbol s).kind = (p.symbol s).kind := by
  rw [built.symbol_eq]
  split <;> rfl

theorem symbol_live (built : Built p kind id q) (s : SymbolId) :
    (q.symbol s).live = (p.symbol s).live := by
  rw [built.symbol_eq]
  split <;> rfl

theorem moduleBlock? (built : Built p kind id q) (s : SymbolId) :
    q.moduleBlock? s = p.moduleBlock? s := by
  rw [Program.moduleBlock?, Symbol.moduleBlock?, built.symbol_kind]
  rfl

theorem roots (built : Built p kind id q) : q.roots = p.roots := by
  rw [Program.roots, built.modules, Program.roots]
  congr 1
  funext s
  exact built.moduleBlock? s

/-- A new node is detached, so nothing more can be reached. -/
theorem reached_iff (built : Built p kind id q) (forest : p.Forest) (rooted : p.Rooted)
    {n : NodeId} : q.Reached n ↔ p.Reached n := by
  constructor
  · intro reached
    induction reached with
    | root root => exact .root (built.roots ▸ root)
    | child _ child ih =>
      rw [built.children_of_ne (built.ne_of_live (ih.live forest rooted))] at child
      exact ih.child child
  · intro reached
    induction reached with
    | root root => exact .root (built.roots ▸ root)
    | child before child ih =>
      refine ih.child ?_
      rwa [built.children_of_ne (built.ne_of_live (before.live forest rooted))]

theorem rooted (built : Built p kind id q) (buildable : p.Buildable kind) (rooted : p.Rooted) :
    q.Rooted where
  modules_nodup := built.modules ▸ rooted.modules_nodup
  symbol_live {m} member := by
    rw [built.modules] at member
    rw [built.symbol_live]
    exact rooted.symbol_live member
  sort_module {m} member := by
    rw [built.modules] at member
    rw [built.moduleBlock?]
    exact rooted.sort_module member
  root_live {m r} member block := by
    rw [built.modules] at member
    rw [built.moduleBlock?] at block
    exact built.live_of_live (rooted.root_live member block)
  root_top {m r} member block := by
    rw [built.modules] at member
    rw [built.moduleBlock?] at block
    rw [built.parent, if_neg, rooted.root_top member block]
    exact fun child => buildable.child_free child (mem_roots.mpr ⟨m, member, block⟩)
  root_block {m r} member block := by
    rw [built.modules] at member
    rw [built.moduleBlock?] at block
    rw [built.kind_of_ne (built.ne_of_live (rooted.root_live member block))]
    exact rooted.root_block member block
  root_scope {m r} member block := by
    rw [built.modules] at member
    rw [built.moduleBlock?] at block
    rw [built.scope]
    exact rooted.root_scope member block

/-- A definition in the new program is an old one or the new node. -/
theorem defines_cases (built : Built p kind id q) {n : NodeId} {s : SymbolId}
    (defines : (q.kind n).defines? = some s) :
    n = id ∧ kind.defines? = some s ∨ n ≠ id ∧ (p.kind n).defines? = some s := by
  rw [built.kind_eq] at defines
  split at defines
  · rename_i same
    exact .inl ⟨same, defines⟩
  · rename_i other
    exact .inr ⟨other, defines⟩

theorem sound (built : Built p kind id q) (buildable : p.Buildable kind) (sound : p.Sound) :
    q.Sound where
  forest := built.forest buildable sound.forest
  rooted := built.rooted buildable sound.rooted
  scope_below {n c} reached child := by
    rw [built.reached_iff sound.forest sound.rooted] at reached
    have other := built.ne_of_live (sound.live_of_reached reached)
    rw [built.children_of_ne other] at child
    rw [built.scope, sound.scope_below reached child]
    exact (scopeBelow_congr (built.kind_of_ne other) (built.scope n)).symm
  bound {n s} defines := by
    rw [built.decl_eq]
    rcases built.defines_cases defines with ⟨rfl, new⟩ | ⟨_, old⟩
    · rw [if_pos new]
    · rw [if_neg fun new => buildable.defines_new new n old]
      exact sound.bound old
  bound_known {n s} defines := by
    rw [built.symbols_size]
    rcases built.defines_cases defines with ⟨_, new⟩ | ⟨_, old⟩
    · exact buildable.defines_known new
    · exact sound.bound_known old
  bound_local {n s} defines := by
    rw [built.modules]
    rcases built.defines_cases defines with ⟨_, new⟩ | ⟨_, old⟩
    · exact buildable.defines_local new
    · exact sound.bound_local old
  symbol_live {s} known lives := by
    rw [built.symbols_size] at known
    rw [built.symbol_live]
    refine sound.symbol_live known fun n defines => ?_
    have other : n ≠ id := by
      rintro rfl
      rw [Program.kind, built.unknown] at defines
      cases defines
    have live := lives n ((congrArg _ (built.kind_of_ne other)).trans defines)
    exact (built.live_iff.mp live).resolve_left other
  exact := by
    rw [built.registries]
    have other {n : NodeId} (reached : p.Reached n) : n ≠ id :=
      built.ne_of_live (sound.live_of_reached reached)
    exact
      { distinct := sound.exact.distinct
        mem_calls := fun {n} => by
          rw [sound.exact.mem_calls, built.reached_iff sound.forest sound.rooted]
          exact and_congr_right fun reached => by rw [built.kind_of_ne (other reached)]
        mem_entries := fun {s sort} => by
          rw [sound.exact.mem_entries, built.symbol_kind, built.modules]
          refine and_congr_left fun _ => or_congr_right (exists_congr fun n => ?_)
          rw [built.reached_iff sound.forest sound.rooted]
          exact and_congr_right fun reached => by rw [built.kind_of_ne (other reached)] }

end Built

end MiddleEnd.Program
