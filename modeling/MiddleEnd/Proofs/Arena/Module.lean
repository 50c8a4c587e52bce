import MiddleEnd.Proofs.Arena.Growth

namespace MiddleEnd.Program

variable {p : Program}

theorem Sound.empty : Program.empty.Sound := by
  have absent (n : NodeId) : Program.empty.node n = .absent := node_of_not_known (Nat.zero_le _)
  have dead (n : NodeId) : ¬ Program.empty.Live n := by simp [Live, absent, Node.absent]
  have top (n : NodeId) : Program.empty.parent? n = none := by simp [parent?, absent, Node.absent]
  have silent (n : NodeId) : (Program.empty.kind n).defines? = none := by
    rw [Program.kind, absent]
    rfl
  have unreached (n : NodeId) : ¬ Program.empty.Reached n := by
    intro reached
    induction reached with
    | root root => simp [Program.roots, Program.empty] at root
    | child _ _ ih => exact ih
  exact
    { forest :=
        { child_live := fun live => absurd live (dead _)
          child_parent := fun live => absurd live (dead _)
          children_nodup := fun live => absurd live (dead _)
          owner_live := fun live => absurd live (dead _)
          owner_lists := fun live => absurd live (dead _)
          owner_known := fun {n owner} link => by simp [top] at link
          acyclic := fun {n owner} link => by simp [top] at link }
      rooted :=
        { modules_nodup := List.nodup_nil
          symbol_live := fun member => absurd member List.not_mem_nil
          sort_module := fun member => absurd member List.not_mem_nil
          root_live := fun member => absurd member List.not_mem_nil
          root_top := fun member => absurd member List.not_mem_nil
          root_block := fun member => absurd member List.not_mem_nil
          root_scope := fun member => absurd member List.not_mem_nil }
      scope_below := fun reached => absurd reached (unreached _)
      bound := fun {n s} defines => by simp [silent] at defines
      bound_known := fun {n s} defines => by simp [silent] at defines
      bound_local := fun {n s} defines => by simp [silent] at defines
      symbol_live := fun known => absurd known (Nat.not_lt_zero _)
      exact :=
        { distinct := ⟨List.nodup_nil, fun sort => by cases sort <;> exact List.nodup_nil⟩
          mem_calls := fun {n} => iff_of_false (by simp [Program.empty]) fun found => unreached n found.1
          mem_entries := fun {s sort} => by
            refine iff_of_false (by cases sort <;> simp [Program.empty, Registries.entries]) ?_
            rintro ⟨member | ⟨n, reached, _⟩, _⟩
            · simp [Program.empty] at member
            · exact unreached n reached } }

/-- The program with an empty block for a module symbol that nothing uses yet. -/
def addRoot (p : Program) (m : SymbolId) (span : Span) : Program :=
  { p with
    nodes := p.nodes.push { kind := .block [], span := span, scope := some m }
    modules := p.modules ++ [m]
    registries := p.registries.addSymbol m (.moduleRoot ⟨p.nodes.size⟩) }

/-! The new block is the one node that is looked up differently. -/

section

variable (m : SymbolId) (span : Span) (n : NodeId)

theorem node_addRoot : (p.addRoot m span).node n = if n = ⟨p.nodes.size⟩ then
    { kind := .block [], span := span, scope := some m } else p.node n :=
  node_push { kind := .block [], span := span, scope := some m } n

theorem kind_addRoot : (p.addRoot m span).kind n =
    if n = ⟨p.nodes.size⟩ then .block [] else p.kind n := by
  rw [kind, node_addRoot]
  split <;> rfl

theorem children_next : p.children ⟨p.nodes.size⟩ = [] := by
  rw [children, kind, node_next]
  rfl

theorem defines_next : (p.kind ⟨p.nodes.size⟩).defines? = none := by
  rw [kind, node_next]
  rfl

@[simp] theorem children_addRoot : (p.addRoot m span).children n = p.children n := by
  rw [children, kind_addRoot]
  split
  · rename_i same
    rw [same, children_next]
    rfl
  · rfl

@[simp] theorem parent?_addRoot : (p.addRoot m span).parent? n = p.parent? n := by
  rw [parent?, node_addRoot]
  split
  · rename_i same
    rw [same, parent?, node_next]
    rfl
  · rfl

@[simp] theorem defines_addRoot :
    ((p.addRoot m span).kind n).defines? = (p.kind n).defines? := by
  rw [kind_addRoot]
  split
  · rename_i same
    rw [same, defines_next]
    rfl
  · rfl

variable {m span n}

theorem live_addRoot : (p.addRoot m span).Live n ↔ n = ⟨p.nodes.size⟩ ∨ p.Live n := by
  rw [Live, node_addRoot]
  split <;> simp_all

theorem node_addRoot_of_live (live : p.Live n) : (p.addRoot m span).node n = p.node n := by
  rw [node_addRoot, if_neg]
  rintro rfl
  exact Nat.lt_irrefl _ live.known

theorem kind_addRoot_of_live (live : p.Live n) : (p.addRoot m span).kind n = p.kind n :=
  congrArg Node.kind (node_addRoot_of_live live)

theorem scope?_addRoot_of_live (live : p.Live n) : (p.addRoot m span).scope? n = p.scope? n :=
  congrArg Node.scope (node_addRoot_of_live live)

/-- The new block has no children, so what has some was there before. -/
theorem live_of_child_addRoot {c : NodeId} (live : (p.addRoot m span).Live n)
    (child : c ∈ p.children n) : p.Live n := by
  rcases live_addRoot.mp live with rfl | old
  · rw [children_next] at child
    cases child
  · exact old

theorem live_of_parent_addRoot {owner : NodeId} (live : (p.addRoot m span).Live n)
    (link : p.parent? n = some owner) : p.Live n := by
  rcases live_addRoot.mp live with rfl | old
  · rw [parent?, node_next] at link
    cases link
  · exact old

theorem above_of_addRoot {a : NodeId} (above : (p.addRoot m span).Above a n) : p.Above a n := by
  induction above with
  | refl => exact .refl
  | up link _ ih => exact .up ((parent?_addRoot m span _).symm.trans link) ih

theorem mem_modules_addRoot {k : SymbolId} :
    k ∈ (p.addRoot m span).modules ↔ k ∈ p.modules ∨ k = m := by
  simp [addRoot]

theorem mem_entries_addRoot {s : SymbolId} {sort : SymbolSort} :
    s ∈ (p.addRoot m span).registries.entries sort ↔
      s ∈ p.registries.entries sort ∨ s = m ∧ SymbolSort.moduleRoot = sort := by
  simp only [addRoot, Registries.addSymbol, Registries.entries_mapKind, SymbolKind.sort]
  by_cases isModule : SymbolSort.moduleRoot = sort
  · simp [isModule, Registries.mem_insertNew]
  · simp [isModule]

end

theorem forest_addRoot (forest : p.Forest) (m : SymbolId) (span : Span) :
    (p.addRoot m span).Forest where
  child_live {n c} live child := by
    rw [children_addRoot] at child
    exact live_addRoot.mpr (.inr (forest.child_live (live_of_child_addRoot live child) child))
  child_parent {n c} live child := by
    rw [children_addRoot] at child
    rw [parent?_addRoot]
    exact forest.child_parent (live_of_child_addRoot live child) child
  children_nodup {n} live := by
    rw [children_addRoot]
    rcases live_addRoot.mp live with rfl | old
    · rw [children_next]
      exact List.nodup_nil
    · exact forest.children_nodup old
  owner_live {n owner} live link := by
    rw [parent?_addRoot] at link
    exact live_addRoot.mpr (.inr (forest.owner_live (live_of_parent_addRoot live link) link))
  owner_lists {n owner} live link := by
    rw [parent?_addRoot] at link
    rw [children_addRoot]
    exact forest.owner_lists (live_of_parent_addRoot live link) link
  owner_known {n owner} link := by
    rw [parent?_addRoot] at link
    have known := forest.owner_known link
    simp only [addRoot, Array.size_push]
    omega
  acyclic {n owner} link circle := by
    rw [parent?_addRoot] at link
    exact forest.acyclic link (above_of_addRoot circle)

/-! The new block is the root of its module. -/

section

variable {m : SymbolId} {span : Span} (symbol : (p.symbol m).kind = .moduleRoot ⟨p.nodes.size⟩)

include symbol

theorem moduleBlock?_next : p.moduleBlock? m = some ⟨p.nodes.size⟩ := by
  rw [moduleBlock?, Symbol.moduleBlock?, symbol]

theorem mem_roots_addRoot {r : NodeId} :
    r ∈ (p.addRoot m span).roots ↔ r ∈ p.roots ∨ r = ⟨p.nodes.size⟩ := by
  rw [mem_roots, mem_roots]
  constructor
  · rintro ⟨k, member, block⟩
    rcases mem_modules_addRoot.mp member with before | rfl
    · exact .inl ⟨k, before, block⟩
    · exact .inr (Option.some.inj (block.symm.trans (moduleBlock?_next symbol)))
  · rintro (⟨k, before, block⟩ | rfl)
    · exact ⟨k, mem_modules_addRoot.mpr (.inl before), block⟩
    · exact ⟨m, mem_modules_addRoot.mpr (.inr rfl), moduleBlock?_next symbol⟩

theorem reached_addRoot {n : NodeId} :
    (p.addRoot m span).Reached n ↔ p.Reached n ∨ n = ⟨p.nodes.size⟩ := by
  constructor
  · intro reached
    induction reached with
    | root root => exact ((mem_roots_addRoot symbol).mp root).imp_left .root
    | child _ child ih =>
      rw [children_addRoot] at child
      rcases ih with before | rfl
      · exact .inl (before.child child)
      · rw [children_next] at child
        cases child
  · rintro (before | rfl)
    · induction before with
      | root root => exact .root ((mem_roots_addRoot symbol).mpr (.inl root))
      | child _ child ih => exact ih.child (by rwa [children_addRoot])
    · exact .root ((mem_roots_addRoot symbol).mpr (.inr rfl))

/-- A module block is one from before, or it is the new one. -/
theorem root_cases_addRoot (rooted : p.Rooted) {k : SymbolId} {r : NodeId}
    (member : k ∈ (p.addRoot m span).modules) (block : p.moduleBlock? k = some r) :
    k ∈ p.modules ∧ p.Live r ∨ k = m ∧ r = ⟨p.nodes.size⟩ := by
  rcases mem_modules_addRoot.mp member with before | rfl
  · exact .inl ⟨before, rooted.root_live before block⟩
  · exact .inr ⟨rfl, Option.some.inj (block.symm.trans (moduleBlock?_next symbol))⟩

theorem rooted_addRoot (rooted : p.Rooted) (live : (p.symbol m).live = true)
    (outside : m ∉ p.modules) : (p.addRoot m span).Rooted where
  modules_nodup := by
    simp only [addRoot, List.nodup_append, List.nodup_singleton, true_and]
    refine ⟨rooted.modules_nodup, fun k member j new same => outside ?_⟩
    rw [← List.mem_singleton.mp new, ← same]
    exact member
  symbol_live {k} member := by
    rcases mem_modules_addRoot.mp member with before | rfl
    · exact rooted.symbol_live before
    · exact live
  sort_module {k} member := by
    rcases mem_modules_addRoot.mp member with before | rfl
    · exact rooted.sort_module before
    · exact ⟨_, (moduleBlock?_next symbol : p.moduleBlock? k = _)⟩
  root_live {k r} member block := by
    rcases root_cases_addRoot symbol rooted member block with ⟨_, old⟩ | ⟨_, rfl⟩
    · exact live_addRoot.mpr (.inr old)
    · exact live_addRoot.mpr (.inl rfl)
  root_top {k r} member block := by
    rw [parent?_addRoot]
    rcases root_cases_addRoot symbol rooted member block with ⟨before, _⟩ | ⟨_, rfl⟩
    · exact rooted.root_top before block
    · rw [parent?, node_next]
      rfl
  root_block {k r} member block := by
    rcases root_cases_addRoot symbol rooted member block with ⟨before, old⟩ | ⟨_, rfl⟩
    · rw [kind_addRoot_of_live old]
      exact rooted.root_block before block
    · rw [kind_addRoot, if_pos rfl]
      rfl
  root_scope {k r} member block := by
    rcases root_cases_addRoot symbol rooted member block with ⟨before, old⟩ | ⟨rfl, rfl⟩
    · rw [scope?_addRoot_of_live old]
      exact rooted.root_scope before block
    · rw [scope?, node_addRoot, if_pos rfl]

/-- The new block is no call and defines nothing: only the new module joins the registries. -/
theorem exact_addRoot (exact : p.Exact p.Reached p.registries) :
    (p.addRoot m span).Exact (p.addRoot m span).Reached (p.addRoot m span).registries where
  distinct := by
    refine exact.distinct.mapKind (.moduleRoot ⟨p.nodes.size⟩)
      (f := (Registries.insertNew · m)) fun sort => ?_
    exact Registries.insertNew_nodup (exact.distinct.entries sort)
  mem_calls {n} := by
    have calls : (p.addRoot m span).registries.calls = p.registries.calls := rfl
    rw [reached_addRoot symbol, calls, exact.mem_calls, kind_addRoot]
    split
    · rename_i same
      simp [same, kind, node_next, Node.absent, NodeKind.isCall]
    · rename_i other
      simp [other]
  mem_entries {s sort} := by
    have sort_eq : ((p.addRoot m span).symbol s).kind.sort = (p.symbol s).kind.sort := rfl
    rw [mem_entries_addRoot, exact.mem_entries, sort_eq]
    constructor
    · rintro (⟨entered, sorted⟩ | ⟨rfl, sorted⟩)
      · refine ⟨entered.imp (fun before => mem_modules_addRoot.mpr (.inl before)) ?_, sorted⟩
        rintro ⟨n, reached, defines⟩
        exact ⟨n, (reached_addRoot symbol).mpr (.inl reached), (defines_addRoot m span n).trans defines⟩
      · exact ⟨.inl (mem_modules_addRoot.mpr (.inr rfl)), by rw [symbol]; exact sorted⟩
    · rintro ⟨member | ⟨n, reached, defines⟩, sorted⟩
      · rcases mem_modules_addRoot.mp member with before | rfl
        · exact .inl ⟨.inl before, sorted⟩
        · exact .inr ⟨rfl, by rw [symbol] at sorted; exact sorted⟩
      · rw [defines_addRoot] at defines
        rcases (reached_addRoot symbol).mp reached with before | rfl
        · exact .inl ⟨.inr ⟨n, before, defines⟩, sorted⟩
        · rw [defines_next] at defines
          cases defines

end

theorem sound_addRoot (sound : p.Sound) {m : SymbolId} (span : Span)
    (symbol : (p.symbol m).kind = .moduleRoot ⟨p.nodes.size⟩) (live : (p.symbol m).live = true)
    (outside : m ∉ p.modules) (unbound : ∀ n, (p.kind n).defines? ≠ some m) :
    (p.addRoot m span).Sound where
  forest := forest_addRoot sound.forest m span
  rooted := rooted_addRoot symbol sound.rooted live outside
  exact := exact_addRoot symbol sound.exact
  scope_below {n c} reached child := by
    rw [children_addRoot] at child
    rcases (reached_addRoot symbol).mp reached with before | rfl
    · have liveN := sound.live_of_reached before
      have liveC := sound.forest.child_live liveN child
      rw [scope?_addRoot_of_live liveC, sound.scope_below before child]
      exact (scopeBelow_congr (kind_addRoot_of_live liveN) (scope?_addRoot_of_live liveN)).symm
    · rw [children_next] at child
      cases child
  bound {n s} defines := sound.bound (defines_addRoot m span n ▸ defines)
  bound_known {n s} defines := sound.bound_known (defines_addRoot m span n ▸ defines)
  bound_local {n s} defines member := by
    rw [defines_addRoot] at defines
    rcases mem_modules_addRoot.mp member with before | rfl
    · exact sound.bound_local defines before
    · exact unbound n defines
  symbol_live {s} known lives := by
    refine sound.symbol_live known fun n defines => ?_
    rcases live_addRoot.mp (lives n ((defines_addRoot m span n).trans defines)) with rfl | old
    · rw [defines_next] at defines
      cases defines
    · exact old

theorem Sound.addModule (sound : p.Sound) (name : String) (span : Span) :
    (p.addModule name span).2.Sound := by
  have known {s : SymbolId} (s_known : s.index < p.symbols.size) : s ≠ ⟨p.symbols.size⟩ := by
    rintro rfl
    exact Nat.lt_irrefl _ s_known
  have new (sym : Symbol) : (p.addSymbol sym).2.symbol ⟨p.symbols.size⟩ = sym := by
    rw [symbol_addSymbol]
    exact if_pos rfl
  let sym : Symbol := { name := name, kind := .moduleRoot ⟨p.nodes.size⟩, ty := .void }
  refine sound_addRoot (p := (p.addSymbol sym).2) (m := ⟨p.symbols.size⟩) (sound.addSymbol rfl) span
    ?_ ?_ ?_ ?_
  · rw [new]
    rfl
  · rw [new]
  · exact fun member => known (sound.rooted.known_of_module member) rfl
  · exact fun n defines => known (sound.bound_known defines) rfl

end MiddleEnd.Program
