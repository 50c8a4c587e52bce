import MiddleEnd.Proofs.Arena.Enclosing

namespace MiddleEnd.Program

variable {p : Program}

theorem Forest.path_length_le_of_above (forest : p.Forest) {a n : NodeId} (above : p.Above a n) :
    (p.path a).length ≤ (p.path n).length := by
  induction above with
  | refl => exact le_refl _
  | up link _ ih =>
    rw [forest.path_of_parent link, List.length_cons]
    omega

theorem Forest.path_length_lt_of_above (forest : p.Forest) {a n : NodeId} (above : p.Above a n)
    (different : a ≠ n) : (p.path a).length < (p.path n).length := by
  cases above with
  | refl => exact absurd rfl different
  | up link above =>
    have bound := forest.path_length_le_of_above above
    rw [forest.path_of_parent link, List.length_cons]
    omega

/-- The node `d` defines `f` and is the innermost definition of a function around `n`. -/
structure Innermost (p : Program) (d : NodeId) (f : SymbolId) (n : NodeId) : Prop where
  reached : p.Reached d
  fnDef : (p.kind d).isFnDef = true
  defines : (p.kind d).defines? = some f
  above : p.Above d n
  ne : d ≠ n
  least {a : NodeId} : p.Above a n → a ≠ n → (p.kind a).isFnDef = true → p.Above a d

namespace Tidy

theorem isFn_of_fnDef (tidy : p.Tidy) {d : NodeId} {f : SymbolId} (live : p.Live d)
    (fnDef : (p.kind d).isFnDef = true) (defines : (p.kind d).defines? = some f) :
    p.isFn f = true :=
  isFn_iff_sort.mpr (((tidy.lawful live).defines_fn defines).mp fnDef)

end Tidy

namespace Sound

theorem not_isFn_of_module (sound : p.Sound) {m : SymbolId} (member : m ∈ p.modules) :
    p.isFn m = false := by
  obtain ⟨r, block⟩ := sound.rooted.sort_module member
  rw [Program.moduleBlock?, Symbol.moduleBlock?] at block
  rw [isFn, Symbol.isFn, Symbol.fnData?]
  cases kind : (p.symbol m).kind <;> simp [kind] at block ⊢

/-- The scope of a reachable node is the module, or the innermost function around the node. -/
theorem scope_cases (sound : p.Sound) {n : NodeId} (reached : p.Reached n) :
    (∃ m ∈ p.modules, p.scope? n = some m ∧
      ∀ a, p.Above a n → a ≠ n → (p.kind a).isFnDef = false) ∨
    ∃ d f, p.scope? n = some f ∧ p.Innermost d f n := by
  have forest := sound.forest
  induction reached with
  | @root r root =>
    obtain ⟨m, member, block⟩ := mem_roots.mp root
    refine .inl ⟨m, member, sound.rooted.root_scope member block, fun a above different => ?_⟩
    exact absurd (above.eq_of_top (sound.rooted.top_of_root root)) different
  | @child n c owner child ih =>
    have live := sound.live_of_reached owner
    have link := forest.child_parent live child
    have scope := sound.scope_below owner child
    rw [scopeBelow_eq] at scope
    by_cases isFnDef : (p.kind n).isFnDef = true
    · rw [if_pos isFnDef] at scope
      obtain ⟨f, defines⟩ : ∃ f, (p.kind n).defines? = some f := by
        cases kind : p.kind n <;> simp [kind, NodeKind.isFnDef] at isFnDef
        exact ⟨_, rfl⟩
      refine .inr ⟨n, f, scope.trans defines,
        { reached := owner
          fnDef := isFnDef
          defines := defines
          above := .of_parent link
          ne := fun same => forest.child_ne live child same.symm
          least := fun above different _ => above.owner_of_ne link different }⟩
    · rw [if_neg isFnDef] at scope
      rw [Bool.not_eq_true] at isFnDef
      rcases ih with ⟨m, member, scopeN, plain⟩ | ⟨d, f, scopeN, inner⟩
      · refine .inl ⟨m, member, scope.trans scopeN, fun a above different => ?_⟩
        by_cases same : a = n
        · exact same ▸ isFnDef
        · exact plain a (above.owner_of_ne link different) same
      · refine .inr ⟨d, f, scope.trans scopeN,
          { inner with
            above := .up link inner.above
            ne := fun same => forest.acyclic link (same ▸ inner.above)
            least := fun {a} above different fnDef => ?_ }⟩
        have onOwner := above.owner_of_ne link different
        by_cases same : a = n
        · rw [same, isFnDef] at fnDef
          cases fnDef
        · exact inner.least onOwner same fnDef

theorem innermost_of_scope (sound : p.Sound) {n : NodeId} {f : SymbolId} (reached : p.Reached n)
    (scope : p.scope? n = some f) (fn : p.isFn f = true) : ∃ d, p.Innermost d f n := by
  rcases sound.scope_cases reached with ⟨m, member, scopeM, _⟩ | ⟨d, g, scopeG, inner⟩
  · rw [scope] at scopeM
    cases scopeM
    rw [sound.not_isFn_of_module member] at fn
    cases fn
  · rw [scope] at scopeG
    cases scopeG
    exact ⟨d, inner⟩

end Sound

namespace Tidy

theorem scope_of_innermost (tidy : p.Tidy) {d n : NodeId} {f : SymbolId} (reached : p.Reached n)
    (inner : p.Innermost d f n) : p.scope? n = some f := by
  rcases tidy.sound.scope_cases reached with ⟨m, _, _, plain⟩ | ⟨d', g, scope, inner'⟩
  · have plainD := plain d inner.above inner.ne
    rw [inner.fnDef] at plainD
    cases plainD
  · have same := tidy.sound.forest.above_antisymm (inner'.least inner.above inner.ne inner.fnDef)
      (inner.least inner'.above inner'.ne inner'.fnDef)
    subst same
    rw [scope, ← inner'.defines, inner.defines]

/-- A node of module scope has no definition of a function around it. -/
theorem not_above_of_module_scope (tidy : p.Tidy) {n : NodeId} {m : SymbolId}
    (reached : p.Reached n) (scope : p.scope? n = some m) (outer : p.isFn m = false) {a : NodeId}
    (fnDef : (p.kind a).isFnDef = true) (different : a ≠ n) : ¬ p.Above a n := by
  intro above
  rcases tidy.sound.scope_cases reached with ⟨_, _, _, plain⟩ | ⟨d, f, scopeF, inner⟩
  · rw [plain a above different] at fnDef
    cases fnDef
  · rw [scope] at scopeF
    cases scopeF
    rw [tidy.isFn_of_fnDef (tidy.sound.live_of_reached inner.reached) inner.fnDef inner.defines]
      at outer
    cases outer

/-- What a function holds itself is what lies in its scope. -/
theorem own_iff (tidy : p.Tidy) {d n : NodeId} {f : SymbolId} (reached : p.Reached d)
    (fnDef : (p.kind d).isFnDef = true) (defines : (p.kind d).defines? = some f) :
    p.Own d n ∧ d ≠ n ↔ p.Reached n ∧ p.scope? n = some f := by
  have forest := tidy.sound.forest
  have liveD := tidy.sound.live_of_reached reached
  constructor
  · rintro ⟨own, different⟩
    induction own with
    | refl => exact absurd rfl different
    | @down n c own plain child ih =>
      have liveN := forest.live_of_own liveD own
      by_cases top : d = n
      · subst top
        refine ⟨.child reached child, ?_⟩
        rw [tidy.sound.scope_below reached child, scopeBelow_eq, if_pos fnDef, defines]
      · obtain ⟨reachedN, scope⟩ := ih top
        have plain' : (p.kind n).isFnDef = false := plain.resolve_left fun same => top same.symm
        refine ⟨.child reachedN child, ?_⟩
        rw [tidy.sound.scope_below reachedN child, scopeBelow_eq, plain']
        exact scope
  · rintro ⟨reachedN, scope⟩
    induction reachedN with
    | root root =>
      obtain ⟨m, member, block⟩ := mem_roots.mp root
      rw [tidy.sound.rooted.root_scope member block] at scope
      cases scope
      exact absurd member (tidy.sound.bound_local defines)
    | @child n c owner child ih =>
      have live := tidy.sound.live_of_reached owner
      have link := forest.child_parent live child
      rw [tidy.sound.scope_below owner child, scopeBelow_eq] at scope
      by_cases isFnDef : (p.kind n).isFnDef = true
      · rw [if_pos isFnDef] at scope
        have same := tidy.sound.bound_unique scope defines
        subst same
        exact ⟨.down .refl (.inl rfl) child, fun same => forest.child_ne live child same.symm⟩
      · rw [if_neg isFnDef] at scope
        obtain ⟨own, different⟩ := ih scope
        refine ⟨.down own (.inr (by simpa using isFnDef)) child, ?_⟩
        rintro rfl
        exact forest.acyclic link (forest.above_of_own liveD own)

end Tidy

/-! The functions around a function. -/

/-- The function `f` has a definition that can be reached. -/
def Placed (p : Program) (f : SymbolId) (d : NodeId) : Prop :=
  p.Reached d ∧ (p.kind d).isFnDef = true ∧ (p.kind d).defines? = some f

theorem Sound.fnBody?_eq (sound : p.Sound) {f : SymbolId} {d : NodeId} (placed : p.Placed f d) :
    p.fnDef? f = some d ∧ ∃ formals body, p.kind d = .fnDef f formals body ∧ p.fnBody? f = some body := by
  obtain ⟨_, fnDef, defines⟩ := placed
  have found : p.fnDef? f = some d := by
    rw [fnDef?, sound.bound defines]
    simp [fnDef]
  refine ⟨found, ?_⟩
  cases kind : p.kind d <;> simp [kind, NodeKind.isFnDef] at fnDef
  rename_i f' formals body
  rw [kind] at defines
  cases defines
  exact ⟨formals, body, rfl, by rw [fnBody?, found]; simp [kind]⟩

namespace Tidy

theorem placed_of_registered (tidy : p.Tidy) {f : SymbolId}
    (member : f ∈ p.registries.fns) : ∃ d, p.Placed f d := by
  have entry : f ∈ p.registries.entries .fn := member
  obtain ⟨origin, sort⟩ := tidy.sound.exact.mem_entries.mp entry
  have fn : p.isFn f = true := isFn_iff_sort.mpr sort
  rcases origin with isModule | ⟨d, reached, defines⟩
  · rw [tidy.sound.not_isFn_of_module isModule] at fn
    cases fn
  · exact ⟨d, reached, tidy.isFnDef_of_defines (tidy.sound.live_of_reached reached) defines fn,
      defines⟩

theorem registered_of_placed (tidy : p.Tidy) {f : SymbolId} {d : NodeId}
    (placed : p.Placed f d) : f ∈ p.registries.fns := by
  have entry : f ∈ p.registries.entries .fn := by
    refine tidy.sound.exact.mem_entries.mpr ⟨.inr ⟨d, placed.1, placed.2.2⟩, ?_⟩
    exact isFn_iff_sort.mp (tidy.isFn_of_fnDef (tidy.sound.live_of_reached placed.1) placed.2.1
      placed.2.2)
  exact entry

theorem fnBody?_eq (tidy : p.Tidy) {f : SymbolId} {d : NodeId} (placed : p.Placed f d) :
    p.fnDef? f = some d ∧ ∃ formals body, p.kind d = .fnDef f formals body ∧ p.fnBody? f = some body :=
  tidy.sound.fnBody?_eq placed

/-- What is in the scope of a function and no part of a formal is in its body, outside the functions
defined there. -/
theorem own_of_scope (tidy : p.Tidy) {f : SymbolId} {d body m : NodeId} (placed : p.Placed f d)
    (found : p.fnBody? f = some body) (reached : p.Reached m) (scope : p.scope? m = some f)
    (notExpr : (p.kind m).isExpr = false) (notDefine : (p.kind m).tag ≠ .define) : p.Own body m := by
  have forest := tidy.sound.forest
  obtain ⟨_, formals, _, kind, found'⟩ := tidy.fnBody?_eq placed
  cases found.symm.trans found'
  have live := tidy.sound.live_of_reached placed.1
  obtain ⟨own, different⟩ := (tidy.own_iff placed.1 placed.2.1 placed.2.2).mpr ⟨reached, scope⟩
  obtain ⟨c, child, inside, _⟩ := own.head (Ne.symm different)
  have liveC := forest.child_live live child
  rw [children, kind, NodeKind.children, List.mem_append, List.mem_singleton] at child
  rcases child with formal | rfl
  · have member : (Slot.formal, c) ∈ (p.kind d).slots := by
      rw [kind, NodeKind.slots]
      exact List.mem_append_left _ (List.mem_map.mpr ⟨c, formal, rfl⟩)
    obtain ⟨tag, _⟩ := (tidy.lawful live).fits member
    have other : c ≠ m := by
      rintro rfl
      exact notDefine tag
    rw [tidy.expr_below (NodeKind.slot_of_define tag) (tidy.sound.live_of_reached reached)
      (forest.above_of_own liveC inside) other] at notExpr
    cases notExpr
  · exact inside

/-- Below a formal there is only its default value, an expression: all else stands in the body. -/
theorem body_above (tidy : p.Tidy) {n : NodeId} {f : SymbolId} (reached : p.Reached n)
    (notExpr : (p.kind n).isExpr = false) (notDefine : (p.kind n).tag ≠ .define)
    (scope : p.scope? n = some f) (fn : p.isFn f = true) :
    ∃ body, p.fnBody? f = some body ∧ p.Above body n := by
  have forest := tidy.sound.forest
  obtain ⟨d, inner⟩ := tidy.sound.innermost_of_scope reached scope fn
  have placed : p.Placed f d := ⟨inner.reached, inner.fnDef, inner.defines⟩
  obtain ⟨_, formals, body, kind, found⟩ := tidy.fnBody?_eq placed
  have liveBody : p.Live body := forest.child_live (tidy.sound.live_of_reached inner.reached)
    (by simp [children, kind, NodeKind.children])
  exact ⟨body, found, forest.above_of_own liveBody
    (tidy.own_of_scope placed found reached scope notExpr notDefine)⟩

theorem declaringFn?_of_scope (tidy : p.Tidy) {s g : SymbolId} {d : NodeId}
    (defines : (p.kind d).defines? = some s) (scope : p.scope? d = some g) (fn : p.isFn g = true) :
    p.declaringFn? s = some g := by
  rw [declaringFn?, declaringScope?, tidy.sound.bound defines]
  simp [scope?] at scope
  simp [scope, fn]

theorem declaringFn?_eq_none_of_scope (tidy : p.Tidy) {s m : SymbolId} {d : NodeId}
    (defines : (p.kind d).defines? = some s) (scope : p.scope? d = some m)
    (outer : p.isFn m = false) : p.declaringFn? s = none := by
  rw [declaringFn?, declaringScope?, tidy.sound.bound defines]
  simp [scope?] at scope
  simp [scope, outer]

end Tidy

namespace Sound

theorem declaringFn?_eq_some (sound : p.Sound) {f g : SymbolId} {d : NodeId} (placed : p.Placed f d)
    (declared : p.declaringFn? f = some g) : ∃ e, p.Innermost e g d := by
  obtain ⟨reached, fnDef, defines⟩ := placed
  obtain ⟨scope, fn⟩ := Option.filter_eq_some_iff.mp declared
  rw [declaringScope?, sound.bound defines] at scope
  exact sound.innermost_of_scope reached scope fn

theorem mem_functionsAround (sound : p.Sound) {fuel : Nat} {f g : SymbolId} {d : NodeId}
    (placed : p.Placed f d) (member : g ∈ p.functionsAround fuel f) :
    ∃ e, p.Placed g e ∧ p.Above e d ∧ e ≠ d := by
  induction fuel generalizing f d with
  | zero => cases member
  | succ fuel ih =>
    rw [functionsAround] at member
    split at member
    · rename_i outer declared
      obtain ⟨e, inner⟩ := sound.declaringFn?_eq_some placed declared
      have here : p.Placed outer e := ⟨inner.reached, inner.fnDef, inner.defines⟩
      rcases List.mem_cons.mp member with rfl | further
      · exact ⟨e, here, inner.above, inner.ne⟩
      · obtain ⟨a, placedA, above, different⟩ := ih here further
        refine ⟨a, placedA, above.trans inner.above, ?_⟩
        rintro rfl
        exact different (sound.forest.above_antisymm above inner.above)
    · cases member

/-- From a function of which the definition can be reached there is a way out: the definitions on it are
above each other. -/
theorem around (sound : p.Sound) {f : SymbolId} {d : NodeId} (placed : p.Placed f d) :
    p.Around f (p.lexicalAncestors f) := by
  suffices ends : ∃ l, p.Around f l by
    obtain ⟨l, around⟩ := ends
    exact around.eq_lexicalAncestors ▸ around
  induction deep : (p.path d).length using Nat.strongRecOn generalizing f d with
  | _ size ih =>
    cases declared : p.declaringFn? f with
    | none => exact ⟨[], .out declared⟩
    | some g =>
      obtain ⟨e, inner⟩ := sound.declaringFn?_eq_some placed declared
      have shorter := sound.forest.path_length_lt_of_above inner.above inner.ne
      obtain ⟨l, around⟩ := ih _ (deep ▸ shorter) ⟨inner.reached, inner.fnDef, inner.defines⟩ rfl
      exact ⟨g :: l, .up declared around⟩

theorem lexicalAncestors_eq (sound : p.Sound) {f : SymbolId} {d : NodeId} (placed : p.Placed f d) :
    p.lexicalAncestors f = (p.declaringFn? f).elim [] fun g => g :: p.lexicalAncestors g := by
  generalize same : p.lexicalAncestors f = l
  cases same ▸ sound.around placed with
  | out none => rw [none, Option.elim_none]
  | up declared around => rw [declared, Option.elim_some, ← around.eq_lexicalAncestors]

theorem mem_lexicalAncestors (sound : p.Sound) {f g : SymbolId} {d : NodeId} (placed : p.Placed f d)
    (member : g ∈ p.lexicalAncestors f) : ∃ e, p.Placed g e ∧ p.Above e d ∧ e ≠ d :=
  sound.mem_functionsAround placed member

end Sound

namespace Tidy

/-- Every function around a node is the one of its scope or one around that. -/
theorem lexical_of_above (tidy : p.Tidy) {f g : SymbolId} {e n : NodeId} (reached : p.Reached n)
    (scope : p.scope? n = some f) (fn : p.isFn f = true) (placed : p.Placed g e)
    (above : p.Above e n) (different : e ≠ n) : g = f ∨ g ∈ p.lexicalAncestors f := by
  obtain ⟨d, inner⟩ := tidy.sound.innermost_of_scope reached scope fn
  have around := inner.least above different placed.2.1
  clear above different
  -- Induction on the way up from the innermost definition.
  obtain ⟨length, equal⟩ : ∃ length, length = (p.path d).length := ⟨_, rfl⟩
  induction length using Nat.strong_induction_on generalizing n f d with
  | _ length ih =>
    have here : p.Placed f d := ⟨inner.reached, inner.fnDef, inner.defines⟩
    by_cases same : e = d
    · subst same
      exact .inl (Option.some.inj (placed.2.2.symm.trans inner.defines))
    · right
      rcases tidy.sound.scope_cases inner.reached with ⟨m, _, _, plain⟩ | ⟨d', h, scopeD, inner'⟩
      · have plainE := plain e around same
        rw [placed.2.1] at plainE
        cases plainE
      · have fnH := tidy.isFn_of_fnDef (tidy.sound.live_of_reached inner'.reached) inner'.fnDef
          inner'.defines
        have declared := tidy.declaringFn?_of_scope inner.defines scopeD fnH
        rw [tidy.sound.lexicalAncestors_eq here, declared]
        have shorter := tidy.sound.forest.path_length_lt_of_above inner'.above inner'.ne
        rcases ih _ (equal ▸ shorter) inner.reached scopeD fnH d' inner'
          (inner'.least around same placed.2.1) rfl with rfl | further
        · exact List.mem_cons_self ..
        · exact List.mem_cons_of_mem _ further

/-- The last of the functions around a function belongs to a module. -/
theorem outermost (tidy : p.Tidy) {f g : SymbolId} {d : NodeId} (placed : p.Placed f d)
    (last : (p.lexicalAncestors f).getLast? = some g) :
    p.declaringFn? g = none ∧ ∃ e, p.Placed g e ∧ p.Above e d ∧ e ≠ d := by
  obtain ⟨length, equal⟩ : ∃ length, length = (p.path d).length := ⟨_, rfl⟩
  refine ⟨?_, tidy.sound.mem_lexicalAncestors placed (List.mem_of_getLast? last)⟩
  induction length using Nat.strong_induction_on generalizing f d with
  | _ length ih =>
    rw [tidy.sound.lexicalAncestors_eq placed] at last
    cases declared : p.declaringFn? f with
    | none =>
      rw [declared] at last
      cases last
    | some h =>
      obtain ⟨e, inner⟩ := tidy.sound.declaringFn?_eq_some placed declared
      have here : p.Placed h e := ⟨inner.reached, inner.fnDef, inner.defines⟩
      rw [declared, Option.elim, List.getLast?_cons] at last
      cases rest : (p.lexicalAncestors h).getLast? with
      | none =>
        rw [rest] at last
        cases last
        have empty := List.getLast?_eq_none_iff.mp rest
        rw [tidy.sound.lexicalAncestors_eq here] at empty
        cases outer : p.declaringFn? h with
        | none => exact outer
        | some h' =>
          rw [outer] at empty
          cases empty
      | some g' =>
        rw [rest] at last
        cases last
        have shorter := tidy.sound.forest.path_length_lt_of_above inner.above inner.ne
        exact ih _ (equal ▸ shorter) here rest rfl

theorem scope_of_declaringFn?_none (tidy : p.Tidy) {s : SymbolId} {d : NodeId}
    (reached : p.Reached d) (defines : (p.kind d).defines? = some s)
    (outer : p.declaringFn? s = none) : ∃ m ∈ p.modules, p.scope? d = some m := by
  rcases tidy.sound.scope_cases reached with ⟨m, member, scope, _⟩ | ⟨e, f, scope, inner⟩
  · exact ⟨m, member, scope⟩
  · have fn := tidy.isFn_of_fnDef (tidy.sound.live_of_reached inner.reached) inner.fnDef
      inner.defines
    rw [tidy.declaringFn?_of_scope defines scope fn] at outer
    cases outer

end Tidy

/-! The statement around a node. -/

namespace Forest

theorem enclosingStmt?_of_parent (forest : p.Forest) {n owner : NodeId}
    (link : p.parent? n = some owner) :
    p.enclosingStmt? n = if (p.kind owner).isBlock then some n else p.enclosingStmt? owner := by
  have path := forest.path_eq owner
  rw [enclosingStmt?, forest.path_of_parent link]
  simp only [List.tail_cons]
  rw [path, List.zip_cons_cons, List.find?_cons, ← path]
  cases isBlock : (p.kind owner).isBlock with
  | true => simp
  | false =>
    simp only [Bool.false_eq_true, if_false]
    rw [enclosingStmt?, path, List.tail_cons]

theorem enclosingStmt?_of_top (forest : p.Forest) {n : NodeId} (top : p.parent? n = none) :
    p.enclosingStmt? n = none := by
  rw [enclosingStmt?, forest.path_of_top top]
  rfl

theorem enclosingStmt?_eq_some (forest : p.Forest) {n stmt : NodeId}
    (found : p.enclosingStmt? n = some stmt) :
    p.Above stmt n ∧ (∃ b, p.parent? stmt = some b ∧ (p.kind b).isBlock = true) ∧
      ∀ m b, p.Above m n → p.parent? m = some b → (p.kind b).isBlock = true → p.Above m stmt := by
  obtain ⟨top, above, isTop⟩ := forest.exists_top n
  induction above with
  | refl =>
    rw [forest.enclosingStmt?_of_top isTop] at found
    cases found
  | @up n owner link _ ih =>
    rw [forest.enclosingStmt?_of_parent link] at found
    cases isBlock : (p.kind owner).isBlock with
    | true =>
      rw [isBlock, if_pos rfl] at found
      cases found
      exact ⟨.refl, ⟨owner, link, isBlock⟩, fun m b above _ _ => above⟩
    | false =>
      rw [isBlock, if_neg Bool.false_ne_true] at found
      obtain ⟨aboveStmt, block, least⟩ := ih found
      refine ⟨.up link aboveStmt, block, fun m b above linkM blockM => ?_⟩
      refine least m b (above.owner_of_ne link ?_) linkM blockM
      rintro rfl
      rw [link] at linkM
      cases linkM
      rw [isBlock] at blockM
      cases blockM

end Forest

namespace Tidy

/-- The statement around a node lies in the scope of the node, unless the node belongs to a
default value: then the statement is the function that has the formal. -/
theorem enclosingStmt?_scope (tidy : p.Tidy) {n stmt : NodeId} (reached : p.Reached n)
    (found : p.enclosingStmt? n = some stmt) :
    p.scope? stmt = p.scope? n ∨
      (p.kind stmt).isFnDef = true ∧ p.scope? n = (p.kind stmt).defines? := by
  have forest := tidy.sound.forest
  induction reached with
  | root root =>
    rw [forest.enclosingStmt?_of_top (tidy.sound.rooted.top_of_root root)] at found
    cases found
  | @child owner n reached child ih =>
    have live := tidy.sound.live_of_reached reached
    rw [forest.enclosingStmt?_of_parent (forest.child_parent live child)] at found
    rw [tidy.sound.scope_below reached child, scopeBelow_eq]
    cases isBlock : (p.kind owner).isBlock with
    | true =>
      rw [isBlock, if_pos rfl] at found
      cases found
      left
      rw [tidy.sound.scope_below reached child, scopeBelow_eq]
    | false =>
      rw [isBlock, if_neg Bool.false_ne_true] at found
      cases isFnDef : (p.kind owner).isFnDef with
      | false =>
        rw [if_neg Bool.false_ne_true]
        exact ih found
      | true =>
        rw [if_pos rfl]
        cases link : p.parent? owner with
        | none =>
          rw [forest.enclosingStmt?_of_top link] at found
          cases found
        | some b =>
          rw [forest.enclosingStmt?_of_parent link, tidy.block_of_fnDef live link isFnDef,
            if_pos rfl] at found
          cases found
          exact .inr ⟨isFnDef, rfl⟩

end Tidy

end MiddleEnd.Program
