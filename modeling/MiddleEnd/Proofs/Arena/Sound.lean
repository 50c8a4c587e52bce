import MiddleEnd.Proofs.Arena.Destroy
import MiddleEnd.Proofs.Arena.Relink
import MiddleEnd.Proofs.Arena.Rescope

namespace MiddleEnd.Program

/-- Registries that list, without repetition, the calls among certain nodes, and the symbols that
are modules or are defined by one of these nodes. -/
structure Exact (p : Program) (inside : NodeId → Prop) (r : Registries) : Prop where
  distinct : r.Distinct
  mem_calls {n : NodeId} : n ∈ r.calls ↔ inside n ∧ (p.kind n).isCall = true
  mem_entries {s : SymbolId} {sort : SymbolSort} :
    s ∈ r.entries sort ↔
      (s ∈ p.modules ∨ ∃ n, inside n ∧ (p.kind n).defines? = some s) ∧
        (p.symbol s).kind.sort = sort

/-- What every edit keeps: the live nodes form trees, what can be reached from a module records the
scope around it, every definition is the declaration of its symbol, and the registries list what can
be reached. -/
structure Sound (p : Program) : Prop where
  forest : p.Forest
  rooted : p.Rooted
  scope_below {n c : NodeId} : p.Reached n → c ∈ p.children n → p.scope? c = p.scopeBelow n
  bound {n : NodeId} {s : SymbolId} :
    (p.kind n).defines? = some s → (p.symbol s).decl = some n
  bound_known {n : NodeId} {s : SymbolId} :
    (p.kind n).defines? = some s → s.index < p.symbols.size
  bound_local {n : NodeId} {s : SymbolId} : (p.kind n).defines? = some s → s ∉ p.modules
  symbol_live {s : SymbolId} : s.index < p.symbols.size →
    (∀ n, (p.kind n).defines? = some s → p.Live n) → (p.symbol s).live = true
  exact : p.Exact p.Reached p.registries

variable {p q : Program}

theorem scopeBelow_eq (p : Program) (n : NodeId) :
    p.scopeBelow n = if (p.kind n).isFnDef then (p.kind n).defines? else p.scope? n := by
  unfold scopeBelow
  cases p.kind n <;> rfl

theorem scopeBelow_of_head {n : NodeId} (head : (p.kind n).SameHead (q.kind n))
    (scope : q.scope? n = p.scope? n) : q.scopeBelow n = p.scopeBelow n := by
  rw [scopeBelow_eq, scopeBelow_eq, head.isFnDef, head.defines, scope]

namespace Exact

variable {inside inside' : NodeId → Prop} {r : Registries}

theorem enter (exact : p.Exact inside r) (ids : List NodeId) :
    p.Exact (fun n => inside n ∨ n ∈ ids) (ids.foldl p.enter r) where
  distinct := foldl_enter_distinct exact.distinct ids
  mem_calls {n} := by rw [mem_calls_foldl_enter, exact.mem_calls, or_and_right]
  mem_entries {s sort} := by
    rw [mem_entries_foldl_enter, exact.mem_entries, ← or_and_right, or_assoc]
    simp only [or_and_right, exists_or]

/-- Every symbol has one definition, so no entry that is taken out has another reason to stay. -/
theorem leave (exact : p.Exact inside r) (ids : List NodeId)
    (bound : ∀ {m n s}, (p.kind m).defines? = some s → (p.kind n).defines? = some s → m = n)
    (bound_local : ∀ {n s}, (p.kind n).defines? = some s → s ∉ p.modules) :
    p.Exact (fun n => inside n ∧ n ∉ ids) (ids.foldl p.leave r) where
  distinct := foldl_leave_distinct exact.distinct ids
  mem_calls {n} := by
    rw [mem_calls_foldl_leave, exact.mem_calls]
    constructor
    · rintro ⟨⟨here, call⟩, kept⟩
      exact ⟨⟨here, fun listed => kept ⟨listed, call⟩⟩, call⟩
    · rintro ⟨⟨here, apart⟩, call⟩
      exact ⟨⟨here, call⟩, fun ⟨listed, _⟩ => apart listed⟩
  mem_entries {s sort} := by
    rw [mem_entries_foldl_leave, exact.mem_entries]
    constructor
    · rintro ⟨⟨entered, sorted⟩, kept⟩
      refine ⟨entered.imp_right ?_, sorted⟩
      rintro ⟨n, here, defines⟩
      exact ⟨n, ⟨here, fun listed => kept ⟨⟨n, listed, defines⟩, sorted⟩⟩, defines⟩
    · rintro ⟨entered, sorted⟩
      rcases entered with isModule | ⟨n, ⟨here, apart⟩, defines⟩
      · refine ⟨⟨.inl isModule, sorted⟩, ?_⟩
        rintro ⟨⟨n, _, defines⟩, _⟩
        exact bound_local defines isModule
      · refine ⟨⟨.inr ⟨n, here, defines⟩, sorted⟩, ?_⟩
        rintro ⟨⟨m, listed, defines'⟩, _⟩
        exact apart (bound defines defines' ▸ listed)

theorem congr (exact : p.Exact inside r) (same : ∀ n, inside' n ↔ inside n)
    (modules : q.modules = p.modules) (isCall : ∀ n, (q.kind n).isCall = (p.kind n).isCall)
    (defines : ∀ n, (q.kind n).defines? = (p.kind n).defines?)
    (sort : ∀ s, (q.symbol s).kind.sort = (p.symbol s).kind.sort) : q.Exact inside' r where
  distinct := exact.distinct
  mem_calls {n} := by rw [exact.mem_calls, same, isCall]
  mem_entries {s _} := by
    rw [exact.mem_entries, modules, sort]
    simp only [same, defines]

theorem congr_inside (exact : p.Exact inside r) (same : ∀ n, inside' n ↔ inside n) :
    p.Exact inside' r :=
  exact.congr same rfl (fun _ => rfl) (fun _ => rfl) fun _ => rfl

end Exact

/-- The symbols of `q` are those of `p`, less what the nodes at and below `lost` defined and
called. -/
structure Pruned (p : Program) (lost : Option NodeId) (q : Program) : Prop where
  modules : q.modules = p.modules
  symbols_size : q.symbols.size = p.symbols.size
  core (s : SymbolId) : (q.symbol s).core = (p.symbol s).core
  symbol_live {s : SymbolId} : (q.symbol s).live = true ↔ (p.symbol s).live = true ∧
    ∀ n, p.Live n → p.Under lost n → (p.kind n).defines? ≠ some s
  mem_callers {f : SymbolId} {c : NodeId} : c ∈ (q.symbol f).callers ↔
    c ∈ (p.symbol f).callers ∧ ¬ (p.Live c ∧ p.Under lost c ∧ (p.kind c).callee? = some f)

namespace Pruned

variable {lost : Option NodeId}

theorem moduleBlock? (pruned : Pruned p lost q) (s : SymbolId) :
    q.moduleBlock? s = p.moduleBlock? s :=
  Symbol.moduleBlock?_of_core (pruned.core s)

theorem roots (pruned : Pruned p lost q) : q.roots = p.roots := by
  rw [Program.roots, pruned.modules, Program.roots]
  congr 1
  funext s
  exact pruned.moduleBlock? s

theorem decl (pruned : Pruned p lost q) (s : SymbolId) : (q.symbol s).decl = (p.symbol s).decl :=
  Symbol.decl_of_core (pruned.core s)

theorem sort (pruned : Pruned p lost q) (s : SymbolId) :
    (q.symbol s).kind.sort = (p.symbol s).kind.sort :=
  Symbol.sort_of_core (pruned.core s)

end Pruned

/-- The program `q` is `p` after an edit has brought scopes and registries in step with the new
tree. -/
structure Edit (p : Program) (owner : NodeId) (gone come lost : Option NodeId) (q : Program) : Prop
    extends Relink p owner gone come lost q, Pruned p lost q where
  scope_kept {n : NodeId} : ¬ p.Under come n → q.scope? n = p.scope? n
  scope_come {c : NodeId} : come = some c → q.scope? c = q.scopeBelow owner
  scope_inside {m c : NodeId} :
    p.Live m → p.Under come m → c ∈ p.children m → q.scope? c = q.scopeBelow m
  exact : q.Exact q.Reached q.registries

namespace Sound

theorem bound_unique (sound : p.Sound) {m n : NodeId} {s : SymbolId}
    (first : (p.kind m).defines? = some s) (second : (p.kind n).defines? = some s) : m = n :=
  Option.some.inj ((sound.bound first).symm.trans (sound.bound second))

theorem reached_iff (sound : p.Sound) {n : NodeId} :
    p.Reached n ↔ p.Live n ∧ ∃ r ∈ p.roots, p.Above r n :=
  sound.forest.reached_iff sound.rooted

theorem live_of_reached (sound : p.Sound) {n : NodeId} (reached : p.Reached n) : p.Live n :=
  reached.live sound.forest sound.rooted

theorem isAttached_iff (sound : p.Sound) {n : NodeId} : p.isAttached n = true ↔ p.Reached n :=
  sound.forest.isAttached_iff sound.rooted

end Sound

theorem Reached.of_below (sound : p.Sound) {a n : NodeId} (reached : p.Reached n)
    (above : p.Above a n) : p.Reached a := by
  induction above with
  | refl => exact reached
  | up link _ ih => exact ih (sound.forest.reached_owner sound.rooted reached link)

namespace Relink

variable {owner : NodeId} {gone come lost : Option NodeId}

theorem rooted (edit : Relink p owner gone come lost q) (pruned : Pruned p lost q)
    (sound : p.Sound) (scope : ∀ r ∈ p.roots, q.scope? r = p.scope? r) : q.Rooted where
  modules_nodup := by
    rw [pruned.modules]
    exact sound.rooted.modules_nodup
  symbol_live {m} member := by
    rw [pruned.modules] at member
    refine pruned.symbol_live.mpr ⟨sound.rooted.symbol_live member, fun n _ _ defines => ?_⟩
    exact sound.bound_local defines member
  sort_module {m} member := by
    rw [pruned.modules] at member
    rw [pruned.moduleBlock?]
    exact sound.rooted.sort_module member
  root_live {m r} member block := by
    rw [pruned.modules] at member
    rw [pruned.moduleBlock?] at block
    refine edit.live.mpr ⟨sound.rooted.root_live member block, fun below => ?_⟩
    obtain ⟨g, old, above⟩ := edit.under_gone_of_lost below
    have owned := edit.gone_owned old
    rw [above.eq_of_top (sound.rooted.root_top member block),
      sound.rooted.root_top member block] at owned
    cases owned
  root_top {m r} member block := by
    rw [pruned.modules] at member
    rw [pruned.moduleBlock?] at block
    have notNew : come ≠ some r := fun new =>
      edit.come_free new (mem_roots.mpr ⟨m, member, block⟩)
    rw [edit.parent, if_neg notNew, sound.rooted.root_top member block, ite_self]
  root_block {m r} member block := by
    rw [pruned.modules] at member
    rw [pruned.moduleBlock?] at block
    rw [(edit.head r).isBlock]
    exact sound.rooted.root_block member block
  root_scope {m r} member block := by
    rw [pruned.modules] at member
    rw [pruned.moduleBlock?] at block
    rw [scope r (mem_roots.mpr ⟨m, member, block⟩)]
    exact sound.rooted.root_scope member block

/-- A module root is not below the node that comes. -/
theorem root_not_under (edit : Relink p owner gone come lost q) (rooted : p.Rooted) {r : NodeId}
    (root : r ∈ p.roots) : ¬ p.Under come r := by
  rintro ⟨c, new, above⟩
  exact edit.come_free new (above.eq_of_top (rooted.top_of_root root) ▸ root)

end Relink

namespace Edit

variable {owner : NodeId} {gone come lost : Option NodeId}

theorem rooted (edit : Edit p owner gone come lost q) (sound : p.Sound) : q.Rooted :=
  edit.toRelink.rooted edit.toPruned sound fun _ root =>
    edit.scope_kept (edit.root_not_under sound.rooted root)

theorem reached_iff (edit : Edit p owner gone come lost q) (sound : p.Sound) {n : NodeId} :
    q.Reached n ↔
      p.Reached n ∧ ¬ p.Under gone n ∨ p.Reached owner ∧ p.Live n ∧ p.Under come n :=
  edit.toRelink.reached_iff sound.forest sound.rooted (edit.rooted sound) edit.toPruned.roots

theorem scopeBelow_kept (edit : Edit p owner gone come lost q) {n : NodeId}
    (apart : ¬ p.Under come n) : q.scopeBelow n = p.scopeBelow n :=
  scopeBelow_of_head (edit.head n) (edit.scope_kept apart)

theorem not_under_come_of_reached (edit : Edit p owner gone come lost q) (sound : p.Sound)
    {n : NodeId} (reached : p.Reached n) : ¬ p.Under come n := by
  obtain ⟨_, r, root, above⟩ := sound.reached_iff.mp reached
  rintro ⟨c, new, aboveC⟩
  have same : r = c := by
    rcases above.total aboveC with up | up
    · exact up.eq_of_top (edit.come_top new)
    · exact (up.eq_of_top (sound.rooted.top_of_root root)).symm
  exact edit.come_free new (same ▸ root)

theorem sound (edit : Edit p owner gone come lost q) (sound : p.Sound) : q.Sound where
  forest := edit.toRelink.forest sound.forest
  rooted := edit.rooted sound
  scope_below {n c} reached child := by
    rcases (edit.reached_iff sound).mp reached with ⟨old, stays⟩ | ⟨_, live, below⟩
    · have apart := edit.not_under_come_of_reached sound old
      rcases edit.child_cases child with ⟨new, rfl⟩ | ⟨child', _⟩
      · exact edit.scope_come new
      · have apart' := edit.not_under_come_of_reached sound (old.child child')
        rw [edit.scope_kept apart', edit.scopeBelow_kept apart, sound.scope_below old child']
    · rcases edit.child_cases child with ⟨new, rfl⟩ | ⟨child', _⟩
      · exact edit.scope_come new
      · exact edit.scope_inside live below child'
  bound {n s} defines := by
    rw [(edit.head n).defines] at defines
    rw [edit.toPruned.decl]
    exact sound.bound defines
  bound_known {n s} defines := by
    rw [(edit.head n).defines] at defines
    rw [edit.symbols_size]
    exact sound.bound_known defines
  bound_local {n s} defines := by
    rw [(edit.head n).defines] at defines
    rw [edit.modules]
    exact sound.bound_local defines
  symbol_live {s} known live := by
    rw [edit.symbols_size] at known
    have liveN (n : NodeId) (defines : (p.kind n).defines? = some s) : q.Live n :=
      live n ((edit.head n).defines.trans defines)
    refine edit.symbol_live.mpr ⟨sound.symbol_live known fun n defines => ?_,
      fun n _ below defines => ?_⟩
    · exact (edit.live.mp (liveN n defines)).1
    · exact (edit.live.mp (liveN n defines)).2 below
  exact := edit.exact

end Edit

end MiddleEnd.Program
