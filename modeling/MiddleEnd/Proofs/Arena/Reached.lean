import MiddleEnd.Proofs.Arena.Path

namespace MiddleEnd.Program

/-- What one comes to from a module root by going down from child to child. -/
inductive Reached (p : Program) : NodeId → Prop
  | root {r : NodeId} : r ∈ p.roots → Reached p r
  | child {n c : NodeId} : Reached p n → c ∈ p.children n → Reached p c

/-- Every module has a live block of its own at the top of a tree. -/
structure Rooted (p : Program) : Prop where
  modules_nodup : p.modules.Nodup
  symbol_live {m : SymbolId} : m ∈ p.modules → (p.symbol m).live = true
  sort_module {m : SymbolId} : m ∈ p.modules → ∃ r, p.moduleBlock? m = some r
  root_live {m : SymbolId} {r : NodeId} : m ∈ p.modules → p.moduleBlock? m = some r → p.Live r
  root_top {m : SymbolId} {r : NodeId} :
    m ∈ p.modules → p.moduleBlock? m = some r → p.parent? r = none
  root_block {m : SymbolId} {r : NodeId} :
    m ∈ p.modules → p.moduleBlock? m = some r → (p.kind r).isBlock = true
  root_scope {m : SymbolId} {r : NodeId} :
    m ∈ p.modules → p.moduleBlock? m = some r → p.scope? r = some m

variable {p : Program}

theorem mem_roots {r : NodeId} : r ∈ p.roots ↔ ∃ m ∈ p.modules, p.moduleBlock? m = some r :=
  List.mem_filterMap

theorem isRoot_iff {r : NodeId} : p.isRoot r = true ↔ r ∈ p.roots := List.contains_iff_mem

theorem Rooted.live_of_root (rooted : p.Rooted) {r : NodeId} (root : r ∈ p.roots) : p.Live r := by
  obtain ⟨m, member, block⟩ := mem_roots.mp root
  exact rooted.root_live member block

theorem Rooted.top_of_root (rooted : p.Rooted) {r : NodeId} (root : r ∈ p.roots) :
    p.parent? r = none := by
  obtain ⟨m, member, block⟩ := mem_roots.mp root
  exact rooted.root_top member block

theorem Rooted.roots_nodup (rooted : p.Rooted) : p.roots.Nodup := by
  rw [Program.roots, List.Nodup, List.pairwise_filterMap]
  refine rooted.modules_nodup.imp_of_mem fun {m m'} member member' different r block r' block' => ?_
  rintro rfl
  have first := rooted.root_scope member block
  exact different (Option.some.inj (first.symm.trans (rooted.root_scope member' block')))

namespace Reached

theorem live (forest : p.Forest) (rooted : p.Rooted) {n : NodeId} (reached : p.Reached n) :
    p.Live n := by
  induction reached with
  | root isRoot => exact rooted.live_of_root isRoot
  | child _ member ih => exact forest.child_live ih member

theorem below_root (forest : p.Forest) (rooted : p.Rooted) {n : NodeId} (reached : p.Reached n) :
    ∃ r ∈ p.roots, p.Above r n := by
  induction reached with
  | root isRoot => exact ⟨_, isRoot, .refl⟩
  | child reached member ih =>
    obtain ⟨r, isRoot, above⟩ := ih
    exact ⟨r, isRoot, .up (forest.child_parent (reached.live forest rooted) member) above⟩

theorem of_above (forest : p.Forest) {a n : NodeId} (reached : p.Reached a) (live : p.Live n)
    (above : p.Above a n) : p.Reached n := by
  induction above with
  | refl => exact reached
  | up link _ ih =>
    exact .child (ih (forest.owner_live live link)) (forest.owner_lists live link)

end Reached

namespace Forest

/-- The nodes that can be reached are the live ones below a module root. -/
theorem reached_iff (forest : p.Forest) (rooted : p.Rooted) {n : NodeId} :
    p.Reached n ↔ p.Live n ∧ ∃ r ∈ p.roots, p.Above r n := by
  constructor
  · intro reached
    exact ⟨reached.live forest rooted, reached.below_root forest rooted⟩
  · rintro ⟨live, r, isRoot, above⟩
    exact (Reached.root isRoot).of_above forest live above

/-- The owner of a node that can be reached can be reached too. -/
theorem reached_owner (forest : p.Forest) (rooted : p.Rooted) {n owner : NodeId}
    (reached : p.Reached n) (link : p.parent? n = some owner) : p.Reached owner := by
  obtain ⟨live, r, isRoot, above⟩ := (forest.reached_iff rooted).mp reached
  refine (forest.reached_iff rooted).mpr ⟨forest.owner_live live link, r, isRoot, ?_⟩
  refine above.owner_of_ne link ?_
  rintro rfl
  rw [rooted.top_of_root isRoot] at link
  cases link

theorem isAttached_iff (forest : p.Forest) (rooted : p.Rooted) {n : NodeId} :
    p.isAttached n = true ↔ p.Reached n := by
  rw [forest.reached_iff rooted, isAttached, Bool.and_eq_true, List.all_eq_true]
  constructor
  · rintro ⟨allLive, last⟩
    obtain ⟨top, above, isTop⟩ := forest.exists_top n
    rw [forest.getLast_path above isTop, Option.any_some, isRoot_iff] at last
    exact ⟨allLive n (forest.mem_path_iff.mpr .refl), top, last, above⟩
  · rintro ⟨live, r, isRoot, above⟩
    refine ⟨fun a onPath => forest.live_of_above (forest.mem_path_iff.mp onPath) live, ?_⟩
    rw [forest.getLast_path above (rooted.top_of_root isRoot), Option.any_some, isRoot_iff]
    exact isRoot

end Forest

end MiddleEnd.Program
