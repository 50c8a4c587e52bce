import MiddleEnd.Proofs.Arena.Lookup

namespace MiddleEnd.Program

/-- `p.Above a n`: the node `a` is `n` itself or one of the owners above it. -/
inductive Above (p : Program) (a : NodeId) : NodeId → Prop
  | refl : Above p a a
  | up {n owner : NodeId} : p.parent? n = some owner → Above p a owner → Above p a n

/-- The live nodes form trees: children and owners agree, no node is listed twice, and no node is
above its own owner. Destroyed nodes keep the owners that they had. -/
structure Forest (p : Program) : Prop where
  child_live {n c : NodeId} : p.Live n → c ∈ p.children n → p.Live c
  child_parent {n c : NodeId} : p.Live n → c ∈ p.children n → p.parent? c = some n
  children_nodup {n : NodeId} : p.Live n → (p.children n).Nodup
  owner_live {n owner : NodeId} : p.Live n → p.parent? n = some owner → p.Live owner
  owner_lists {n owner : NodeId} : p.Live n → p.parent? n = some owner → n ∈ p.children owner
  owner_known {n owner : NodeId} : p.parent? n = some owner → owner.index < p.nodes.size
  acyclic {n owner : NodeId} : p.parent? n = some owner → ¬ p.Above n owner

variable {p q : Program}

namespace Above

theorem trans {a b n : NodeId} (upper : p.Above a b) (lower : p.Above b n) : p.Above a n := by
  induction lower with
  | refl => exact upper
  | up link _ ih => exact .up link ih

theorem of_parent {n owner : NodeId} (link : p.parent? n = some owner) : p.Above owner n :=
  .up link .refl

/-- Above a node other than itself stands whatever is above its owner. -/
theorem owner_of_ne {a n owner : NodeId} (above : p.Above a n) (link : p.parent? n = some owner)
    (different : a ≠ n) : p.Above a owner := by
  cases above with
  | refl => exact absurd rfl different
  | up link' rest =>
    cases Option.some.inj (link'.symm.trans link)
    exact rest

/-- Nothing but the node itself is above a node without an owner. -/
theorem eq_of_top {a n : NodeId} (above : p.Above a n) (top : p.parent? n = none) : a = n := by
  cases above with
  | refl => rfl
  | up link _ => rw [top] at link; cases link

/-- Of two nodes above a third, one is above the other. -/
theorem total {a b n : NodeId} (first : p.Above a n) (second : p.Above b n) :
    p.Above a b ∨ p.Above b a := by
  induction first with
  | refl => exact .inr second
  | up link rest ih =>
    cases second with
    | refl => exact .inl (.up link rest)
    | up link' rest' =>
      cases Option.some.inj (link'.symm.trans link)
      exact ih rest'

end Above

namespace Forest

theorem above_antisymm (forest : p.Forest) {a n : NodeId} (down : p.Above a n)
    (up : p.Above n a) : a = n := by
  cases down with
  | refl => rfl
  | up link rest => exact absurd (up.trans rest) (forest.acyclic link)

theorem live_of_above (forest : p.Forest) {a n : NodeId} (above : p.Above a n) (live : p.Live n) :
    p.Live a := by
  induction above with
  | refl => exact live
  | up link _ ih => exact ih (forest.owner_live live link)

theorem child_unique (forest : p.Forest) {m n c : NodeId} (liveM : p.Live m) (liveN : p.Live n)
    (ofM : c ∈ p.children m) (ofN : c ∈ p.children n) : m = n :=
  Option.some.inj ((forest.child_parent liveM ofM).symm.trans (forest.child_parent liveN ofN))

theorem child_ne (forest : p.Forest) {n c : NodeId} (live : p.Live n) (child : c ∈ p.children n) :
    c ≠ n := by
  rintro rfl
  exact forest.acyclic (forest.child_parent live child) .refl

theorem above_of_child (forest : p.Forest) {a c n : NodeId} (live : p.Live a)
    (child : c ∈ p.children a) (below : p.Above c n) : p.Above a n :=
  (Above.of_parent (forest.child_parent live child)).trans below

/-- What is below a node is below one of its children. -/
theorem child_above (forest : p.Forest) {a n : NodeId} (above : p.Above a n) (live : p.Live n)
    (different : a ≠ n) : ∃ c ∈ p.children a, p.Above c n := by
  induction above with
  | refl => exact absurd rfl different
  | @up n owner link rest ih =>
    by_cases same : a = owner
    · subst same
      exact ⟨n, forest.owner_lists live link, .refl⟩
    · obtain ⟨c, child, below⟩ := ih (forest.owner_live live link) same
      exact ⟨c, child, .up link below⟩

/-- The subtrees of two children of a node have nothing in common. -/
theorem children_disjoint (forest : p.Forest) {a c d n : NodeId} (live : p.Live a)
    (ofC : c ∈ p.children a) (ofD : d ∈ p.children a) (belowC : p.Above c n)
    (belowD : p.Above d n) : c = d := by
  have parentC := forest.child_parent live ofC
  have parentD := forest.child_parent live ofD
  rcases belowC.total belowD with up | up
  · by_contra different
    exact forest.acyclic parentC (up.owner_of_ne parentD different)
  · by_contra different
    exact forest.acyclic parentD (up.owner_of_ne parentC (Ne.symm different))

end Forest

end MiddleEnd.Program
