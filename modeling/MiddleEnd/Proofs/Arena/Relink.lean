import MiddleEnd.Proofs.Arena.Reached
import MiddleEnd.Proofs.Arena.Slots

namespace MiddleEnd.Program

/-- At or below a node that may be missing. -/
def Under (p : Program) (top : Option NodeId) (n : NodeId) : Prop := ∃ a, top = some a ∧ p.Above a n

/-- The tree `q` is the tree `p` after `owner` has given up the child `gone` and taken the child
`come`, and after all below `lost` has been destroyed. Each of the three may be missing. -/
structure Relink (p : Program) (owner : NodeId) (gone come lost : Option NodeId)
    (q : Program) : Prop where
  owner_live : p.Live owner
  gone_live {g : NodeId} : gone = some g → p.Live g
  gone_owned {g : NodeId} : gone = some g → p.parent? g = some owner
  lost_gone {g : NodeId} : lost = some g → gone = some g
  come_live {c : NodeId} : come = some c → p.Live c
  come_top {c : NodeId} : come = some c → p.parent? c = none
  come_free {c : NodeId} : come = some c → c ∉ p.roots
  come_apart {c : NodeId} : come = some c → ¬ p.Above c owner
  size : q.nodes.size = p.nodes.size
  kind_of_ne {n : NodeId} : n ≠ owner → q.kind n = p.kind n
  head (n : NodeId) : (p.kind n).SameHead (q.kind n)
  mem_children {c : NodeId} :
    c ∈ q.children owner ↔ c ∈ p.children owner ∧ gone ≠ some c ∨ come = some c
  children_nodup : (q.children owner).Nodup
  parent (n : NodeId) :
    q.parent? n =
      if come = some n then some owner else if gone = some n then none else p.parent? n
  live {n : NodeId} : q.Live n ↔ p.Live n ∧ ¬ p.Under lost n

namespace Relink

variable {p q : Program} {owner : NodeId} {gone come lost : Option NodeId}

theorem children_of_ne (edit : Relink p owner gone come lost q) {n : NodeId}
    (different : n ≠ owner) : q.children n = p.children n := by
  rw [children, edit.kind_of_ne different, children]

theorem parent_come (edit : Relink p owner gone come lost q) {c : NodeId} (new : come = some c) :
    q.parent? c = some owner := by
  rw [edit.parent, if_pos new]

theorem parent_gone (edit : Relink p owner gone come lost q) {g : NodeId} (old : gone = some g) :
    q.parent? g = none := by
  have notNew : come ≠ some g := by
    intro new
    have owned := edit.gone_owned old
    rw [edit.come_top new] at owned
    cases owned
  rw [edit.parent, if_neg notNew, if_pos old]

theorem parent_kept (edit : Relink p owner gone come lost q) {n m : NodeId}
    (link : p.parent? n = some m) (kept : gone ≠ some n) : q.parent? n = some m := by
  have notNew : come ≠ some n := by
    intro new
    rw [edit.come_top new] at link
    cases link
  rw [edit.parent, if_neg notNew, if_neg kept, link]

/-- An owner in the new tree is the old one, or else the node has just come. -/
theorem parent_cases (edit : Relink p owner gone come lost q) {n m : NodeId}
    (link : q.parent? n = some m) :
    come = some n ∧ m = owner ∨ p.parent? n = some m ∧ gone ≠ some n := by
  rw [edit.parent] at link
  split at link
  · rename_i new
    exact .inl ⟨new, (Option.some.inj link).symm⟩
  · split at link
    · cases link
    · rename_i kept
      exact .inr ⟨link, kept⟩

theorem not_under_gone_owner (edit : Relink p owner gone come lost q) (forest : p.Forest) :
    ¬ p.Under gone owner := by
  rintro ⟨g, old, above⟩
  exact forest.acyclic (edit.gone_owned old) above

theorem not_under_come_owner (edit : Relink p owner gone come lost q) :
    ¬ p.Under come owner := by
  rintro ⟨c, new, above⟩
  exact edit.come_apart new above

/-- The subtree that comes and the one that goes have nothing in common. -/
theorem not_under_gone_of_come (edit : Relink p owner gone come lost q) {n : NodeId}
    (below : p.Under come n) : ¬ p.Under gone n := by
  obtain ⟨c, new, aboveC⟩ := below
  rintro ⟨g, old, aboveG⟩
  have owned := edit.gone_owned old
  have top := edit.come_top new
  rcases aboveC.total aboveG with up | up
  · refine edit.come_apart new (up.owner_of_ne owned ?_)
    rintro rfl
    rw [top] at owned
    cases owned
  · cases up.eq_of_top top
    rw [top] at owned
    cases owned

theorem under_gone_of_lost (edit : Relink p owner gone come lost q) {n : NodeId}
    (below : p.Under lost n) : p.Under gone n := by
  obtain ⟨g, isLost, above⟩ := below
  exact ⟨g, edit.lost_gone isLost, above⟩

theorem above_cases (edit : Relink p owner gone come lost q) {a n : NodeId}
    (above : q.Above a n) : p.Above a n ∨ p.Under come n ∧ p.Above a owner := by
  induction above with
  | refl => exact .inl .refl
  | @up n m link _ ih =>
    rcases edit.parent_cases link with ⟨new, rfl⟩ | ⟨old, _⟩
    · rcases ih with atOwner | ⟨below, _⟩
      · exact .inr ⟨⟨n, new, .refl⟩, atOwner⟩
      · exact absurd below edit.not_under_come_owner
    · rcases ih with above | ⟨⟨c, new, below⟩, atOwner⟩
      · exact .inl (.up old above)
      · exact .inr ⟨⟨c, new, .up old below⟩, atOwner⟩

/-- The way up from a node stays as it is as far as the subtree that goes. -/
theorem above_kept (edit : Relink p owner gone come lost q) (forest : p.Forest) {a n : NodeId}
    (above : p.Above a n) (inside : ∀ g, gone = some g → p.Above g n → p.Above g a) :
    q.Above a n := by
  induction above with
  | refl => exact .refl
  | @up n m link rest ih =>
    by_cases old : gone = some n
    · have same := forest.above_antisymm (.up link rest) (inside n old .refl)
      exact same ▸ .refl
    · exact .up (edit.parent_kept link old)
        (ih fun g isGone below => inside g isGone (.up link below))

theorem above_of_not_under (edit : Relink p owner gone come lost q) (forest : p.Forest)
    {a n : NodeId} (above : p.Above a n) (stays : ¬ p.Under gone n) : q.Above a n :=
  edit.above_kept forest above fun g old below => absurd ⟨g, old, below⟩ stays

theorem owner_above_come (edit : Relink p owner gone come lost q) (forest : p.Forest)
    {n : NodeId} (below : p.Under come n) : q.Above owner n := by
  have stays := edit.not_under_gone_of_come below
  obtain ⟨c, new, above⟩ := below
  exact (Above.of_parent (edit.parent_come new)).trans (edit.above_of_not_under forest above stays)

/-- The new owners form no circle either: a circle would run through the new child and its owner,
but the child was not above the owner. -/
theorem acyclic (edit : Relink p owner gone come lost q) (forest : p.Forest) {n m : NodeId}
    (link : q.parent? n = some m) : ¬ q.Above n m := by
  intro circle
  rcases edit.parent_cases link with ⟨new, rfl⟩ | ⟨old, _⟩
  · rcases edit.above_cases circle with above | ⟨_, above⟩ <;> exact edit.come_apart new above
  · rcases edit.above_cases circle with above | ⟨⟨c, new, below⟩, above⟩
    · exact forest.acyclic old above
    · exact edit.come_apart new ((below.trans (Above.of_parent old)).trans above)

theorem child_cases (edit : Relink p owner gone come lost q) {n c : NodeId}
    (child : c ∈ q.children n) :
    come = some c ∧ n = owner ∨ c ∈ p.children n ∧ (n = owner → gone ≠ some c) := by
  by_cases same : n = owner
  · subst same
    rcases edit.mem_children.mp child with ⟨old, kept⟩ | new
    · exact .inr ⟨old, fun _ => kept⟩
    · exact .inl ⟨new, rfl⟩
  · rw [edit.children_of_ne same] at child
    exact .inr ⟨child, fun equal => absurd equal same⟩

theorem gone_ne_of_child (edit : Relink p owner gone come lost q) (forest : p.Forest)
    {n c : NodeId} (live : p.Live n) (child : c ∈ p.children n)
    (kept : n = owner → gone ≠ some c) : gone ≠ some c := by
  intro old
  have owned := edit.gone_owned old
  rw [forest.child_parent live child] at owned
  exact kept (Option.some.inj owned) old

theorem child_live (edit : Relink p owner gone come lost q) (forest : p.Forest) {n c : NodeId}
    (live : q.Live n) (child : c ∈ q.children n) : q.Live c := by
  obtain ⟨liveN, stays⟩ := edit.live.mp live
  rcases edit.child_cases child with ⟨new, rfl⟩ | ⟨old, kept⟩
  · refine edit.live.mpr ⟨edit.come_live new, fun below => ?_⟩
    exact edit.not_under_gone_of_come ⟨c, new, .refl⟩ (edit.under_gone_of_lost below)
  · refine edit.live.mpr ⟨forest.child_live liveN old, ?_⟩
    rintro ⟨g, isLost, above⟩
    have different : g ≠ c := by
      rintro rfl
      exact edit.gone_ne_of_child forest liveN old kept (edit.lost_gone isLost)
    exact stays ⟨g, isLost, above.owner_of_ne (forest.child_parent liveN old) different⟩

theorem owner_live_of_parent (edit : Relink p owner gone come lost q) (forest : p.Forest)
    {n m : NodeId} (live : q.Live n) (link : q.parent? n = some m) : q.Live m := by
  obtain ⟨liveN, stays⟩ := edit.live.mp live
  rcases edit.parent_cases link with ⟨_, rfl⟩ | ⟨old, _⟩
  · refine edit.live.mpr ⟨edit.owner_live, fun below => ?_⟩
    exact edit.not_under_gone_owner forest (edit.under_gone_of_lost below)
  · refine edit.live.mpr ⟨forest.owner_live liveN old, ?_⟩
    rintro ⟨g, isLost, above⟩
    exact stays ⟨g, isLost, .up old above⟩

theorem forest (edit : Relink p owner gone come lost q) (forest : p.Forest) : q.Forest where
  child_live := edit.child_live forest
  child_parent {n c} live child := by
    have liveN := (edit.live.mp live).1
    rcases edit.child_cases child with ⟨new, rfl⟩ | ⟨old, kept⟩
    · exact edit.parent_come new
    · exact edit.parent_kept (forest.child_parent liveN old)
        (edit.gone_ne_of_child forest liveN old kept)
  children_nodup {n} live := by
    by_cases same : n = owner
    · exact same ▸ edit.children_nodup
    · rw [edit.children_of_ne same]
      exact forest.children_nodup (edit.live.mp live).1
  owner_live := edit.owner_live_of_parent forest
  owner_lists {n m} live link := by
    have liveN := (edit.live.mp live).1
    rcases edit.parent_cases link with ⟨new, rfl⟩ | ⟨old, kept⟩
    · exact edit.mem_children.mpr (.inr new)
    · by_cases same : m = owner
      · subst same
        exact edit.mem_children.mpr (.inl ⟨forest.owner_lists liveN old, kept⟩)
      · rw [edit.children_of_ne same]
        exact forest.owner_lists liveN old
  owner_known {n m} link := by
    rw [edit.size]
    rcases edit.parent_cases link with ⟨_, rfl⟩ | ⟨old, _⟩
    · exact edit.owner_live.known
    · exact forest.owner_known old
  acyclic := edit.acyclic forest

/-- What can be reached afterwards: all that could be reached before except what goes, and what
comes if its owner can be reached. -/
theorem reached_iff (edit : Relink p owner gone come lost q) (forest : p.Forest)
    (rooted : p.Rooted) (rooted' : q.Rooted) (roots : q.roots = p.roots) {n : NodeId} :
    q.Reached n ↔
      p.Reached n ∧ ¬ p.Under gone n ∨ p.Reached owner ∧ p.Live n ∧ p.Under come n := by
  rw [(edit.forest forest).reached_iff rooted', roots, edit.live]
  constructor
  · rintro ⟨⟨live, _⟩, r, isRoot, above⟩
    rcases edit.above_cases above with old | ⟨below, atOwner⟩
    · refine .inl ⟨(forest.reached_iff rooted).mpr ⟨live, r, isRoot, old⟩, ?_⟩
      rintro ⟨g, isGone, belowG⟩
      have aboveG : q.Above g n := edit.above_kept forest belowG fun g' isGone' _ => by
        cases isGone.symm.trans isGone'
        exact .refl
      have same : r = g := by
        rcases above.total aboveG with up | up
        · exact up.eq_of_top (edit.parent_gone isGone)
        · exact (up.eq_of_top (rooted'.top_of_root (roots ▸ isRoot))).symm
      have owned := edit.gone_owned isGone
      rw [← same, rooted.top_of_root isRoot] at owned
      cases owned
    · exact .inr ⟨(forest.reached_iff rooted).mpr ⟨edit.owner_live, r, isRoot, atOwner⟩, live, below⟩
  · rintro (⟨reached, stays⟩ | ⟨reached, live, below⟩)
    · obtain ⟨live, r, isRoot, above⟩ := (forest.reached_iff rooted).mp reached
      exact ⟨⟨live, fun isLost => stays (edit.under_gone_of_lost isLost)⟩, r, isRoot,
        edit.above_of_not_under forest above stays⟩
    · obtain ⟨_, r, isRoot, above⟩ := (forest.reached_iff rooted).mp reached
      have stays := edit.not_under_gone_of_come below
      refine ⟨⟨live, fun isLost => stays (edit.under_gone_of_lost isLost)⟩, r, isRoot, ?_⟩
      exact (edit.above_of_not_under forest above (edit.not_under_gone_owner forest)).trans
        (edit.owner_above_come forest below)

end Relink

end MiddleEnd.Program
