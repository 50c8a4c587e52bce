import MiddleEnd.Proofs.Arena.Sound
import MiddleEnd.Proofs.Arena.Subtree

/-! Ways down from the module roots. Where owners and children agree on what can be reached, there
is one way to each node, whatever the rest of the arena looks like. -/

namespace MiddleEnd.Program

variable {p : Program} {i j : Nat} {way way' : List (NodeId × Nat)} {n c : NodeId}

/-- A way down to a node: the place of the module where it starts, and the nodes that it passes, each
with the child slot that it takes there, the last one first. -/
inductive Way (p : Program) : Nat → List (NodeId × Nat) → NodeId → Prop
  | root {i : Nat} {m : SymbolId} {r : NodeId} :
      p.modules[i]? = some m → p.moduleBlock? m = some r → Way p i [] r
  | step {i k : Nat} {way : List (NodeId × Nat)} {n c : NodeId} :
      Way p i way n → (p.children n)[k]? = some c → Way p i ((n, k) :: way) c

theorem Way.reached (down : p.Way i way n) : p.Reached n := by
  induction down with
  | root place block => exact .root (mem_roots.mpr ⟨_, List.mem_of_getElem? place, block⟩)
  | step _ slot reached => exact .child reached (List.mem_of_getElem? slot)

theorem Reached.exists_way (reached : p.Reached n) : ∃ i way, p.Way i way n := by
  induction reached with
  | root isRoot =>
    obtain ⟨m, member, block⟩ := mem_roots.mp isRoot
    obtain ⟨i, place⟩ := List.mem_iff_getElem?.mp member
    exact ⟨i, [], .root place block⟩
  | child _ member ih =>
    obtain ⟨i, way, down⟩ := ih
    obtain ⟨k, slot⟩ := List.mem_iff_getElem?.mp member
    exact ⟨i, _, .step down slot⟩

/-- What can be reached branches like a tree: owners and children agree, and no node is listed
twice. -/
structure Branches (p : Program) : Prop where
  roots_nodup : p.roots.Nodup
  root_top {r : NodeId} : r ∈ p.roots → p.parent? r = none
  child_parent {n c : NodeId} : p.Reached n → c ∈ p.children n → p.parent? c = some n
  children_nodup {n : NodeId} : p.Reached n → (p.children n).Nodup

theorem Sound.branches (sound : p.Sound) : p.Branches where
  roots_nodup := sound.rooted.roots_nodup
  root_top := sound.rooted.top_of_root
  child_parent reached child := sound.forest.child_parent (sound.live_of_reached reached) child
  children_nodup reached := sound.forest.children_nodup (sound.live_of_reached reached)

theorem place_unique {α β : Type} {f : α → Option β} {xs : List α} (distinct : (xs.filterMap f).Nodup)
    {a b : α} {y : β} (first : xs[i]? = some a) (second : xs[j]? = some b) (ofFirst : f a = some y)
    (ofSecond : f b = some y) : i = j := by
  induction xs generalizing i j with
  | nil => simp at first
  | cons x xs ih =>
    cases i with
    | zero =>
      cases j with
      | zero => rfl
      | succ j =>
        obtain rfl : x = a := Option.some.inj first
        rw [List.filterMap_cons_some ofFirst] at distinct
        have again : y ∈ xs.filterMap f :=
          List.mem_filterMap.mpr ⟨b, List.mem_of_getElem? second, ofSecond⟩
        exact absurd again (List.nodup_cons.mp distinct).1
    | succ i =>
      cases j with
      | zero =>
        obtain rfl : x = b := Option.some.inj second
        rw [List.filterMap_cons_some ofSecond] at distinct
        have again : y ∈ xs.filterMap f :=
          List.mem_filterMap.mpr ⟨a, List.mem_of_getElem? first, ofFirst⟩
        exact absurd again (List.nodup_cons.mp distinct).1
      | succ j =>
        have rest : (xs.filterMap f).Nodup :=
          distinct.sublist ((List.sublist_cons_self x xs).filterMap f)
        exact congrArg (· + 1) (ih rest first second)

namespace Branches

theorem not_root_of_child (branches : p.Branches) (reached : p.Reached n)
    (child : c ∈ p.children n) : c ∉ p.roots := fun root => by
  have owned := branches.child_parent reached child
  rw [branches.root_top root] at owned
  cases owned

theorem owner_unique (branches : p.Branches) {m : NodeId} (ofN : p.Reached n) (ofM : p.Reached m)
    (child : c ∈ p.children n) (child' : c ∈ p.children m) : n = m :=
  Option.some.inj ((branches.child_parent ofN child).symm.trans (branches.child_parent ofM child'))

/-- There is one way down to each node. -/
theorem way_unique (branches : p.Branches) (first : p.Way i way n) (second : p.Way j way' n) :
    i = j ∧ way = way' := by
  induction first generalizing j way' with
  | root place block =>
    cases second with
    | root place' block' =>
      exact ⟨place_unique branches.roots_nodup place place' block block', rfl⟩
    | step before slot =>
      exact absurd (mem_roots.mpr ⟨_, List.mem_of_getElem? place, block⟩)
        (branches.not_root_of_child before.reached (List.mem_of_getElem? slot))
  | @step k way n c before slot ih =>
    cases second with
    | root place block =>
      exact absurd (mem_roots.mpr ⟨_, List.mem_of_getElem? place, block⟩)
        (branches.not_root_of_child before.reached (List.mem_of_getElem? slot))
    | @step k' _ m _ before' slot' =>
      cases branches.owner_unique before.reached before'.reached (List.mem_of_getElem? slot)
        (List.mem_of_getElem? slot')
      obtain ⟨rfl, rfl⟩ := ih before'
      have bound := (List.getElem?_eq_some_iff.mp slot).1
      have same : k = k' :=
        (List.getElem?_inj bound (branches.children_nodup before.reached)).mp (slot.trans slot'.symm)
      exact ⟨rfl, same ▸ rfl⟩

end Branches

/-! The program without what can not be reached. -/

open Classical in
/-- The program with an empty place for each node that can not be reached. -/
noncomputable def cleared (p : Program) : Program :=
  { p with nodes := p.nodes.mapIdx fun i node => if p.Reached ⟨i⟩ then node else .absent }

theorem size_cleared : p.cleared.nodes.size = p.nodes.size := Array.size_mapIdx

open Classical in
theorem node_cleared : p.cleared.node n = if p.Reached n then p.node n else .absent := by
  simp only [node, cleared, Array.getD_eq_getD_getElem?, Array.getElem?_mapIdx]
  cases p.nodes[n.index]? with
  | none => split <;> rfl
  | some node => rfl

theorem node_cleared_of_reached (reached : p.Reached n) : p.cleared.node n = p.node n := by
  rw [node_cleared, if_pos reached]

theorem node_cleared_of_not (apart : ¬ p.Reached n) : p.cleared.node n = .absent := by
  rw [node_cleared, if_neg apart]

theorem reached_of_live_cleared (live : p.cleared.Live n) : p.Reached n := by
  by_contra apart
  rw [Live, node_cleared_of_not apart] at live
  cases live

theorem children_cleared (reached : p.Reached n) : p.cleared.children n = p.children n := by
  rw [children, kind, node_cleared_of_reached reached]
  rfl

theorem reached_of_parent_cleared {owner : NodeId} (link : p.cleared.parent? n = some owner) :
    p.Reached n ∧ p.parent? n = some owner := by
  by_cases reached : p.Reached n
  · rw [parent?, node_cleared_of_reached reached] at link
    exact ⟨reached, link⟩
  · rw [parent?, node_cleared_of_not reached] at link
    cases link

namespace Branches

/-- The owner that a reached node records has been passed on the way. -/
theorem way_of_parent (branches : p.Branches) {owner : NodeId} (down : p.Way i way n)
    (link : p.parent? n = some owner) :
    ∃ k rest, way = (owner, k) :: rest ∧ p.Way i rest owner ∧ n ∈ p.children owner := by
  cases down with
  | root place block =>
    rw [branches.root_top (mem_roots.mpr ⟨_, List.mem_of_getElem? place, block⟩)] at link
    cases link
  | step before slot =>
    have child := List.mem_of_getElem? slot
    cases (branches.child_parent before.reached child).symm.trans link
    exact ⟨_, _, rfl, before, child⟩

theorem way_of_above_cleared (branches : p.Branches) {a : NodeId} (above : p.cleared.Above a n)
    (down : p.Way i way n) : ∃ way', p.Way i way' a ∧ way'.length ≤ way.length := by
  induction above generalizing way with
  | refl => exact ⟨way, down, Nat.le_refl _⟩
  | up link _ ih =>
    obtain ⟨k, rest, rfl, before, -⟩ :=
      branches.way_of_parent down (reached_of_parent_cleared link).2
    obtain ⟨way', upper, shorter⟩ := ih before
    exact ⟨way', upper, Nat.le_succ_of_le shorter⟩

theorem forest_cleared (branches : p.Branches) (live : ∀ n, p.Reached n → p.Live n) :
    p.cleared.Forest where
  child_live {n c} liveN child := by
    have reached := reached_of_live_cleared liveN
    rw [children_cleared reached] at child
    rw [Live, node_cleared_of_reached (reached.child child)]
    exact live c (reached.child child)
  child_parent {n c} liveN child := by
    have reached := reached_of_live_cleared liveN
    rw [children_cleared reached] at child
    rw [parent?, node_cleared_of_reached (reached.child child)]
    exact branches.child_parent reached child
  children_nodup {n} liveN := by
    rw [children_cleared (reached_of_live_cleared liveN)]
    exact branches.children_nodup (reached_of_live_cleared liveN)
  owner_live {n owner} _ link := by
    obtain ⟨reached, link⟩ := reached_of_parent_cleared link
    obtain ⟨i, way, down⟩ := reached.exists_way
    obtain ⟨k, rest, -, before, -⟩ := branches.way_of_parent down link
    rw [Live, node_cleared_of_reached before.reached]
    exact live owner before.reached
  owner_lists {n owner} _ link := by
    obtain ⟨reached, link⟩ := reached_of_parent_cleared link
    obtain ⟨i, way, down⟩ := reached.exists_way
    obtain ⟨k, rest, -, before, child⟩ := branches.way_of_parent down link
    rwa [children_cleared before.reached]
  owner_known {n owner} link := by
    obtain ⟨reached, link⟩ := reached_of_parent_cleared link
    obtain ⟨i, way, down⟩ := reached.exists_way
    obtain ⟨k, rest, -, before, -⟩ := branches.way_of_parent down link
    rw [size_cleared]
    exact (live owner before.reached).known
  acyclic {n owner} link above := by
    obtain ⟨reached, link⟩ := reached_of_parent_cleared link
    obtain ⟨i, way, down⟩ := reached.exists_way
    obtain ⟨k, rest, rfl, before, -⟩ := branches.way_of_parent down link
    obtain ⟨way', again, shorter⟩ := branches.way_of_above_cleared above before
    rw [(branches.way_unique again down).2, List.length_cons] at shorter
    omega

/-- A walk from the roots meets what can be reached. -/
theorem mem_walk_iff (branches : p.Branches) (live : ∀ n, p.Reached n → p.Live n) :
    n ∈ p.roots.flatMap p.preorder ↔ p.Reached n := by
  have forest := branches.forest_cleared live
  have walk {r : NodeId} (root : r ∈ p.roots) : p.preorder r = p.cleared.preorder r :=
    (preorder_congr size_cleared (fun _ (reached : p.Reached _) _ child => reached.child child)
      (fun _ reached => by rw [kind, node_cleared_of_reached reached]; rfl)
      (fun _ reached => by rw [node_cleared_of_reached reached]) (.root root)).symm
  rw [List.mem_flatMap]
  constructor
  · rintro ⟨r, root, member⟩
    rw [walk root, forest.mem_preorder] at member
    exact reached_of_live_cleared member.1
  · intro reached
    have liveHere {n : NodeId} (reached : p.Reached n) : p.cleared.Live n := by
      rw [Live, node_cleared_of_reached reached]
      exact live n reached
    suffices below : ∃ r ∈ p.roots, p.cleared.Above r n by
      obtain ⟨r, root, above⟩ := below
      refine ⟨r, root, ?_⟩
      rw [walk root, forest.mem_preorder]
      exact ⟨liveHere reached, above⟩
    induction reached with
    | root isRoot => exact ⟨_, isRoot, .refl⟩
    | @child n c reached child ih =>
      obtain ⟨r, isRoot, above⟩ := ih
      have link : p.cleared.parent? c = some n :=
        forest.child_parent (liveHere reached) (by rwa [children_cleared reached])
      exact ⟨r, isRoot, .up link above⟩

end Branches

end MiddleEnd.Program
