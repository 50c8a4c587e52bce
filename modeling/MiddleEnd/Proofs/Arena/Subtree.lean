import MiddleEnd.Proofs.Arena.Preorder
import Mathlib.Data.List.Flatten
import Mathlib.Data.List.Nodup

namespace MiddleEnd.Program

/-- `p.Own root n`: from `root` one comes down to `n` without entering a function that is defined
below `root`. -/
inductive Own (p : Program) (root : NodeId) : NodeId → Prop
  | refl : Own p root root
  | down {n c : NodeId} : Own p root n → n = root ∨ (p.kind n).isFnDef = false →
      c ∈ p.children n → Own p root c

theorem Own.trans {p : Program} {d root n : NodeId} (outer : p.Own d root)
    (plain : (p.kind root).isFnDef = false) (inner : p.Own root n) : p.Own d n := by
  induction inner with
  | refl => exact outer
  | down _ entered child ih =>
    refine .down ih (.inr ?_) child
    rcases entered with rfl | other
    · exact plain
    · exact other

/-- What is below a node is below one of its children. -/
theorem Own.head {p : Program} {n m : NodeId} (own : p.Own n m) (different : m ≠ n) :
    ∃ c ∈ p.children n, p.Own c m ∧ (c = m ∨ (p.kind c).isFnDef = false) := by
  induction own with
  | refl => exact absurd rfl different
  | @down a m own entered child ih =>
    by_cases same : a = n
    · exact ⟨m, same ▸ child, .refl, .inl rfl⟩
    · obtain ⟨c, top, below, plain⟩ := ih same
      have enteredA := entered.resolve_left same
      refine ⟨c, top, .down below (.inr enteredA) child, .inr ?_⟩
      rcases plain with rfl | plain
      · exact enteredA
      · exact plain

namespace Forest

variable {p : Program}

/-- A walk that enters every function meets the pre-order. -/
theorem order_eq_preorder (forest : p.Forest) {w : Walk} (whole : w.skipNested = false) :
    w.order p = p.preorder := by
  funext a
  have same : w.order p = (Walk.start a).order p :=
    Walk.order_congr ((Walk.opens_of_not_skipping whole).trans
      (Walk.opens_of_not_skipping rfl).symm)
  rw [same, preorder, forest.toList_eq, Walk.yields_of_no_tag rfl]
  simp [Walk.start]

theorem preorder_eq (forest : p.Forest) (a : NodeId) :
    p.preorder a = if (p.node a).live then a :: (p.children a).flatMap p.preorder else [] := by
  rw [← forest.order_eq_preorder (w := Walk.start a) rfl, forest.order_eq,
    Walk.opens_of_not_skipping rfl]

theorem order_sublist_preorder (forest : p.Forest) (w : Walk) (a : NodeId) :
    (w.order p a).Sublist (p.preorder a) := by
  induction room : p.nodes.size - (p.path a).length using Nat.strongRecOn generalizing a with
  | _ size ih =>
    rw [forest.order_eq, forest.preorder_eq]
    by_cases live : p.Live a
    · rw [if_pos live, if_pos live]
      have opened := Walk.opens_sublist (p := p) (w := w) a
      refine .cons_cons a ((List.Sublist.flatMap_right _ fun c there => ?_).trans
        (opened.flatMap p.preorder))
      exact ih _ (room ▸ forest.room_child live (opened.subset there)) c rfl
    · rw [if_neg live, if_neg live]

theorem collect_eq (forest : p.Forest) (tag : NodeTag) (a : NodeId) :
    p.collect tag a = (p.preorder a).filter fun n => tag == (p.kind n).tag := by
  rw [collect, forest.toList_eq, forest.order_eq_preorder rfl]
  simp only [Walk.only, Walk.start, List.flatMap_cons, List.flatMap_nil, List.append_nil]
  rfl

theorem mem_preorder (forest : p.Forest) {a n : NodeId} :
    n ∈ p.preorder a ↔ p.Live n ∧ p.Above a n := by
  constructor
  · intro member
    induction room : p.nodes.size - (p.path a).length using Nat.strongRecOn generalizing a with
    | _ size ih =>
      rw [forest.preorder_eq] at member
      by_cases live : p.Live a
      · simp only [live, if_true, List.mem_cons, List.mem_flatMap] at member
        rcases member with rfl | ⟨c, child, below⟩
        · exact ⟨live, .refl⟩
        · have closer := forest.room_child live child
          obtain ⟨liveN, above⟩ := ih _ (room ▸ closer) below rfl
          exact ⟨liveN, forest.above_of_child live child above⟩
      · simp [live] at member
  · rintro ⟨live, above⟩
    induction room : p.nodes.size - (p.path a).length using Nat.strongRecOn generalizing a with
    | _ size ih =>
      have liveA := forest.live_of_above above live
      rw [forest.preorder_eq, if_pos liveA]
      by_cases same : a = n
      · exact same ▸ List.mem_cons_self
      · obtain ⟨c, child, below⟩ := forest.child_above above live same
        have closer := forest.room_child liveA child
        refine List.mem_cons_of_mem _ (List.mem_flatMap.mpr ⟨c, child, ?_⟩)
        exact ih _ (room ▸ closer) below rfl

theorem preorder_nodup (forest : p.Forest) (a : NodeId) : (p.preorder a).Nodup := by
  induction room : p.nodes.size - (p.path a).length using Nat.strongRecOn generalizing a with
  | _ size ih =>
    rw [forest.preorder_eq]
    by_cases live : p.Live a
    · rw [if_pos live, List.nodup_cons, List.nodup_flatMap]
      refine ⟨fun member => ?_, fun c child => ?_, ?_⟩
      · obtain ⟨c, child, below⟩ := List.mem_flatMap.mp member
        exact forest.acyclic (forest.child_parent live child) (forest.mem_preorder.mp below).2
      · exact ih _ (room ▸ forest.room_child live child) c rfl
      · refine (forest.children_nodup live).imp_of_mem fun {c d} ofC ofD different n inC inD => ?_
        exact different (forest.children_disjoint live ofC ofD (forest.mem_preorder.mp inC).2
          (forest.mem_preorder.mp inD).2)
    · rw [if_neg live]
      exact List.nodup_nil

theorem mem_collect (forest : p.Forest) {tag : NodeTag} {a n : NodeId} :
    n ∈ p.collect tag a ↔ p.Live n ∧ p.Above a n ∧ (p.kind n).tag = tag := by
  rw [forest.collect_eq, List.mem_filter, forest.mem_preorder, beq_iff_eq, eq_comm, and_assoc]

theorem live_of_own (forest : p.Forest) {root n : NodeId} (live : p.Live root)
    (own : p.Own root n) : p.Live n := by
  induction own with
  | refl => exact live
  | down _ _ child ih => exact forest.child_live ih child

theorem above_of_own (forest : p.Forest) {root n : NodeId} (live : p.Live root)
    (own : p.Own root n) : p.Above root n := by
  induction own with
  | refl => exact .refl
  | down above _ child ih => exact .up (forest.child_parent (forest.live_of_own live above) child) ih

/-- A walk that does not enter the functions below its root meets what is outside of them. -/
theorem mem_order (forest : p.Forest) {root n : NodeId} (live : p.Live root) :
    n ∈ ((Walk.start root).skippingNested).order p root ↔ p.Own root n := by
  let w := (Walk.start root).skippingNested
  have opened (m : NodeId) (c : NodeId) :
      c ∈ w.opens p m ↔ (m = root ∨ (p.kind m).isFnDef = false) ∧ c ∈ p.children m := by
    by_cases top : m = root
    · simp [w, Walk.opens, Walk.start, Walk.skippingNested, top]
    · cases fn : (p.kind m).isFnDef <;>
        simp [w, Walk.opens, Walk.start, Walk.skippingNested, top, fn]
  refine ⟨fun met => ?_, fun own => ?_⟩
  · have along (depth : Nat) (m : NodeId) (own : p.Own root m) (met : n ∈ w.visits p depth m) :
        p.Own root n := by
      induction depth generalizing m with
      | zero => simp [Walk.visits] at met
      | succ depth ih =>
        rw [Walk.visits] at met
        split at met
        · rcases List.mem_cons.mp met with rfl | later
          · exact own
          · obtain ⟨c, ofM, below⟩ := List.mem_flatMap.mp later
            obtain ⟨entered, child⟩ := (opened m c).mp ofM
            exact ih c (.down own entered child) below
        · simp at met
    exact along _ root .refl met
  · induction own with
    | refl =>
      rw [forest.order_eq, if_pos live]
      exact List.mem_cons_self
    | @down m c own entered child ih =>
      exact forest.order_closed ih ((opened m c).mpr ⟨entered, child⟩)
        (forest.child_live (forest.live_of_own live own) child)

theorem collectOwn_eq (forest : p.Forest) (tag : NodeTag) (root : NodeId) :
    p.collectOwn tag root =
      (((Walk.start root).skippingNested).order p root).filter fun n => tag == (p.kind n).tag := by
  have same : (((Walk.start root).only tag).skippingNested).order p =
      ((Walk.start root).skippingNested).order p := Walk.order_congr rfl
  rw [collectOwn, forest.toList_eq, same]
  simp only [Walk.start, Walk.only, Walk.skippingNested, List.flatMap_cons, List.flatMap_nil,
    List.append_nil]
  rfl

theorem mem_collectOwn (forest : p.Forest) {tag : NodeTag} {root n : NodeId} (live : p.Live root) :
    n ∈ p.collectOwn tag root ↔ p.Own root n ∧ (p.kind n).tag = tag := by
  rw [forest.collectOwn_eq, List.mem_filter, forest.mem_order live, beq_iff_eq, eq_comm (a := tag)]

end Forest

end MiddleEnd.Program
