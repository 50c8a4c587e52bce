import MiddleEnd.Proofs.Arena.Subtree
import MiddleEnd.Proofs.Surface.Lowering

/-! The traversal with a stack against the recursion over the tree: it opens the nodes in the same
order, comes to an end, and leaves out what it is told to leave out and nothing else. -/

namespace MiddleEnd.Program

variable {p : Program}

/-- Part of a list without repetitions is what the list has in common with it. -/
theorem eq_filter_of_sublist {α : Type} {part whole : List α} {keep : α → Bool}
    (sub : part.Sublist whole) (distinct : whole.Nodup)
    (common : ∀ x ∈ whole, x ∈ part ↔ keep x = true) : part = whole.filter keep := by
  have all : part.filter keep = part :=
    List.filter_eq_self.mpr fun x there => (common x (sub.subset there)).mp there
  have inside : part.Sublist (whole.filter keep) := by
    simpa only [all] using sub.filter keep
  have onto : whole.filter keep ⊆ part := fun x there =>
    (common x (List.mem_filter.mp there).1).mpr (List.mem_filter.mp there).2
  exact inside.eq_of_length_le (List.subperm_of_subset (distinct.filter keep) onto).length_le

/-- The node lies strictly inside a function that is defined below `root`. -/
def Hidden (p : Program) (root n : NodeId) : Prop :=
  ∃ f, f ≠ root ∧ (p.kind f).isFnDef = true ∧ p.Above root f ∧ p.Above f n ∧ f ≠ n

namespace Forest

/-- The nodes at and below a live node: the node, and then what is at and below its children, from
the first child to the last. -/
def subtree (forest : p.Forest) (n : NodeId) (live : p.Live n) : List NodeId :=
  n :: (p.children n).attach.flatMap fun child =>
    forest.subtree child.1 (forest.child_live live child.2)
termination_by p.nodes.size - (p.path n).length
decreasing_by exact forest.room_child live child.2

theorem preorder_eq_subtree (forest : p.Forest) {n : NodeId} (live : p.Live n) :
    p.preorder n = forest.subtree n live := by
  induction room : p.nodes.size - (p.path n).length using Nat.strongRecOn generalizing n with
  | _ size ih =>
    rw [forest.preorder_eq, if_pos live, subtree]
    congr 1
    calc (p.children n).flatMap p.preorder
        = (p.children n).attach.flatMap fun child => p.preorder child.1 := by
          rw [← List.flatMap_map Subtype.val, List.attach_map_subtype_val]
      _ = _ := List.flatMap_congr fun child _ =>
          ih _ (room ▸ forest.room_child live child.2) (forest.child_live live child.2) rfl

/-! Functions that are not entered. -/

theorem not_hidden_root (forest : p.Forest) (root : NodeId) : ¬ p.Hidden root root := by
  rintro ⟨f, different, -, below, above, -⟩
  exact different (forest.above_antisymm above below)

/-- What hides a node hides its owner, or is its owner. -/
theorem hidden_iff_owner (forest : p.Forest) {root n owner : NodeId}
    (owned : p.parent? n = some owner) : p.Hidden root n ↔ p.Hidden root owner ∨
      owner ≠ root ∧ (p.kind owner).isFnDef = true ∧ p.Above root owner := by
  have below : p.Above owner n := .of_parent owned
  constructor
  · rintro ⟨f, different, isFn, aboveF, above, strict⟩
    by_cases same : f = owner
    · subst same
      exact .inr ⟨different, isFn, aboveF⟩
    · exact .inl ⟨f, different, isFn, aboveF, above.owner_of_ne owned strict, same⟩
  · rintro (⟨f, different, isFn, aboveF, above, -⟩ | ⟨different, isFn, aboveOwner⟩)
    · refine ⟨f, different, isFn, aboveF, above.trans below, ?_⟩
      rintro rfl
      exact forest.acyclic owned above
    · refine ⟨owner, different, isFn, aboveOwner, below, ?_⟩
      rintro rfl
      exact forest.acyclic owned .refl

/-- What is below the root is its own unless a function in between hides it. -/
theorem own_iff_not_hidden (forest : p.Forest) {root n : NodeId} (live : p.Live root)
    (above : p.Above root n) (liveN : p.Live n) : p.Own root n ↔ ¬ p.Hidden root n := by
  constructor
  · intro own
    clear above liveN
    induction own with
    | refl => exact forest.not_hidden_root root
    | down own entered child ih =>
      rw [forest.hidden_iff_owner (forest.child_parent (forest.live_of_own live own) child)]
      rintro (hidden | ⟨different, isFn, -⟩)
      · exact ih hidden
      · simp [different, isFn] at entered
  · intro shown
    induction above with
    | refl => exact .refl
    | @up n owner owned above ih =>
      rw [forest.hidden_iff_owner owned, not_or] at shown
      have entered : owner = root ∨ (p.kind owner).isFnDef = false := by
        rw [← Bool.not_eq_true]
        tauto
      exact .down (ih (forest.owner_live liveN owned) shown.1) entered
        (forest.owner_lists liveN owned)

open Classical in
/-- A walk that does not enter the functions below its root meets what none of them hides. -/
theorem order_eq_filter (forest : p.Forest) {root : NodeId} (live : p.Live root) :
    ((Walk.start root).skippingNested).order p root =
      (p.preorder root).filter fun n => ¬ p.Hidden root n := by
  refine eq_filter_of_sublist (forest.order_sublist_preorder _ root) (forest.preorder_nodup root)
    fun n below => ?_
  obtain ⟨liveN, above⟩ := forest.mem_preorder.mp below
  rw [forest.mem_order live, forest.own_iff_not_hidden live above liveN, decide_eq_true_iff]

open Classical in
theorem toList_eq_filter (forest : p.Forest) {root : NodeId} (live : p.Live root)
    (tag : Option NodeTag) (skip : Bool) : Walk.toList p ⟨root, [root], tag, skip⟩ =
      (p.preorder root).filter fun n =>
        (∀ t ∈ tag, (p.kind n).tag = t) ∧ (skip = true → ¬ p.Hidden root n) := by
  rw [forest.toList_eq, List.flatMap_singleton]
  have wanted (n : NodeId) : Walk.yields p ⟨root, [root], tag, skip⟩ n =
      decide (∀ t ∈ tag, (p.kind n).tag = t) := by
    cases tag <;> simp [Walk.yields, Bool.beq_eq_decide_eq, eq_comm]
  cases skip with
  | false =>
    rw [forest.order_eq_preorder rfl]
    exact List.filter_congr fun n _ => by simp [wanted]
  | true =>
    have same : Walk.order p ⟨root, [root], tag, true⟩ =
        ((Walk.start root).skippingNested).order p := Walk.order_congr rfl
    rw [same, forest.order_eq_filter live, List.filter_filter]
    exact List.filter_congr fun n _ => by simp [wanted]

open Classical in
/-- From a live root the traversal meets what the recursion meets, in the same order: all live nodes
at and below the root, each once. Asked for one construct it yields the nodes of that construct, and
asked to skip nested functions it leaves out what lies strictly inside of one. However it is asked,
it comes to an end. -/
theorem traversal_eq_recursion (forest : p.Forest) {root : NodeId} (live : p.Live root) :
    p.preorder root = forest.subtree root live ∧ (p.preorder root).Nodup ∧
    (∀ n, n ∈ p.preorder root ↔ p.Live n ∧ p.Above root n) ∧
    (∀ tag, p.collect tag root = (p.preorder root).filter fun n => (p.kind n).tag = tag) ∧
    (∀ tag, p.collectOwn tag root =
      (p.preorder root).filter fun n => (p.kind n).tag = tag ∧ ¬ p.Hidden root n) ∧
    ∀ (tag : Option NodeTag) (skip : Bool),
      let walk : Walk := ⟨root, [root], tag, skip⟩
      (walk.toList p = (p.preorder root).filter fun n =>
        (∀ t ∈ tag, (p.kind n).tag = t) ∧ (skip = true → ¬ p.Hidden root n)) ∧
      ∃ steps, walk.Finishes p steps (walk.toList p) := by
  refine ⟨forest.preorder_eq_subtree live, forest.preorder_nodup root, fun n => forest.mem_preorder,
    fun tag => ?_, fun tag => ?_, fun tag skip => ⟨forest.toList_eq_filter live tag skip, ?_⟩⟩
  · simpa [collect, Walk.start, Walk.only] using forest.toList_eq_filter live (some tag) false
  · simpa [collectOwn, Walk.start, Walk.only, Walk.skippingNested] using
      forest.toList_eq_filter live (some tag) true
  · have ends := forest.finishes ⟨root, [root], tag, skip⟩ [root]
    rw [forest.toList_eq]
    exact ⟨_, ends⟩

/-- From the outer function of `nestedProgram` there are two calls to meet; the one in the function
that relays is hidden. -/
theorem nestedProgram_traversal :
    ∃ (forest : Surface.nestedProgram.Forest) (live : Surface.nestedProgram.Live ⟨13⟩),
      forest.subtree ⟨13⟩ live = [13, 1, 2, 3, 8, 4, 7, 6, 5, 11, 9, 10, 12].map NodeId.mk ∧
      Surface.nestedProgram.collect .call ⟨13⟩ = [⟨10⟩, ⟨12⟩] ∧
      Surface.nestedProgram.collectOwn .call ⟨13⟩ = [⟨12⟩] ∧
      Surface.nestedProgram.Hidden ⟨13⟩ ⟨10⟩ := by
  have forest := (Surface.ProgramTree.lowered Surface.nestedTree_lowers).1.sound.forest
  have live : Surface.nestedProgram.Live ⟨13⟩ := by decide +kernel
  have opened : Surface.nestedProgram.preorder ⟨13⟩ =
      [13, 1, 2, 3, 8, 4, 7, 6, 5, 11, 9, 10, 12].map NodeId.mk := by decide +kernel
  have calls : Surface.nestedProgram.collect .call ⟨13⟩ = [⟨10⟩, ⟨12⟩] := by decide +kernel
  have ownCalls : Surface.nestedProgram.collectOwn .call ⟨13⟩ = [⟨12⟩] := by decide +kernel
  obtain ⟨recursion, -, -, tagged, own, -⟩ := forest.traversal_eq_recursion live
  refine ⟨forest, live, recursion.symm.trans opened, calls, ownCalls, ?_⟩
  have found : (⟨10⟩ : NodeId) ∈ Surface.nestedProgram.collect .call ⟨13⟩ := by simp [calls]
  have skipped : (⟨10⟩ : NodeId) ∉ Surface.nestedProgram.collectOwn .call ⟨13⟩ := by simp [ownCalls]
  simp only [tagged, own, List.mem_filter, decide_eq_true_eq] at found skipped
  by_contra shown
  exact skipped ⟨found.1, found.2, shown⟩

end Forest

end MiddleEnd.Program
