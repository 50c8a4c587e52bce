import MiddleEnd.Flow.Fixpoint
import Mathlib.Algebra.Order.BigOperators.Group.List
import Mathlib.Algebra.Order.Ring.Nat
import Mathlib.Order.KrullDimension

namespace MiddleEnd.Flow

namespace Facts

/-- IN at a node; nothing is known beyond the last node. -/
def inAt {α : Type} (facts : Facts α) (problem : Problem α) (node : Nat) : α :=
  facts.ins.getD node problem.bottom

/-- OUT at a node. -/
def outAt {α : Type} (facts : Facts α) (problem : Problem α) (node : Nat) : α :=
  facts.outs.getD node problem.bottom

end Facts

namespace Problem

variable {α : Type} {problem : Problem α} {order : List Nat} {facts : Facts α}

/-- The successors of a node. -/
def succOf (problem : Problem α) (node : Nat) : List Nat := problem.succ.getD node []

/-- The values of a problem that fit have an order in which the bottom is least and joins are least
upper bounds. Transfers are monotone, and a value that rises rises in rank, which the height bounds. -/
structure Graded (problem : Problem α) (fits : α → Prop) (le : α → α → Prop) (rank : α → Nat) :
    Prop where
  fits_bottom : fits problem.bottom
  fits_join {a b : α} : fits a → fits b → fits (problem.join a b)
  fits_transfer {node : Nat} {a : α} : node < problem.size → fits a → fits (problem.transfer node a)
  refl (a : α) : le a a
  trans {a b c : α} : le a b → le b c → le a c
  antisymm {a b : α} : fits a → fits b → le a b → le b a → a = b
  bottom_le (a : α) : le problem.bottom a
  le_join_left {a b : α} : fits a → fits b → le a (problem.join a b)
  le_join_right {a b : α} : fits a → fits b → le b (problem.join a b)
  join_le {a b c : α} : fits a → fits b → le a c → le b c → le (problem.join a b) c
  transfer_mono {node : Nat} {a b : α} : node < problem.size → fits a → fits b → le a b →
    le (problem.transfer node a) (problem.transfer node b)
  rank_lt {a b : α} : fits a → fits b → le a b → a ≠ b → rank a < rank b
  rank_le {a : α} : fits a → rank a ≤ problem.height

/-! One visit. -/

theorem inAt_start (node : Nat) : problem.start.inAt problem node = problem.bottom := by
  simp only [Facts.inAt, start, Array.getD_eq_getD_getElem?, Array.getElem?_replicate]
  split <;> rfl

theorem outAt_start (node : Nat) : problem.start.outAt problem node = problem.bottom := by
  simp only [Facts.outAt, start, Array.getD_eq_getD_getElem?, Array.getElem?_replicate]
  split <;> rfl

/-- Both values are there for every node of the problem. -/
def Sized (problem : Problem α) (facts : Facts α) : Prop :=
  facts.ins.size = problem.size ∧ facts.outs.size = problem.size

theorem sized_start : problem.Sized problem.start := by simp [Sized, start]

/-- Facts with the same values at every node are the same. -/
theorem Sized.ext {other : Facts α} (sized : problem.Sized facts) (sizedO : problem.Sized other)
    (ins : ∀ i < problem.size, facts.inAt problem i = other.inAt problem i)
    (outs : ∀ i < problem.size, facts.outAt problem i = other.outAt problem i) : facts = other := by
  obtain ⟨ins₁, outs₁⟩ := facts
  obtain ⟨ins₂, outs₂⟩ := other
  obtain ⟨insSize, outsSize⟩ := sized
  obtain ⟨insSizeO, outsSizeO⟩ := sizedO
  have sameIns : ins₁ = ins₂ := by
    refine Array.ext (insSize.trans insSizeO.symm) fun i here there => ?_
    simpa [Facts.inAt, here, there] using ins i (insSize ▸ here)
  have sameOuts : outs₁ = outs₂ := by
    refine Array.ext (outsSize.trans outsSizeO.symm) fun i here there => ?_
    simpa [Facts.outAt, here, there] using outs i (outsSize ▸ here)
  rw [sameIns, sameOuts]

section

variable [DecidableEq α] {changed : Bool} {node : Nat}

/-- The facts after a visit. -/
abbrev visited (problem : Problem α) (facts : Facts α) (node : Nat) : Facts α :=
  (problem.visit (false, facts) node).2

theorem visit_snd : (problem.visit (changed, facts) node).2 = problem.visited facts node := rfl

theorem Sized.visited (sized : problem.Sized facts) (node : Nat) :
    problem.Sized (problem.visited facts node) := by
  simpa [Sized, Problem.visited, visit] using sized

theorem inAt_visited (sized : problem.Sized facts) (known : node < problem.size) (i : Nat) :
    (problem.visited facts node).inAt problem i =
      if i = node then problem.transfer node (problem.joined facts node)
      else facts.inAt problem i := by
  simp only [visited, visit, Facts.inAt, Array.getD_eq_getD_getElem?, Array.getElem?_setIfInBounds]
  by_cases same : node = i
  · subst same
    simp [sized.1, known]
  · simp [same, Ne.symm same]

theorem outAt_visited (sized : problem.Sized facts) (known : node < problem.size) (i : Nat) :
    (problem.visited facts node).outAt problem i =
      if i = node then problem.joined facts node else facts.outAt problem i := by
  simp only [visited, visit, Facts.outAt, Array.getD_eq_getD_getElem?, Array.getElem?_setIfInBounds]
  by_cases same : node = i
  · subst same
    simp [sized.2, known]
  · simp [same, Ne.symm same]

/-- A visit reports a change unless both values of the node are what they would be anew. -/
theorem visit_fst_eq_false : (problem.visit (changed, facts) node).1 = false ↔ changed = false ∧
    problem.joined facts node = facts.outAt problem node ∧
    problem.transfer node (problem.joined facts node) = facts.inAt problem node := by
  simp [visit, Facts.outAt, Facts.inAt, and_assoc]

theorem visited_eq_self (sized : problem.Sized facts) (known : node < problem.size)
    (out : problem.joined facts node = facts.outAt problem node)
    (into : problem.transfer node (problem.joined facts node) = facts.inAt problem node) :
    problem.visited facts node = facts := by
  refine (sized.visited node).ext sized (fun i _ => ?_) fun i _ => ?_
  · rw [inAt_visited sized known]
    split
    · rename_i same
      rw [same, into]
    · rfl
  · rw [outAt_visited sized known]
    split
    · rename_i same
      rw [same, out]
    · rfl

/-! One sweep. -/

theorem foldl_visit_fst (order : List Nat) (facts : Facts α)
    (still : (order.foldl problem.visit (changed, facts)).1 = false) : changed = false := by
  induction order generalizing changed facts with
  | nil => exact still
  | cons node rest ih =>
    rw [List.foldl_cons] at still
    exact (visit_fst_eq_false.mp (ih _ still)).1

theorem foldl_visit_snd (order : List Nat) (facts : Facts α) :
    (order.foldl problem.visit (changed, facts)).2 =
      (order.foldl problem.visit (false, facts)).2 := by
  induction order generalizing changed facts with
  | nil => rfl
  | cons node rest ih =>
    rw [List.foldl_cons, List.foldl_cons]
    exact (ih _).trans (ih _).symm

/-- What every visit keeps, a sweep keeps. -/
theorem sweep_keeps {I : Facts α → Prop} (inside : ∀ node ∈ order, node < problem.size)
    (start : I facts)
    (visit : ∀ {facts node}, node < problem.size → I facts → I (problem.visited facts node)) :
    I (problem.sweep order facts).2 := by
  unfold sweep
  induction order generalizing facts with
  | nil => exact start
  | cons node rest ih =>
    rw [List.foldl_cons, ← Prod.mk.eta (p := problem.visit _ _), foldl_visit_snd]
    exact ih (fun i member => inside i (List.mem_cons_of_mem _ member))
      (visit (inside node List.mem_cons_self) start)

/-- A sweep that changes nothing has found both equations true at every node that it visited. -/
theorem sweep_still (sized : problem.Sized facts) (inside : ∀ node ∈ order, node < problem.size)
    (still : (problem.sweep order facts).1 = false) :
    (problem.sweep order facts).2 = facts ∧ ∀ node ∈ order,
      problem.joined facts node = facts.outAt problem node ∧
      problem.transfer node (facts.outAt problem node) = facts.inAt problem node := by
  unfold sweep at still ⊢
  induction order with
  | nil => exact ⟨rfl, nofun⟩
  | cons node rest ih =>
    rw [List.foldl_cons, ← Prod.mk.eta (p := problem.visit _ _)] at still ⊢
    have first := foldl_visit_fst _ _ still
    obtain ⟨_, out, into⟩ := visit_fst_eq_false.mp first
    have same := visited_eq_self sized (inside node List.mem_cons_self) out into
    rw [first, visit_snd, same] at still ⊢
    obtain ⟨whole, equations⟩ := ih (fun i member => inside i (List.mem_cons_of_mem _ member)) still
    refine ⟨whole, fun i member => ?_⟩
    rcases List.mem_cons.mp member with rfl | later
    · exact ⟨out, out ▸ into⟩
    · exact equations i later

end

namespace Graded

variable {fits : α → Prop} {le : α → α → Prop} {rank : α → Nat}
  (graded : problem.Graded fits le rank)

/-- Facts in the course of a run: every value fits, and no value is above what it would be anew. -/
structure Rising (problem : Problem α) (fits : α → Prop) (le : α → α → Prop) (facts : Facts α) :
    Prop where
  sized : problem.Sized facts
  fits_in (i : Nat) : fits (facts.inAt problem i)
  fits_out (i : Nat) : fits (facts.outAt problem i)
  out_le {i : Nat} : i < problem.size → le (facts.outAt problem i) (problem.joined facts i)
  in_le {i : Nat} : i < problem.size →
    le (facts.inAt problem i) (problem.transfer i (facts.outAt problem i))

include graded

theorem fits_foldl_join {ins : Nat → α} (succ : List Nat) (fitsIns : ∀ s, fits (ins s)) {acc : α}
    (fitsAcc : fits acc) : fits (succ.foldl (fun acc s => problem.join acc (ins s)) acc) := by
  induction succ generalizing acc with
  | nil => exact fitsAcc
  | cons s rest ih => exact ih (graded.fits_join fitsAcc (fitsIns s))

theorem foldl_join_le {ins : Nat → α} {succ : List Nat} {acc c : α} (fitsIns : ∀ s, fits (ins s))
    (fitsAcc : fits acc) (first : le acc c) (others : ∀ s ∈ succ, le (ins s) c) :
    le (succ.foldl (fun acc s => problem.join acc (ins s)) acc) c := by
  induction succ generalizing acc with
  | nil => exact first
  | cons s rest ih =>
    refine ih (graded.fits_join fitsAcc (fitsIns s)) ?_ fun i member =>
      others i (List.mem_cons_of_mem _ member)
    exact graded.join_le fitsAcc (fitsIns s) first (others s List.mem_cons_self)

theorem le_foldl_join {ins : Nat → α} {succ : List Nat} {acc : α} (fitsIns : ∀ s, fits (ins s))
    (fitsAcc : fits acc) :
    le acc (succ.foldl (fun acc s => problem.join acc (ins s)) acc) ∧
      ∀ s ∈ succ, le (ins s) (succ.foldl (fun acc s => problem.join acc (ins s)) acc) := by
  induction succ generalizing acc with
  | nil => exact ⟨graded.refl acc, nofun⟩
  | cons s rest ih =>
    obtain ⟨first, others⟩ := ih (graded.fits_join fitsAcc (fitsIns s))
    refine ⟨graded.trans (graded.le_join_left fitsAcc (fitsIns s)) first, fun i member => ?_⟩
    rcases List.mem_cons.mp member with rfl | later
    · exact graded.trans (graded.le_join_right fitsAcc (fitsIns i)) first
    · exact others i later

theorem fits_joined (fitsIns : ∀ i, fits (facts.inAt problem i)) (node : Nat) :
    fits (problem.joined facts node) :=
  graded.fits_foldl_join _ fitsIns graded.fits_bottom

theorem joined_le {node : Nat} {c : α} (fitsIns : ∀ i, fits (facts.inAt problem i))
    (below : ∀ s ∈ problem.succOf node, le (facts.inAt problem s) c) :
    le (problem.joined facts node) c :=
  graded.foldl_join_le fitsIns graded.fits_bottom (graded.bottom_le c) below

theorem le_joined {node s : Nat} (fitsIns : ∀ i, fits (facts.inAt problem i))
    (member : s ∈ problem.succOf node) :
    le (facts.inAt problem s) (problem.joined facts node) :=
  (graded.le_foldl_join fitsIns graded.fits_bottom).2 s member

theorem joined_mono {other : Facts α} (fitsIns : ∀ i, fits (facts.inAt problem i))
    (fitsOther : ∀ i, fits (other.inAt problem i))
    (below : ∀ i, le (facts.inAt problem i) (other.inAt problem i)) (node : Nat) :
    le (problem.joined facts node) (problem.joined other node) :=
  graded.joined_le fitsIns fun s member =>
    graded.trans (below s) (graded.le_joined fitsOther member)

theorem rising_start : Rising problem fits le problem.start where
  sized := sized_start
  fits_in i := by
    rw [inAt_start]
    exact graded.fits_bottom
  fits_out i := by
    rw [outAt_start]
    exact graded.fits_bottom
  out_le _ := by
    rw [outAt_start]
    exact graded.bottom_le _
  in_le _ := by
    rw [inAt_start]
    exact graded.bottom_le _

section

variable [DecidableEq α]

/-- A visit can only raise the two values of its node. -/
theorem le_visited (rising : Rising problem fits le facts) {node : Nat} (known : node < problem.size)
    (i : Nat) :
    le (facts.inAt problem i) ((problem.visited facts node).inAt problem i) ∧
      le (facts.outAt problem i) ((problem.visited facts node).outAt problem i) := by
  rw [inAt_visited rising.sized known, outAt_visited rising.sized known]
  split
  · rename_i same
    subst same
    have out := rising.out_le known
    refine ⟨graded.trans (rising.in_le known) ?_, out⟩
    exact graded.transfer_mono known (rising.fits_out i) (graded.fits_joined rising.fits_in i) out
  · exact ⟨graded.refl _, graded.refl _⟩

theorem rising_visited (rising : Rising problem fits le facts) {node : Nat}
    (known : node < problem.size) : Rising problem fits le (problem.visited facts node) := by
  have fitsJoined := graded.fits_joined rising.fits_in node
  have fitsIn (i : Nat) : fits ((problem.visited facts node).inAt problem i) := by
    rw [inAt_visited rising.sized known]
    split
    · exact graded.fits_transfer known fitsJoined
    · exact rising.fits_in i
  -- Raising IN of the node raises the joins at its predecessors, itself perhaps among them.
  have higher (i : Nat) := graded.joined_mono rising.fits_in fitsIn
    (fun i => (graded.le_visited rising known i).1) i
  exact
    { sized := rising.sized.visited node
      fits_in := fitsIn
      fits_out := fun i => by
        rw [outAt_visited rising.sized known]
        split
        · exact fitsJoined
        · exact rising.fits_out i
      out_le := fun {i} here => by
        rw [outAt_visited rising.sized known]
        split
        · rename_i same
          exact same ▸ higher i
        · exact graded.trans (rising.out_le here) (higher i)
      in_le := fun {i} here => by
        rw [inAt_visited rising.sized known, outAt_visited rising.sized known]
        split
        · rename_i same
          exact same ▸ graded.refl _
        · exact rising.in_le here }

/-! Below every solution. -/

/-- Values for every node that the equations do not push any higher. -/
structure Closed (problem : Problem α) (fits : α → Prop) (le : α → α → Prop) (ins outs : Nat → α) :
    Prop where
  fits_out {node : Nat} : node < problem.size → fits (outs node)
  join_le {node s : Nat} : node < problem.size → s ∈ problem.succOf node → le (ins s) (outs node)
  transfer_le {node : Nat} : node < problem.size → le (problem.transfer node (outs node)) (ins node)

/-- No value of the facts is above the given values. -/
def Under (problem : Problem α) (le : α → α → Prop) (facts : Facts α) (ins outs : Nat → α) : Prop :=
  ∀ i < problem.size, le (facts.inAt problem i) (ins i) ∧ le (facts.outAt problem i) (outs i)

theorem under_visited {ins outs : Nat → α} (rising : Rising problem fits le facts)
    (closed : Closed problem fits le ins outs)
    (inRange : ∀ node, ∀ s ∈ problem.succOf node, s < problem.size)
    (under : Under problem le facts ins outs) {node : Nat} (known : node < problem.size) :
    Under problem le (problem.visited facts node) ins outs := by
  have joined : le (problem.joined facts node) (outs node) :=
    graded.joined_le rising.fits_in fun s member =>
      graded.trans (under s (inRange node s member)).1 (closed.join_le known member)
  intro i here
  rw [inAt_visited rising.sized known, outAt_visited rising.sized known]
  split
  · rename_i same
    subst same
    refine ⟨graded.trans ?_ (closed.transfer_le known), joined⟩
    exact graded.transfer_mono known (graded.fits_joined rising.fits_in i) (closed.fits_out known)
      joined
  · exact under i here

end

/-! The loop ends. -/

/-- The sum of the ranks of all values. -/
def level (problem : Problem α) (rank : α → Nat) (facts : Facts α) : Nat :=
  ((List.range problem.size).map fun i =>
    rank (facts.inAt problem i) + rank (facts.outAt problem i)).sum

theorem rank_mono {a b : α} (fitsA : fits a) (fitsB : fits b) (below : le a b) : rank a ≤ rank b := by
  by_cases same : a = b
  · rw [same]
  · exact (graded.rank_lt fitsA fitsB below same).le

theorem level_le (rising : Rising problem fits le facts) :
    level problem rank facts ≤ 2 * problem.size * problem.height := by
  have each (i : Nat) : rank (facts.inAt problem i) + rank (facts.outAt problem i) ≤
      2 * problem.height := by
    have atIn := graded.rank_le (rising.fits_in i)
    have atOut := graded.rank_le (rising.fits_out i)
    omega
  calc level problem rank facts
      ≤ ((List.range problem.size).map fun _ => 2 * problem.height).sum :=
        List.sum_le_sum fun i _ => each i
    _ = 2 * problem.size * problem.height := by simp [Nat.mul_left_comm, Nat.mul_assoc]

section

variable [DecidableEq α]

theorem level_visited (rising : Rising problem fits le facts) {node : Nat}
    (known : node < problem.size) :
    level problem rank facts ≤ level problem rank (problem.visited facts node) ∧
      ((problem.visit (false, facts) node).1 = true →
        level problem rank facts < level problem rank (problem.visited facts node)) := by
  have after := graded.rising_visited rising known
  have below (i : Nat) := graded.le_visited rising known i
  have inside (i : Nat) := graded.rank_mono (rising.fits_in i) (after.fits_in i) (below i).1
  have outside (i : Nat) := graded.rank_mono (rising.fits_out i) (after.fits_out i) (below i).2
  refine ⟨List.sum_le_sum fun i _ => Nat.add_le_add (inside i) (outside i), fun changed => ?_⟩
  refine List.sum_lt_sum _ _ (fun i _ => Nat.add_le_add (inside i) (outside i))
    ⟨node, List.mem_range.mpr known, ?_⟩
  by_cases out : facts.outAt problem node = (problem.visited facts node).outAt problem node
  · by_cases into : facts.inAt problem node = (problem.visited facts node).inAt problem node
    · rw [outAt_visited rising.sized known, if_pos rfl] at out
      rw [inAt_visited rising.sized known, if_pos rfl] at into
      rw [visit_fst_eq_false.mpr ⟨rfl, out.symm, into.symm⟩] at changed
      cases changed
    · have higher := graded.rank_lt (rising.fits_in node) (after.fits_in node) (below node).1 into
      have kept := outside node
      omega
  · have higher := graded.rank_lt (rising.fits_out node) (after.fits_out node) (below node).2 out
    have kept := inside node
    omega

/-- A sweep that changes anything raises the level. -/
theorem level_sweep (rising : Rising problem fits le facts)
    (inside : ∀ node ∈ order, node < problem.size) :
    level problem rank facts ≤ level problem rank (problem.sweep order facts).2 ∧
      ((problem.sweep order facts).1 = true →
        level problem rank facts < level problem rank (problem.sweep order facts).2) := by
  unfold sweep
  induction order generalizing facts with
  | nil => exact ⟨le_refl _, nofun⟩
  | cons node rest ih =>
    have known := inside node List.mem_cons_self
    obtain ⟨first, raised⟩ := graded.level_visited rising known
    obtain ⟨others, raisedLater⟩ := ih (graded.rising_visited rising known) fun i member =>
      inside i (List.mem_cons_of_mem _ member)
    rw [List.foldl_cons, ← Prod.mk.eta (p := problem.visit _ _), foldl_visit_snd]
    refine ⟨first.trans others, fun changed => ?_⟩
    cases flag : (problem.visit (false, facts) node).1 with
    | true => exact (raised flag).trans_le others
    | false =>
      rw [flag] at changed
      exact first.trans_lt (raisedLater changed)

theorem rising_sweep (rising : Rising problem fits le facts)
    (inside : ∀ node ∈ order, node < problem.size) :
    Rising problem fits le (problem.sweep order facts).2 :=
  sweep_keeps inside rising fun known before => graded.rising_visited before known

end

end Graded

section

variable [DecidableEq α]

/-- `problem.Runs order facts n result`: sweeping from `facts` on until a sweep changes nothing takes
`n` sweeps and leaves `result`. Nothing bounds the number of sweeps here. -/
inductive Runs (problem : Problem α) (order : List Nat) : Facts α → Nat → Facts α → Prop
  | last {facts after : Facts α} : problem.sweep order facts = (false, after) →
      Runs problem order facts 1 after
  | more {facts next result : Facts α} {n : Nat} : problem.sweep order facts = (true, next) →
      Runs problem order next n result → Runs problem order facts (n + 1) result

/-- What every sweep keeps holds at the end of a run, and there a sweep changes nothing. -/
theorem Runs.ends {I : Facts α → Prop} {n : Nat} {result : Facts α}
    (runs : problem.Runs order facts n result) (start : I facts)
    (sweep : ∀ {facts}, I facts → I (problem.sweep order facts).2) :
    ∃ before, I before ∧ problem.sweep order before = (false, result) := by
  induction runs with
  | last still => exact ⟨_, start, still⟩
  | more changed _ ih =>
    have next := sweep start
    rw [changed] at next
    exact ih next

namespace Graded

variable {fits : α → Prop} {le : α → α → Prop} {rank : α → Nat}
  (graded : problem.Graded fits le rank)

include graded in
/-- Sweeps that change something cannot go on for ever: each raises the level. -/
theorem settle_runs (rising : Rising problem fits le facts)
    (inside : ∀ node ∈ order, node < problem.size) (fuel sweeps : Nat)
    (enough : 2 * problem.size * problem.height < fuel + level problem rank facts) :
    ∃ n, problem.Runs order facts n (problem.settle order fuel sweeps facts).toFacts ∧
      (problem.settle order fuel sweeps facts).sweeps = sweeps + n := by
  induction fuel generalizing facts sweeps with
  | zero =>
    have bound := graded.level_le rising
    omega
  | succ fuel ih =>
    rw [settle]
    split
    · rename_i next changed
      have raised := (graded.level_sweep rising inside).2 (by rw [changed])
      have after := graded.rising_sweep rising inside
      simp only [changed] at raised after
      obtain ⟨n, runs, count⟩ := ih after (sweeps + 1) (by omega)
      exact ⟨n + 1, .more changed runs, by omega⟩
    · rename_i next still
      exact ⟨1, .last still, rfl⟩

/-- Both equations hold at every node. -/
def Settled (problem : Problem α) (facts : Facts α) : Prop :=
  ∀ node < problem.size, facts.outAt problem node = problem.joined facts node ∧
    facts.inAt problem node = problem.transfer node (facts.outAt problem node)

include graded in
theorem solveInOrder_runs (inside : ∀ node ∈ order, node < problem.size) :
    problem.Runs order problem.start (problem.solveInOrder order).sweeps
      (problem.solveInOrder order).toFacts := by
  obtain ⟨n, runs, count⟩ := graded.settle_runs graded.rising_start inside
    (2 * problem.size * problem.height + 1) 0 (by omega)
  have same : (problem.solveInOrder order).sweeps = n := by
    rw [solveInOrder, count]
    omega
  exact same ▸ runs

include graded in
theorem solveInOrder_settled (visits : ∀ node, node ∈ order ↔ node < problem.size) :
    Rising problem fits le (problem.solveInOrder order).toFacts ∧
      Settled problem (problem.solveInOrder order).toFacts := by
  have inside (node : Nat) (member : node ∈ order) := (visits node).mp member
  obtain ⟨before, rising, still⟩ := (graded.solveInOrder_runs inside).ends graded.rising_start
    fun rising => graded.rising_sweep rising inside
  obtain ⟨same, equations⟩ := sweep_still rising.sized inside (by rw [still])
  rw [still] at same
  have whole : (problem.solveInOrder order).toFacts = before := same
  rw [whole]
  refine ⟨rising, fun node known => ?_⟩
  obtain ⟨out, into⟩ := equations node ((visits node).mpr known)
  exact ⟨out.symm, into.symm⟩

include graded in
theorem solveInOrder_under (inside : ∀ node ∈ order, node < problem.size)
    (inRange : ∀ node, ∀ s ∈ problem.succOf node, s < problem.size) {ins outs : Nat → α}
    (closed : Closed problem fits le ins outs) :
    Under problem le (problem.solveInOrder order).toFacts ins outs := by
  have first : Under problem le problem.start ins outs := fun i _ => by
    rw [inAt_start, outAt_start]
    exact ⟨graded.bottom_le _, graded.bottom_le _⟩
  let I (facts : Facts α) := Rising problem fits le facts ∧ Under problem le facts ins outs
  have sweep {facts : Facts α} (before : I facts) : I (problem.sweep order facts).2 :=
    sweep_keeps (I := I) inside before fun known kept =>
      ⟨graded.rising_visited kept.1 known, graded.under_visited kept.1 closed inRange kept.2 known⟩
  obtain ⟨last, kept, still⟩ := (graded.solveInOrder_runs inside).ends (I := I)
    ⟨graded.rising_start, first⟩ sweep
  have after := (sweep kept).2
  rwa [still] at after

omit [DecidableEq α] in
include graded in
theorem closed_of_settled (rising : Rising problem fits le facts) (settled : Settled problem facts) :
    Closed problem fits le (facts.inAt problem) (facts.outAt problem) where
  fits_out _ := rising.fits_out _
  join_le {node s} known member := by
    rw [(settled node known).1]
    exact graded.le_joined rising.fits_in member
  transfer_le {node} known := by
    rw [← (settled node known).2]
    exact graded.refl _

include graded in
/-- The order of the visits makes no difference. -/
theorem solveInOrder_eq {other : List Nat} (visits : ∀ node, node ∈ order ↔ node < problem.size)
    (visitsO : ∀ node, node ∈ other ↔ node < problem.size)
    (inRange : ∀ node, ∀ s ∈ problem.succOf node, s < problem.size) :
    (problem.solveInOrder other).toFacts = (problem.solveInOrder order).toFacts := by
  obtain ⟨rising, settled⟩ := graded.solveInOrder_settled visits
  obtain ⟨risingO, settledO⟩ := graded.solveInOrder_settled visitsO
  have below := graded.solveInOrder_under (fun node => (visitsO node).mp) inRange
    (graded.closed_of_settled rising settled)
  have above := graded.solveInOrder_under (fun node => (visits node).mp) inRange
    (graded.closed_of_settled risingO settledO)
  refine risingO.sized.ext rising.sized (fun i known => ?_) fun i known => ?_
  · exact graded.antisymm (risingO.fits_in i) (rising.fits_in i) (below i known).1
      (above i known).1
  · exact graded.antisymm (risingO.fits_out i) (rising.fits_out i) (below i known).2
      (above i known).2

end Graded

end

/-! Problems over a semilattice of finite height. -/

/-- Families of values that satisfy both equations: OUT is the least upper bound of IN over the
successors, and IN the transfer of OUT. -/
def Solves [PartialOrder α] (problem : Problem α) (ins outs : Nat → α) : Prop :=
  ∀ node < problem.size, IsLUB {a | ∃ s ∈ problem.succOf node, ins s = a} (outs node) ∧
    ins node = problem.transfer node (outs node)

section

variable [PartialOrder α]

theorem graded_of_semilattice (bottom : IsBot problem.bottom)
    (join : ∀ a b, IsLUB {a, b} (problem.join a b))
    (monotone : ∀ node < problem.size, Monotone (problem.transfer node))
    (height : ∀ a : α, Order.height a ≤ problem.height) :
    problem.Graded (fun _ => True) (· ≤ ·) fun a => (Order.height a).toNat where
  fits_bottom := trivial
  fits_join _ _ := trivial
  fits_transfer _ _ := trivial
  refl := le_refl
  trans := le_trans
  antisymm _ _ := le_antisymm
  bottom_le := bottom
  le_join_left {a b} _ _ := (join a b).1 (by simp)
  le_join_right {a b} _ _ := (join a b).1 (by simp)
  join_le {a b c} _ _ ofA ofB := (join a b).2 (by simp [upperBounds, ofA, ofB])
  transfer_mono known _ _ below := monotone _ known below
  rank_lt {a b} _ _ below different := by
    have finite (c : α) : Order.height c < ⊤ := (height c).trans_lt (ENat.natCast_lt_top _)
    have rises := Order.height_strictMono (below.lt_of_ne different) (finite a)
    rwa [← ENat.natCast_toNat (finite a).ne, ← ENat.natCast_toNat (finite b).ne, Nat.cast_lt] at rises
  rank_le {a} _ := ENat.toNat_le_of_le_natCast (height a)

variable {fits : α → Prop} {rank : α → Nat}

theorem Graded.solves_of_settled (graded : problem.Graded fits (· ≤ ·) rank)
    (rising : Graded.Rising problem fits (· ≤ ·) facts) (settled : Graded.Settled problem facts) :
    problem.Solves (facts.inAt problem) (facts.outAt problem) := by
  intro node known
  refine ⟨?_, (settled node known).2⟩
  rw [(settled node known).1]
  constructor
  · rintro _ ⟨s, member, rfl⟩
    exact graded.le_joined rising.fits_in member
  · intro bound above
    exact graded.joined_le rising.fits_in fun s member => above ⟨s, member, rfl⟩

theorem Solves.closed {ins outs : Nat → α} (solves : problem.Solves ins outs) :
    Graded.Closed problem (fun _ => True) (· ≤ ·) ins outs where
  fits_out _ := trivial
  join_le {node s} known member := (solves node known).1.1 ⟨s, member, rfl⟩
  transfer_le {node} known := (solves node known).2.ge

/-- Over a semilattice of finite height, and with monotone transfers, sweeping in any order that
comes to every node ends. It ends with the least solution of the equations, whatever the order. -/
theorem solveInOrder_least [DecidableEq α] (bottom : IsBot problem.bottom)
    (join : ∀ a b, IsLUB {a, b} (problem.join a b))
    (monotone : ∀ node < problem.size, Monotone (problem.transfer node))
    (height : ∀ a : α, Order.height a ≤ problem.height)
    (inRange : ∀ node, ∀ s ∈ problem.succOf node, s < problem.size)
    (visits : ∀ node, node ∈ order ↔ node < problem.size) :
    let found := (problem.solveInOrder order).toFacts
    problem.Runs order problem.start (problem.solveInOrder order).sweeps found ∧
    problem.Sized found ∧
    problem.Solves (found.inAt problem) (found.outAt problem) ∧
    (∀ ins outs, problem.Solves ins outs → ∀ node < problem.size,
      found.inAt problem node ≤ ins node ∧ found.outAt problem node ≤ outs node) ∧
    (∀ other : List Nat, (∀ node, node ∈ other ↔ node < problem.size) →
      (problem.solveInOrder other).toFacts = found) ∧
    problem.solve.toFacts = found := by
  have graded := graded_of_semilattice bottom join monotone height
  have inside (node : Nat) (member : node ∈ order) := (visits node).mp member
  obtain ⟨rising, settled⟩ := graded.solveInOrder_settled visits
  refine ⟨graded.solveInOrder_runs inside, rising.sized, graded.solves_of_settled rising settled,
    fun ins outs solves => graded.solveInOrder_under inside inRange solves.closed,
    fun other visitsO => graded.solveInOrder_eq visits visitsO inRange, ?_⟩
  exact graded.solveInOrder_eq visits (fun node => by simp) inRange

/-- Two nodes that lead to each other, the second also to itself and true on its own. -/
def together : Problem Bool where
  succ := [[1], [0, 1]]
  bottom := false
  join := (· || ·)
  transfer node out := out || node == 1
  height := 1

theorem together_solves :
    together.Solves ((together.solveInOrder [0, 1, 0]).toFacts.inAt together)
      ((together.solveInOrder [0, 1, 0]).toFacts.outAt together) ∧
    (together.solveInOrder [0, 1, 0]).toFacts.inAt together 0 = true := by
  have bottom : IsBot together.bottom := Bool.false_le
  refine ⟨(solveInOrder_least bottom ?_ ?_ ?_ ?_ ?_).2.2.1, by decide⟩
  · intro a b
    exact isLUB_pair
  · decide
  · intro a
    refine Order.height_le fun chain _ => ?_
    have short := chain.length_lt_card
    rw [Fintype.card_bool] at short
    exact_mod_cast Nat.le_of_lt_succ short
  · intro node s member
    match node with
    | 0 | 1 => revert s; decide
    | node + 2 => simp [succOf, together] at member
  · intro node
    simp [together, size]
    omega

end

end Problem

end MiddleEnd.Flow
