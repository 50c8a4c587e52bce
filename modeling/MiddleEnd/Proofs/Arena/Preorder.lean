import MiddleEnd.Proofs.Arena.Path
import Mathlib.Algebra.Order.BigOperators.Group.List
import Mathlib.Algebra.Order.Ring.Nat

namespace MiddleEnd

namespace Program

theorem foldr_add_eq_sum {α : Type} (f : α → Nat) (xs : List α) :
    xs.foldr (f · + ·) 0 = (xs.map f).sum := by
  rw [List.sum_eq_foldr, List.foldr_map]

theorem extent_succ (p : Program) (depth : Nat) (id : NodeId) :
    p.extent (depth + 1) id = 1 + ((p.children id).map (p.extent depth)).sum := by
  rw [extent, foldr_add_eq_sum]

theorem stepsLeft_eq (p : Program) (w : Walk) :
    p.stepsLeft w = (w.stack.map (p.extent (p.nodes.size + 1))).sum := foldr_add_eq_sum _ _

end Program

namespace Walk

/-- The nodes that a walk opens after a live node. -/
def opens (p : Program) (w : Walk) (id : NodeId) : List NodeId :=
  if w.skipNested && (id != w.root && (p.kind id).isFnDef) then [] else p.children id

/-- Does the walk yield this node when it opens it? -/
def yields (p : Program) (w : Walk) (id : NodeId) : Bool := w.tag.all (· == (p.kind id).tag)

/-- The live nodes at and below a node, down to a depth, as the walk meets them. -/
def visits (p : Program) (w : Walk) : Nat → NodeId → List NodeId
  | 0, _ => []
  | depth + 1, id =>
    if (p.node id).live then id :: (w.opens p id).flatMap (visits p w depth) else []

/-- The steps that the walk takes at and below a node, down to a depth. -/
def cost (p : Program) (w : Walk) : Nat → NodeId → Nat
  | 0, _ => 1
  | depth + 1, id =>
    1 + if (p.node id).live then ((w.opens p id).map (cost p w depth)).sum else 0

/-- The nodes that the walk meets at and below a node. -/
def order (p : Program) (w : Walk) (id : NodeId) : List NodeId := w.visits p (p.nodes.size + 1) id

variable {p : Program} {w : Walk}

theorem opens_sublist (id : NodeId) : (w.opens p id).Sublist (p.children id) := by
  unfold opens
  split
  · exact List.nil_sublist _
  · exact List.Sublist.refl _

@[simp] theorem opens_withStack (stack : List NodeId) (id : NodeId) :
    Walk.opens p { w with stack := stack } id = w.opens p id := rfl

@[simp] theorem yields_withStack (stack : List NodeId) (id : NodeId) :
    Walk.yields p { w with stack := stack } id = w.yields p id := rfl

/-- Only what a walk opens decides what it meets. -/
theorem order_congr {v : Walk} (same : w.opens p = v.opens p) : w.order p = v.order p := by
  have level (depth : Nat) : w.visits p depth = v.visits p depth := by
    induction depth with
    | zero => rfl
    | succ depth ih =>
      funext id
      simp only [visits, same, ih]
  exact level _

theorem opens_of_not_skipping (whole : w.skipNested = false) : w.opens p = p.children := by
  funext id
  simp [opens, whole]

theorem yields_of_no_tag (any : w.tag = none) : w.yields p = fun _ => true := by
  funext id
  simp [yields, any]

theorem step?_cons {id : NodeId} {rest : List NodeId} (top : w.stack = id :: rest) :
    w.step? p = some
      (if (p.node id).live then
        (if w.yields p id then some id else none, { w with stack := w.opens p id ++ rest })
      else (none, { w with stack := rest })) := by
  simp only [step?, top, opens, yields, Program.kind, Program.children]
  by_cases live : (p.node id).live
  · by_cases skipped : (w.skipNested && (id != w.root && (p.node id).kind.isFnDef)) = true
    · by_cases yielded : w.tag.all (· == (p.node id).kind.tag) = true <;>
        simp [live, skipped, yielded]
    · by_cases yielded : w.tag.all (· == (p.node id).kind.tag) = true <;>
        simp [live, skipped, yielded]
  · simp [live]

theorem cost_le_extent (depth : Nat) (id : NodeId) : w.cost p depth id ≤ p.extent depth id := by
  induction depth generalizing id with
  | zero => exact Nat.le_refl 1
  | succ depth ih =>
    rw [cost, Program.extent_succ]
    have smaller : ((w.opens p id).map (w.cost p depth)).sum ≤
        ((p.children id).map (p.extent depth)).sum := by
      calc ((w.opens p id).map (w.cost p depth)).sum
          ≤ ((p.children id).map (w.cost p depth)).sum :=
            (opens_sublist id |>.map _).sum_le_sum (by simp)
        _ ≤ ((p.children id).map (p.extent depth)).sum :=
            List.sum_le_sum fun c _ => ih c
    split <;> omega

/-- The walk ends after so many steps, and yields these nodes on the way. -/
inductive Finishes (p : Program) : Walk → Nat → List NodeId → Prop
  | ended {w : Walk} : w.step? p = none → Finishes p w 0 []
  | passed {w rest : Walk} {steps : Nat} {nodes : List NodeId} :
      w.step? p = some (none, rest) → Finishes p rest steps nodes → Finishes p w (steps + 1) nodes
  | yielded {w rest : Walk} {id : NodeId} {steps : Nat} {nodes : List NodeId} :
      w.step? p = some (some id, rest) → Finishes p rest steps nodes →
        Finishes p w (steps + 1) (id :: nodes)

theorem Finishes.run_eq {steps fuel : Nat} {nodes : List NodeId} (finishes : w.Finishes p steps nodes)
    (enough : steps ≤ fuel) : w.run p fuel = nodes := by
  induction finishes generalizing fuel with
  | ended stops => cases fuel <;> simp [run, stops]
  | passed step _ ih | yielded step _ ih =>
    cases fuel with
    | zero => omega
    | succ fuel => simp [run, step, ih (Nat.le_of_succ_le_succ enough)]

/-- A walk looks only at what it can come to. -/
theorem run_congr {q : Program} {inside : NodeId → Prop}
    (closed : ∀ n, inside n → ∀ c ∈ p.children n, inside c)
    (kind : ∀ n, inside n → q.kind n = p.kind n)
    (live : ∀ n, inside n → (q.node n).live = (p.node n).live) (fuel : Nat) (w : Walk)
    (starts : ∀ n ∈ w.stack, inside n) : w.run q fuel = w.run p fuel := by
  induction fuel generalizing w with
  | zero => rfl
  | succ fuel ih =>
    cases top : w.stack with
    | nil => simp [run, step?, top]
    | cons id rest =>
      have here : inside id := starts id (top ▸ List.mem_cons_self)
      have later : ∀ n ∈ rest, inside n := fun n member =>
        starts n (top ▸ List.mem_cons_of_mem _ member)
      have opened : w.opens q id = w.opens p id := by
        simp only [opens, Program.children, kind id here]
      have yielded : w.yields q id = w.yields p id := by simp only [yields, kind id here]
      have below : ∀ n ∈ w.opens p id ++ rest, inside n := by
        intro n member
        rcases List.mem_append.mp member with first | member
        · exact closed id here n ((opens_sublist id).subset first)
        · exact later n member
      rw [run, run, step?_cons top, step?_cons top, live id here, opened, yielded]
      by_cases isLive : (p.node id).live = true
      · have next := ih { w with stack := w.opens p id ++ rest } below
        by_cases isYielded : w.yields p id = true <;> simp [isLive, isYielded, next]
      · have next := ih { w with stack := rest } later
        simp [isLive, next]

end Walk

namespace Program

theorem extent_congr {p q : Program} {inside : NodeId → Prop}
    (closed : ∀ n, inside n → ∀ c ∈ p.children n, inside c)
    (kind : ∀ n, inside n → q.kind n = p.kind n) (depth : Nat) {n : NodeId} (here : inside n) :
    q.extent depth n = p.extent depth n := by
  induction depth generalizing n with
  | zero => rfl
  | succ depth ih =>
    rw [extent_succ, extent_succ, children, kind n here, ← children]
    congr 2
    exact List.map_congr_left fun c member => ih (closed n here c member)

section

variable {p q : Program} {inside : NodeId → Prop} (size : q.nodes.size = p.nodes.size)
  (closed : ∀ n, inside n → ∀ c ∈ p.children n, inside c)
  (kind : ∀ n, inside n → q.kind n = p.kind n)
  (live : ∀ n, inside n → (q.node n).live = (p.node n).live)

include size closed kind live

theorem toList_congr (w : Walk) (starts : ∀ n ∈ w.stack, inside n) : w.toList q = w.toList p := by
  have fuel : q.stepsLeft w = p.stepsLeft w := by
    rw [stepsLeft_eq, stepsLeft_eq, size]
    congr 1
    exact List.map_congr_left fun n member => extent_congr closed kind _ (starts n member)
  rw [Walk.toList, fuel, Walk.run_congr closed kind live _ _ starts, Walk.toList]

theorem preorder_congr {root : NodeId} (top : inside root) : q.preorder root = p.preorder root :=
  toList_congr size closed kind live _ (by simpa [Walk.start] using top)

theorem collectOwn_congr (tag : NodeTag) {root : NodeId} (top : inside root) :
    q.collectOwn tag root = p.collectOwn tag root :=
  toList_congr size closed kind live _
    (by simpa [Walk.start, Walk.only, Walk.skippingNested] using top)

end

end Program

namespace Program.Forest

variable {p : Program} {w : Walk}

/-- Below a node there is room for fewer nodes than the arena has beside those on its path. -/
theorem room_child (forest : p.Forest) {n c : NodeId} (live : p.Live n) (child : c ∈ p.children n) :
    p.nodes.size - (p.path c).length < p.nodes.size - (p.path n).length := by
  have longer := congrArg List.length (forest.path_of_parent (forest.child_parent live child))
  have bound := forest.path_length_le (forest.child_live live child).known
  rw [List.length_cons] at longer
  omega

theorem visits_succ (forest : p.Forest) {depth : Nat} {n : NodeId}
    (deep : p.nodes.size - (p.path n).length < depth) :
    w.visits p (depth + 1) n = w.visits p depth n := by
  induction depth generalizing n with
  | zero => omega
  | succ depth ih =>
    rw [Walk.visits, Walk.visits]
    by_cases live : p.Live n
    · simp only [live, if_true]
      congr 1
      refine List.flatMap_congr fun c opened => ih ?_
      have closer := forest.room_child live ((Walk.opens_sublist n).subset opened)
      omega
    · simp only [live, if_false]

theorem cost_succ (forest : p.Forest) {depth : Nat} {n : NodeId}
    (deep : p.nodes.size - (p.path n).length < depth) :
    w.cost p (depth + 1) n = w.cost p depth n := by
  induction depth generalizing n with
  | zero => omega
  | succ depth ih =>
    rw [Walk.cost, Walk.cost]
    by_cases live : p.Live n
    · simp only [live, if_true]
      congr 2
      refine List.map_congr_left fun c opened => ih ?_
      have closer := forest.room_child live ((Walk.opens_sublist n).subset opened)
      omega
    · simp only [live, if_false]

theorem order_eq (forest : p.Forest) (n : NodeId) :
    w.order p n = if (p.node n).live then n :: (w.opens p n).flatMap (w.order p) else [] := by
  unfold Walk.order
  rw [← forest.visits_succ (by omega), Walk.visits]

/-- A walk comes to an end, and yields what it is to of all that is at and below its stack. -/
theorem finishes (forest : p.Forest) (w : Walk) (stack : List NodeId) :
    Walk.Finishes p { w with stack := stack } (stack.map (w.cost p (p.nodes.size + 1))).sum
      ((stack.flatMap (w.order p)).filter (w.yields p)) := by
  induction cost : (stack.map (w.cost p (p.nodes.size + 1))).sum generalizing stack with
  | zero =>
    cases stack with
    | nil => exact .ended rfl
    | cons n rest =>
      rw [List.map_cons, List.sum_cons, Walk.cost] at cost
      omega
  | succ steps ih =>
    cases stack with
    | nil => cases cost
    | cons n rest =>
      rw [List.map_cons, List.sum_cons, ← forest.cost_succ (by omega), Walk.cost] at cost
      rw [List.flatMap_cons, forest.order_eq]
      have step := Walk.step?_cons (w := { w with stack := n :: rest }) (p := p) rfl
      by_cases live : p.Live n
      · simp only [live, if_true] at cost step ⊢
        have next := ih (w.opens p n ++ rest) (by rw [List.map_append, List.sum_append]; omega)
        rw [List.flatMap_append, List.filter_append] at next
        by_cases yielded : w.yields p n = true
        · simpa [yielded] using Walk.Finishes.yielded (by simpa [yielded] using step) next
        · simpa [yielded] using Walk.Finishes.passed (by simpa [yielded] using step) next
      · simp only [live, if_false] at cost step ⊢
        exact .passed step (ih rest (by omega))

theorem toList_eq (forest : p.Forest) (w : Walk) :
    w.toList p = (w.stack.flatMap (w.order p)).filter (w.yields p) := by
  refine (forest.finishes w w.stack).run_eq ?_
  rw [stepsLeft_eq]
  exact List.sum_le_sum fun n _ => Walk.cost_le_extent _ n

/-- Whatever a walk opens below a node that it meets, it meets too. -/
theorem order_closed (forest : p.Forest) {a m c : NodeId} (met : m ∈ w.order p a)
    (opened : c ∈ w.opens p m) (live : p.Live c) : c ∈ w.order p a := by
  induction room : p.nodes.size - (p.path a).length using Nat.strongRecOn generalizing a with
  | _ size ih =>
    rw [forest.order_eq] at met ⊢
    by_cases liveA : p.Live a
    · simp only [liveA, if_true, List.mem_cons, List.mem_flatMap] at met ⊢
      rcases met with rfl | ⟨b, ofA, below⟩
      · refine .inr ⟨c, opened, ?_⟩
        rw [forest.order_eq, if_pos live]
        exact List.mem_cons_self
      · have closer := forest.room_child liveA ((Walk.opens_sublist a).subset ofA)
        exact .inr ⟨b, ofA, ih _ (room ▸ closer) below rfl⟩
    · simp [liveA] at met

end Program.Forest

end MiddleEnd
