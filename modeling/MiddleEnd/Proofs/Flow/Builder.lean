import MiddleEnd.Flow.Graph
import MiddleEnd.Proofs.Outcome
import Mathlib.Data.List.Nodup

namespace MiddleEnd.Flow

/-! Blocks by place. A block that is not there has no items and leads nowhere. -/

def itemsAt (blocks : Array Block) (x : Nat) : List Item := (blocks.getD x {}).items

def succAt (blocks : Array Block) (x : Nat) : List Nat := (blocks.getD x {}).succ

section

variable {blocks : Array Block} {x : Nat}

theorem getD_beyond (beyond : blocks.size ≤ x) : blocks.getD x {} = {} := by
  rw [Array.getD_eq_getD_getElem?, Array.getElem?_eq_none beyond, Option.getD_none]

theorem getD_push_empty : (blocks.push {}).getD x {} = blocks.getD x {} := by
  by_cases new : x = blocks.size
  · rw [getD_beyond (Nat.le_of_eq new.symm)]
    simp [new]
  · simp [Array.getElem?_push, new]

theorem itemsAt_beyond (beyond : blocks.size ≤ x) : itemsAt blocks x = [] := by
  rw [itemsAt, getD_beyond beyond]

theorem succAt_beyond (beyond : blocks.size ≤ x) : succAt blocks x = [] := by
  rw [succAt, getD_beyond beyond]

@[simp] theorem itemsAt_push_empty : itemsAt (blocks.push {}) x = itemsAt blocks x := by
  rw [itemsAt, getD_push_empty, itemsAt]

@[simp] theorem succAt_push_empty : succAt (blocks.push {}) x = succAt blocks x := by
  rw [succAt, getD_push_empty, succAt]

end

namespace Builder

variable {b c d : Builder} {x y : Nat}

@[simp] theorem size_push (item : Item) : (b.push item).blocks.size = b.blocks.size :=
  Array.size_modify

theorem itemsAt_push (item : Item) :
    itemsAt (b.push item).blocks x =
      if x = b.current ∧ x < b.blocks.size then itemsAt b.blocks x ++ [item]
      else itemsAt b.blocks x := by
  simp only [itemsAt, push, Array.getD_eq_getD_getElem?, Array.getElem?_modify]
  by_cases here : b.current = x
  · subst here
    by_cases inside : b.current < b.blocks.size <;> simp [inside]
  · simp [here, Ne.symm here]

@[simp] theorem succAt_push (item : Item) : succAt (b.push item).blocks x = succAt b.blocks x := by
  simp only [succAt, push, Array.getD_eq_getD_getElem?, Array.getElem?_modify]
  by_cases here : b.current = x
  · subst here
    cases b.blocks[b.current]? <;> simp
  · simp [here]

@[simp] theorem current_push (item : Item) : (b.push item).current = b.current := rfl

@[simp] theorem loops_push (item : Item) : (b.push item).loops = b.loops := rfl

@[simp] theorem labels_push (item : Item) : (b.push item).labels = b.labels := rfl

@[simp] theorem gotos_push (item : Item) : (b.push item).gotos = b.gotos := rfl

@[simp] theorem size_edge : (b.edge x y).blocks.size = b.blocks.size := by
  unfold edge
  split <;> simp

@[simp] theorem itemsAt_edge {source target : Nat} :
    itemsAt (b.edge source target).blocks x = itemsAt b.blocks x := by
  unfold edge
  split
  · rfl
  · simp only [itemsAt, Array.getD_eq_getD_getElem?, Array.getElem?_modify]
    by_cases atTarget : target = x <;> by_cases atSource : source = x <;>
      cases b.blocks[x]? <;> simp [atTarget, atSource]

theorem succAt_edge {source target : Nat} :
    succAt (b.edge source target).blocks x =
      if x = source ∧ source < b.blocks.size ∧ target ∉ succAt b.blocks source
      then succAt b.blocks x ++ [target] else succAt b.blocks x := by
  by_cases old : target ∈ succAt b.blocks source
  · have present : (b.blocks.getD source {}).succ.contains target = true := by
      simpa [succAt] using old
    rw [edge, if_pos present]
    simp [old]
  · have absent : (b.blocks.getD source {}).succ.contains target = false := by
      simpa [succAt] using old
    rw [edge, absent, if_neg Bool.false_ne_true]
    simp only [old, not_false_eq_true, and_true]
    simp only [succAt, Array.getD_eq_getD_getElem?, Array.getElem?_modify]
    by_cases inside : source < b.blocks.size <;> by_cases atSource : source = x <;>
      by_cases atTarget : target = x <;> cases found : b.blocks[x]? <;> grind

@[simp] theorem current_edge : (b.edge x y).current = b.current := by
  unfold edge
  split <;> rfl

@[simp] theorem loops_edge : (b.edge x y).loops = b.loops := by
  unfold edge
  split <;> rfl

@[simp] theorem labels_edge : (b.edge x y).labels = b.labels := by
  unfold edge
  split <;> rfl

@[simp] theorem gotos_edge : (b.edge x y).gotos = b.gotos := by
  unfold edge
  split <;> rfl

/-- Edges, loops and labels lead to blocks that are there. A block that ends in a jump to a label
leads nowhere yet and ends in no other jump. -/
structure Sane (b : Builder) : Prop where
  succ_lt {x y : Nat} : y ∈ succAt b.blocks x → y < b.blocks.size
  loops_lt {l : Nat × Nat} : l ∈ b.loops → l.1 < b.blocks.size ∧ l.2 < b.blocks.size
  labels_lt {l : String × Nat} : l ∈ b.labels → l.2 < b.blocks.size
  gotos_lt {j : Nat × String} : j ∈ b.gotos → j.1 < b.blocks.size
  gotos_end {j : Nat × String} : j ∈ b.gotos → succAt b.blocks j.1 = []
  gotos_nodup : (b.gotos.map Prod.fst).Nodup

/-- A builder between statements: nothing leads on from the current block yet. -/
structure Open (b : Builder) : Prop extends Sane b where
  current_lt : b.current < b.blocks.size
  ends : succAt b.blocks b.current = []
  gotos_ne {j : Nat × String} : j ∈ b.gotos → j.1 ≠ b.current

/-- The blocks that statements added from here on may change. -/
def Ahead (b : Builder) (x : Nat) : Prop := x = b.current ∨ b.blocks.size ≤ x

/-- What leaves all that is not ahead as it is, and the items so far. -/
structure Follows (b c : Builder) : Prop where
  size_le : b.blocks.size ≤ c.blocks.size
  added (x : Nat) : itemsAt b.blocks x <+: itemsAt c.blocks x
  items {x : Nat} : ¬ b.Ahead x → itemsAt c.blocks x = itemsAt b.blocks x
  succ {x : Nat} : ¬ b.Ahead x → succAt c.blocks x = succAt b.blocks x
  gotos_old {j : Nat × String} : j ∈ b.gotos → j ∈ c.gotos
  gotos_new {j : Nat × String} : j ∈ c.gotos → j ∈ b.gotos ∨ b.Ahead j.1

/-- What adding statements does to a builder. -/
structure Grown (b c : Builder) : Prop extends Follows b c where
  opened : c.Open
  current : b.Ahead c.current
  loops : c.loops = b.loops

namespace Follows

theorem refl (b : Builder) : b.Follows b where
  size_le := Nat.le_refl _
  added _ := List.prefix_rfl
  items _ := rfl
  succ _ := rfl
  gotos_old := id
  gotos_new := .inl

theorem ahead (follows : b.Follows c) (current : b.Ahead c.current) (later : c.Ahead x) :
    b.Ahead x := by
  rcases later with rfl | beyond
  · exact current
  · exact .inr (Nat.le_trans follows.size_le beyond)

theorem trans (first : b.Follows c) (current : b.Ahead c.current) (second : c.Follows d) :
    b.Follows d where
  size_le := Nat.le_trans first.size_le second.size_le
  added x := (first.added x).trans (second.added x)
  items behind := by
    rw [second.items fun later => behind (first.ahead current later), first.items behind]
  succ behind := by
    rw [second.succ fun later => behind (first.ahead current later), first.succ behind]
  gotos_old member := second.gotos_old (first.gotos_old member)
  gotos_new member := by
    rcases second.gotos_new member with old | new
    · exact first.gotos_new old
    · exact .inr (first.ahead current new)

/-- A block behind is no source of a jump that it was not the source of. -/
theorem plain (follows : b.Follows c) (behind : ¬ b.Ahead x) (before : ∀ j ∈ b.gotos, j.1 ≠ x) :
    ∀ j ∈ c.gotos, j.1 ≠ x := by
  rintro j member rfl
  rcases follows.gotos_new member with old | new
  · exact before j old rfl
  · exact behind new

theorem newBlock (follows : b.Follows c) : b.Follows c.newBlock.2 := by
  obtain ⟨size, added, items, succ, old, new⟩ := follows
  constructor <;> simp_all [Builder.newBlock]
  omega

theorem push (follows : b.Follows c) (current : b.Ahead c.current) (item : Item) :
    b.Follows (c.push item) where
  size_le := by simpa using follows.size_le
  added x := by
    rw [itemsAt_push]
    split
    · exact (follows.added x).trans (List.prefix_append _ _)
    · exact follows.added x
  items behind := by
    rw [itemsAt_push, if_neg, follows.items behind]
    rintro ⟨rfl, _⟩
    exact behind current
  succ behind := by rw [succAt_push, follows.succ behind]
  gotos_old := follows.gotos_old
  gotos_new := follows.gotos_new

theorem edge {source : Nat} (follows : b.Follows c) (ahead : b.Ahead source) (target : Nat) :
    b.Follows (c.edge source target) where
  size_le := by simpa using follows.size_le
  added x := by simpa using follows.added x
  items behind := by rw [itemsAt_edge, follows.items behind]
  succ behind := by
    rw [succAt_edge, if_neg, follows.succ behind]
    rintro ⟨rfl, _⟩
    exact behind ahead
  gotos_old member := by simpa using follows.gotos_old member
  gotos_new member := follows.gotos_new (by simpa using member)

/-- Only the blocks and the jumps count. -/
theorem of_eq (follows : b.Follows c) (blocks : d.blocks = c.blocks) (gotos : d.gotos = c.gotos) :
    b.Follows d := by
  obtain ⟨size, added, items, succ, old, new⟩ := follows
  constructor <;> simp_all

theorem goTo (follows : b.Follows c) (x : Nat) : b.Follows (c.goTo x) := follows.of_eq rfl rfl

end Follows

namespace Grown

theorem refl (opened : b.Open) : b.Grown b := ⟨.refl b, opened, .inl rfl, rfl⟩

theorem trans (first : b.Grown c) (second : c.Grown d) : b.Grown d where
  toFollows := first.toFollows.trans first.current second.toFollows
  opened := second.opened
  current := first.ahead first.current second.current
  loops := second.loops.trans first.loops

theorem foldl {α : Type} {f : Builder → α → Builder}
    (step : ∀ (b : Builder) (a : α), b.Open → b.Grown (f b a)) (xs : List α) (opened : b.Open) :
    b.Grown (xs.foldl f b) := by
  induction xs generalizing b with
  | nil => exact .refl opened
  | cons a rest ih =>
    have first := step b a opened
    exact first.trans (ih first.opened)

end Grown

namespace Sane

theorem newBlock (sane : b.Sane) : b.newBlock.2.Sane := by
  obtain ⟨succ, loops, labels, sources, last, nodup⟩ := sane
  constructor <;> simp [Builder.newBlock] <;> grind

theorem push (sane : b.Sane) (item : Item) : (b.push item).Sane := by
  obtain ⟨succ, loops, labels, sources, last, nodup⟩ := sane
  constructor <;> simp <;> grind

theorem edge (sane : b.Sane) (plain : ∀ j ∈ b.gotos, j.1 ≠ x) (known : y < b.blocks.size) :
    (b.edge x y).Sane := by
  obtain ⟨succ, loops, labels, sources, last, nodup⟩ := sane
  constructor <;> simp [succAt_edge] <;> grind

theorem goTo (sane : b.Sane) (x : Nat) : (b.goTo x).Sane := { sane with }

theorem afterJump (sane : b.Sane) : b.afterJump.Open where
  toSane := sane.newBlock.goTo _
  current_lt := by simp [Builder.afterJump, Builder.newBlock, Builder.goTo]
  ends := by
    simpa [Builder.afterJump, Builder.newBlock, Builder.goTo] using
      succAt_beyond (Nat.le_refl b.blocks.size)
  gotos_ne member := Nat.ne_of_lt (sane.gotos_lt member)

end Sane

theorem Open.push (opened : b.Open) (item : Item) : b.Grown (b.push item) where
  toFollows := (Follows.refl b).push (.inl rfl) item
  opened :=
    { toSane := opened.toSane.push item
      current_lt := by simpa using opened.current_lt
      ends := by simpa using opened.ends
      gotos_ne := opened.gotos_ne }
  current := .inl rfl
  loops := rfl

/-- A jump ends the current block. -/
theorem Follows.jump (follows : b.Follows c) (sane : c.Sane) (loops : c.loops = b.loops) :
    b.Grown c.afterJump where
  toFollows := follows.newBlock.of_eq rfl rfl
  opened := sane.afterJump
  current := .inr follows.size_le
  loops := loops

/-- Begins a block to which another one leads. -/
def arm (b : Builder) (source : Nat) : Builder :=
  (b.newBlock.2.edge source b.blocks.size).goTo b.blocks.size

@[simp] theorem size_arm : (b.arm x).blocks.size = b.blocks.size + 1 := by
  simp [arm, newBlock, goTo]

@[simp] theorem current_arm : (b.arm x).current = b.blocks.size := rfl

@[simp] theorem loops_arm : (b.arm x).loops = b.loops := by simp [arm, newBlock, goTo]

@[simp] theorem labels_arm : (b.arm x).labels = b.labels := by simp [arm, newBlock, goTo]

@[simp] theorem gotos_arm : (b.arm x).gotos = b.gotos := by simp [arm, newBlock, goTo]

@[simp] theorem itemsAt_arm : itemsAt (b.arm y).blocks x = itemsAt b.blocks x := by
  simp [arm, newBlock, goTo]

theorem succAt_arm (sane : b.Sane) (inside : y < b.blocks.size) : succAt (b.arm y).blocks x =
    if x = y then succAt b.blocks x ++ [b.blocks.size] else succAt b.blocks x := by
  have fresh : b.blocks.size ∉ succAt b.blocks y := fun member =>
    Nat.lt_irrefl _ (sane.succ_lt member)
  simp [arm, newBlock, goTo, succAt_edge, fresh, Nat.lt_succ_of_lt inside]

theorem Sane.arm (sane : b.Sane) (plain : ∀ j ∈ b.gotos, j.1 ≠ x) : (b.arm x).Sane :=
  (sane.newBlock.edge plain (by simp [Builder.newBlock])).goTo _

theorem Open.arm (sane : b.Sane) (inside : x < b.blocks.size) (plain : ∀ j ∈ b.gotos, j.1 ≠ x) :
    (b.arm x).Open where
  toSane := sane.arm plain
  current_lt := by simp
  ends := by
    rw [current_arm, succAt_arm sane inside, if_neg (Nat.ne_of_gt inside),
      succAt_beyond (Nat.le_refl _)]
  gotos_ne member := by
    rw [gotos_arm] at member
    exact Nat.ne_of_lt (sane.gotos_lt member)

theorem Follows.arm (follows : b.Follows c) (ahead : b.Ahead x) : b.Follows (c.arm x) :=
  (follows.newBlock.edge ahead _).goTo _

/-- Inside a loop that goes on at one block and is left for another. -/
def within (b : Builder) (next exit body : Nat) : Builder :=
  { b.goTo body with loops := (next, exit) :: b.loops }

theorem Follows.within (follows : b.Follows c) (next exit body : Nat) :
    b.Follows (c.within next exit body) := follows.of_eq rfl rfl

/-- Leads on from the end of a loop's body, and goes to the block after the loop. -/
def close (b : Builder) (next exit : Nat) : Builder :=
  { (b.edge b.current next).goTo exit with loops := b.loops.tail }

@[simp] theorem itemsAt_close {z : Nat} :
    itemsAt (b.close x y).blocks z = itemsAt b.blocks z := by
  simp [close, goTo]

@[simp] theorem size_close : (b.close x y).blocks.size = b.blocks.size := by simp [close, goTo]

@[simp] theorem current_close : (b.close x y).current = y := rfl

@[simp] theorem loops_close : (b.close x y).loops = b.loops.tail := rfl

@[simp] theorem gotos_close : (b.close x y).gotos = b.gotos := by simp [close, goTo]

@[simp] theorem labels_close : (b.close x y).labels = b.labels := by simp [close, goTo]

theorem succAt_close {z : Nat} (opened : b.Open) : succAt (b.close x y).blocks z =
    if z = b.current then [x] else succAt b.blocks z := by
  have ends := opened.ends
  simp [close, goTo, succAt_edge, ends, opened.current_lt]
  grind

/-- At the start of the body of a loop that is left from its header. -/
def enterHeaded (b : Builder) (item : Item) : Builder :=
  let header := b.blocks.size
  let b := (b.arm b.current).push item
  let b := (b.newBlock.2.newBlock.2.edge header (header + 1)).edge header (header + 2)
  b.within header (header + 2) (header + 1)

theorem headedLoop_eq (item : Item) (inner : Builder → Builder) :
    b.headedLoop item inner =
      (inner (b.enterHeaded item)).close b.blocks.size (b.blocks.size + 2) := by
  simp [headedLoop, enterHeaded, arm, within, close, inLoop, newBlock, goTo]

@[simp] theorem size_enterHeaded (item : Item) :
    (b.enterHeaded item).blocks.size = b.blocks.size + 3 := by
  simp [enterHeaded, within, newBlock, goTo]

@[simp] theorem current_enterHeaded (item : Item) :
    (b.enterHeaded item).current = b.blocks.size + 1 := rfl

@[simp] theorem loops_enterHeaded (item : Item) :
    (b.enterHeaded item).loops = (b.blocks.size, b.blocks.size + 2) :: b.loops := by
  simp [enterHeaded, within, newBlock, goTo]

@[simp] theorem gotos_enterHeaded (item : Item) : (b.enterHeaded item).gotos = b.gotos := by
  simp [enterHeaded, within, newBlock, goTo]

@[simp] theorem labels_enterHeaded (item : Item) : (b.enterHeaded item).labels = b.labels := by
  simp [enterHeaded, within, newBlock, goTo]

theorem itemsAt_enterHeaded (item : Item) : itemsAt (b.enterHeaded item).blocks x =
    if x = b.blocks.size then [item] else itemsAt b.blocks x := by
  have none := itemsAt_beyond (Nat.le_refl b.blocks.size)
  simp [enterHeaded, within, newBlock, goTo, itemsAt_push]
  grind

theorem succAt_enterHeaded (item : Item) (opened : b.Open) :
    succAt (b.enterHeaded item).blocks x =
      if x = b.current then [b.blocks.size]
      else if x = b.blocks.size then [b.blocks.size + 1, b.blocks.size + 2]
      else succAt b.blocks x := by
  have none := succAt_beyond (Nat.le_refl b.blocks.size)
  have inside := opened.current_lt
  have ends := opened.ends
  simp [enterHeaded, within, newBlock, goTo, succAt_edge, succAt_arm opened.toSane inside, none]
  grind

theorem Open.enterHeaded (opened : b.Open) (item : Item) : (b.enterHeaded item).Open := by
  have succ {x : Nat} := succAt_enterHeaded (x := x) item opened
  obtain ⟨⟨inRange, loops, labels, sources, last, nodup⟩, current, ends, other⟩ := opened
  refine ⟨⟨?_, ?_, ?_, ?_, ?_, ?_⟩, ?_, ?_, ?_⟩ <;> simp <;> grind [succAt_beyond]

theorem Follows.enterHeaded (item : Item) : b.Follows (b.enterHeaded item) := by
  have here : b.Ahead b.blocks.size := .inr (Nat.le_refl _)
  have header := ((refl b).arm (x := b.current) (.inl rfl)).push here item
  have body := header.newBlock.newBlock.edge here (b.blocks.size + 1)
  exact (body.edge here (b.blocks.size + 2)).within _ _ _

theorem Follows.close (follows : b.Follows c) (current : b.Ahead c.current) :
    b.Follows (c.close x y) := (follows.edge current x).of_eq rfl rfl

/-- The block after the loop must not be the current one, and nothing may lead on from it yet. -/
theorem Open.close (opened : b.Open) (next : x < b.blocks.size) (exit : y < b.blocks.size)
    (other : y ≠ b.current) (ends : succAt b.blocks y = []) (plain : ∀ j ∈ b.gotos, j.1 ≠ y) :
    (b.close x y).Open where
  toSane :=
    { opened.toSane.edge (fun j member => opened.gotos_ne member) next with
      loops_lt := fun member => by simpa using opened.loops_lt (List.mem_of_mem_tail member) }
  current_lt := by simpa using exit
  ends := by
    rw [succAt_close opened]
    exact (if_neg other).trans ends
  gotos_ne member := plain _ (by simpa using member)

theorem Open.headedLoop (opened : b.Open) (item : Item) {inner : Builder → Builder}
    (grows : ∀ b : Builder, b.Open → b.Grown (inner b)) : b.Grown (b.headedLoop item inner) := by
  rw [headedLoop_eq]
  have grown := grows _ (opened.enterHeaded item)
  have exit : ¬ (b.enterHeaded item).Ahead (b.blocks.size + 2) := by simp [Ahead]
  have current := (Follows.enterHeaded item).ahead (.inr (by simp)) grown.current
  have size := grown.size_le
  rw [size_enterHeaded] at size
  constructor
  case toFollows =>
    exact ((Follows.enterHeaded item).trans (.inr (by simp)) grown.toFollows).close current
  case opened =>
    refine grown.opened.close (by omega) (by omega) ?_ ?_ (grown.plain exit fun j member => ?_)
    · exact fun same => exit (same ▸ grown.current)
    · have inside := opened.current_lt
      rw [grown.succ exit, succAt_enterHeaded item opened, if_neg (by omega), if_neg (by omega),
        succAt_beyond (by omega)]
    · have inside := opened.gotos_lt (by simpa using member)
      omega
  case current => exact .inr (by simp)
  case loops => simp [grown.loops]

/-- At the start of the body of a loop that is left after a turn. -/
def enterTested (b : Builder) : Builder :=
  let c := (b.arm b.current).newBlock.2.newBlock.2
  c.within (b.blocks.size + 1) (b.blocks.size + 2) b.blocks.size

/-- Leads on from the current block to two others, and goes to the second. -/
def fork (b : Builder) (first second : Nat) : Builder :=
  ((b.edge b.current first).edge b.current second).goTo second

theorem testedLoop_eq (item : Item) (inner : Builder → Builder) :
    b.testedLoop item inner =
      (((inner b.enterTested).close (b.blocks.size + 1) (b.blocks.size + 1)).push item).fork
        b.blocks.size (b.blocks.size + 2) := by
  simp [testedLoop, enterTested, fork, arm, within, close, inLoop, newBlock, goTo]

@[simp] theorem size_fork : (b.fork x y).blocks.size = b.blocks.size := by simp [fork, goTo]

@[simp] theorem current_fork : (b.fork x y).current = y := rfl

@[simp] theorem loops_fork : (b.fork x y).loops = b.loops := by simp [fork, goTo]

@[simp] theorem labels_fork : (b.fork x y).labels = b.labels := by simp [fork, goTo]

@[simp] theorem gotos_fork : (b.fork x y).gotos = b.gotos := by simp [fork, goTo]

@[simp] theorem itemsAt_fork {z : Nat} : itemsAt (b.fork x y).blocks z = itemsAt b.blocks z := by
  simp [fork, goTo]

theorem succAt_fork {z : Nat} (opened : b.Open) (different : x ≠ y) :
    succAt (b.fork x y).blocks z = if z = b.current then [x, y] else succAt b.blocks z := by
  have ends := opened.ends
  simp [fork, goTo, succAt_edge, ends, opened.current_lt]
  grind

theorem Open.fork (opened : b.Open) (firstKnown : x < b.blocks.size) (secondKnown : y < b.blocks.size)
    (different : x ≠ y) (other : y ≠ b.current) (ends : succAt b.blocks y = [])
    (plain : ∀ j ∈ b.gotos, j.1 ≠ y) : (b.fork x y).Open where
  toSane := by
    have first := opened.toSane.edge (fun j member => opened.gotos_ne member) firstKnown
    refine (first.edge (x := b.current) (y := y) (fun j member => ?_) ?_).goTo y
    · exact opened.gotos_ne (by simpa using member)
    · simpa using secondKnown
  current_lt := by simpa using secondKnown
  ends := by
    rw [succAt_fork opened different]
    exact (if_neg other).trans ends
  gotos_ne member := plain _ (by simpa using member)

theorem Follows.fork (follows : b.Follows c) (current : b.Ahead c.current) :
    b.Follows (c.fork x y) := ((follows.edge current x).edge current y).goTo y

@[simp] theorem size_enterTested : b.enterTested.blocks.size = b.blocks.size + 3 := by
  simp [enterTested, within, newBlock, goTo]

@[simp] theorem current_enterTested : b.enterTested.current = b.blocks.size := rfl

@[simp] theorem loops_enterTested :
    b.enterTested.loops = (b.blocks.size + 1, b.blocks.size + 2) :: b.loops := by
  simp [enterTested, within, newBlock, goTo]

@[simp] theorem gotos_enterTested : b.enterTested.gotos = b.gotos := by
  simp [enterTested, within, newBlock, goTo]

@[simp] theorem labels_enterTested : b.enterTested.labels = b.labels := by
  simp [enterTested, within, newBlock, goTo]

@[simp] theorem itemsAt_enterTested : itemsAt b.enterTested.blocks x = itemsAt b.blocks x := by
  simp [enterTested, within, newBlock, goTo]

theorem succAt_enterTested (opened : b.Open) : succAt b.enterTested.blocks x =
    if x = b.current then [b.blocks.size] else succAt b.blocks x := by
  have ends := opened.ends
  simp [enterTested, within, newBlock, goTo, succAt_arm opened.toSane opened.current_lt]
  grind

theorem Open.enterTested (opened : b.Open) : b.enterTested.Open := by
  have succ {x : Nat} := succAt_enterTested (x := x) opened
  obtain ⟨⟨inRange, loops, labels, sources, last, nodup⟩, current, ends, other⟩ := opened
  refine ⟨⟨?_, ?_, ?_, ?_, ?_, ?_⟩, ?_, ?_, ?_⟩ <;> simp <;> grind [succAt_beyond]

theorem Follows.enterTested : b.Follows b.enterTested := by
  have body := (refl b).arm (x := b.current) (.inl rfl)
  exact body.newBlock.newBlock.within _ _ _

/-- The body does not touch the block of the test, nor the one after the loop. -/
theorem Open.untouched (opened : b.Open) (grown : b.enterTested.Grown c)
    (set_apart : x = b.blocks.size + 1 ∨ x = b.blocks.size + 2) :
    x < c.blocks.size ∧ x ≠ c.current ∧ itemsAt c.blocks x = [] ∧ succAt c.blocks x = [] ∧
      ∀ j ∈ c.gotos, j.1 ≠ x := by
  have inside := opened.current_lt
  have size := grown.size_le
  have behind : ¬ b.enterTested.Ahead x := by
    simp only [Ahead, size_enterTested, current_enterTested]
    omega
  rw [size_enterTested] at size
  refine ⟨by omega, fun same => behind (same ▸ grown.current), ?_, ?_, ?_⟩
  · rw [grown.items behind, itemsAt_enterTested, itemsAt_beyond (by omega)]
  · rw [grown.succ behind, succAt_enterTested opened, if_neg (by omega), succAt_beyond (by omega)]
  · refine grown.plain behind fun j member => ?_
    have known := opened.gotos_lt (by simpa using member)
    omega

theorem Open.toTest (opened : b.Open) (grown : b.enterTested.Grown c) :
    (c.close (b.blocks.size + 1) (b.blocks.size + 1)).Open := by
  obtain ⟨known, other, _, ends, plain⟩ := opened.untouched grown (.inl rfl)
  exact grown.opened.close known known other ends plain

theorem Open.testedLoop (opened : b.Open) (item : Item) {inner : Builder → Builder}
    (grows : ∀ b : Builder, b.Open → b.Grown (inner b)) : b.Grown (b.testedLoop item inner) := by
  rw [testedLoop_eq]
  have grown := grows _ opened.enterTested
  obtain ⟨known, other, _, ends, plain⟩ := opened.untouched grown (.inr rfl)
  have current := Follows.enterTested.ahead (.inr (by simp)) grown.current
  have toTest := (opened.toTest grown).push item
  constructor
  case toFollows =>
    have body := (Follows.enterTested.trans (.inr (by simp)) grown.toFollows).close
      (x := b.blocks.size + 1) (y := b.blocks.size + 1) current
    exact (body.push (.inr (by simp)) item).fork (.inr (by simp))
  case opened =>
    refine toTest.opened.fork ?_ (by simpa using known) (by omega) (by simp) ?_ (by simpa using plain)
    · simp
      omega
    · rw [succAt_push, succAt_close grown.opened, if_neg other, ends]
  case current => exact .inr (by simp)
  case loops => simp [grown.loops]

/-- Begins a block to which two others lead. -/
def join (b : Builder) (first second : Nat) : Builder :=
  ((b.newBlock.2.edge first b.blocks.size).edge second b.blocks.size).goTo b.blocks.size

theorem choice_some_eq (item : Item) (thenInner elseInner : Builder → Builder) :
    b.choice item thenInner (some elseInner) =
      let c := thenInner ((b.push item).arm b.current)
      let d := elseInner (c.arm b.current)
      d.join c.current d.current := by
  simp [choice, arm, join, newBlock, goTo]

theorem choice_none_eq (item : Item) (thenInner : Builder → Builder) :
    b.choice item thenInner none =
      let c := thenInner ((b.push item).arm b.current)
      c.join c.current b.current := by
  simp [choice, arm, join, newBlock, goTo]

@[simp] theorem size_join : (b.join x y).blocks.size = b.blocks.size + 1 := by
  simp [join, newBlock, goTo]

@[simp] theorem current_join : (b.join x y).current = b.blocks.size := rfl

@[simp] theorem loops_join : (b.join x y).loops = b.loops := by simp [join, newBlock, goTo]

@[simp] theorem labels_join : (b.join x y).labels = b.labels := by simp [join, newBlock, goTo]

@[simp] theorem gotos_join : (b.join x y).gotos = b.gotos := by simp [join, newBlock, goTo]

@[simp] theorem itemsAt_join {z : Nat} : itemsAt (b.join x y).blocks z = itemsAt b.blocks z := by
  simp [join, newBlock, goTo]

theorem succAt_join {z : Nat} (sane : b.Sane) (first : x < b.blocks.size) (second : y < b.blocks.size)
    (different : x ≠ y) : succAt (b.join x y).blocks z =
      if z = x ∨ z = y then succAt b.blocks z ++ [b.blocks.size] else succAt b.blocks z := by
  have fresh {x : Nat} : b.blocks.size ∉ succAt b.blocks x := fun member =>
    Nat.lt_irrefl _ (sane.succ_lt member)
  simp [join, newBlock, goTo, succAt_edge, fresh, Nat.lt_succ_of_lt first, Nat.lt_succ_of_lt second,
    Ne.symm different]
  grind

theorem Open.join (sane : b.Sane) (first : x < b.blocks.size) (second : y < b.blocks.size)
    (different : x ≠ y) (plainFirst : ∀ j ∈ b.gotos, j.1 ≠ x) (plainSecond : ∀ j ∈ b.gotos, j.1 ≠ y) :
    (b.join x y).Open where
  toSane := by
    have one := sane.newBlock.edge (x := x) (y := b.blocks.size) plainFirst
      (by simp [newBlock])
    refine (one.edge (x := y) (y := b.blocks.size) ?_ ?_).goTo _
    · simpa [newBlock] using plainSecond
    · simp [newBlock]
  current_lt := by simp
  ends := by
    rw [current_join, succAt_join sane first second different, if_neg (by omega),
      succAt_beyond (Nat.le_refl _)]
  gotos_ne member := by
    rw [gotos_join] at member
    exact Nat.ne_of_lt (sane.gotos_lt member)

theorem Follows.join (follows : b.Follows c) (first : b.Ahead x) (second : b.Ahead y) :
    b.Follows (c.join x y) := ((follows.newBlock.edge first _).edge second _).goTo _

/-- At the start of the branch that is taken when a condition holds. -/
abbrev enterThen (b : Builder) (item : Item) : Builder := (b.push item).arm b.current

theorem Open.enterThen (opened : b.Open) (item : Item) : (b.enterThen item).Open :=
  .arm (opened.push item).opened.toSane (by simpa using opened.current_lt)
    fun _ member => opened.gotos_ne member

theorem Follows.enterThen (item : Item) : b.Follows (b.enterThen item) :=
  ((refl b).push (.inl rfl) item).arm (.inl rfl)

theorem Open.choice (opened : b.Open) (item : Item) {thenInner : Builder → Builder}
    {elseInner : Option (Builder → Builder)}
    (growsThen : ∀ b : Builder, b.Open → b.Grown (thenInner b))
    (growsElse : ∀ inner ∈ elseInner, ∀ b : Builder, b.Open → b.Grown (inner b)) :
    b.Grown (b.choice item thenInner elseInner) := by
  have inside := opened.current_lt
  have grown := growsThen _ (opened.enterThen item)
  have branch : ¬ (b.enterThen item).Ahead b.current := by
    simp [Ahead]
    omega
  have plain := grown.plain branch fun j member => opened.gotos_ne (by simpa using member)
  have follows := (Follows.enterThen item).trans (.inr (by simp)) grown.toFollows
  have current := (Follows.enterThen item).ahead (.inr (by simp)) grown.current
  have apart : (thenInner (b.enterThen item)).current ≠ b.current := fun same =>
    branch (same ▸ grown.current)
  have loops : (thenInner (b.enterThen item)).loops = b.loops := by simp [grown.loops]
  cases elseInner with
  | none =>
    rw [choice_none_eq]
    generalize thenInner (b.enterThen item) = c at *
    have size := follows.size_le
    refine ⟨follows.join current (.inl rfl), ?_, .inr size, by simp [loops]⟩
    exact .join grown.opened.toSane grown.opened.current_lt (by omega) apart
      (fun j member => grown.opened.gotos_ne member) plain
  | some elseInner =>
    rw [choice_some_eq]
    generalize thenInner (b.enterThen item) = c at *
    have size := follows.size_le
    have known := grown.opened.current_lt
    have opens := Open.arm grown.opened.toSane (x := b.current) (by omega) plain
    have grownElse := growsElse elseInner rfl _ opens
    have thenEnd : ¬ (c.arm b.current).Ahead c.current := by
      simp [Ahead]
      omega
    have branchElse : ¬ (c.arm b.current).Ahead b.current := by
      simp [Ahead]
      omega
    have plainThen := grownElse.plain thenEnd fun j member =>
      grown.opened.gotos_ne (by simpa using member)
    have followsElse := (follows.arm (.inl rfl)).trans (.inr size) grownElse.toFollows
    have currentElse := (follows.arm (x := b.current) (.inl rfl)).ahead (.inr size) grownElse.current
    have apartElse : c.current ≠ (elseInner (c.arm b.current)).current := fun same =>
      thenEnd (same ▸ grownElse.current)
    have loopsElse : (elseInner (c.arm b.current)).loops = b.loops := by simp [grownElse.loops, loops]
    have sizeElse := grownElse.size_le
    rw [size_arm] at sizeElse
    refine ⟨followsElse.join current currentElse, ?_, .inr followsElse.size_le, by simp [loopsElse]⟩
    exact .join grownElse.opened.toSane (by omega) grownElse.opened.current_lt apartElse plainThen
      fun j member => grownElse.opened.gotos_ne member

/-! Statements. -/

theorem Open.label (opened : b.Open) (name : String) :
    b.Grown { b.arm b.current with labels := (name, b.blocks.size) :: (b.arm b.current).labels } where
  toFollows := ((Follows.refl b).arm (x := b.current) (.inl rfl)).of_eq rfl rfl
  opened :=
    have arm := Open.arm opened.toSane opened.current_lt fun _ member => opened.gotos_ne member
    { arm with
      labels_lt := fun member => by
        rcases List.mem_cons.mp member with rfl | old
        · simp
        · exact arm.labels_lt old }
  current := .inr (by simp)
  loops := by simp

theorem Open.goto (opened : b.Open) (name : String) :
    b.Grown ({ b with gotos := b.gotos ++ [(b.current, name)] } : Builder).afterJump := by
  refine Follows.jump ⟨Nat.le_refl _, fun _ => List.prefix_rfl, fun _ => rfl, fun _ => rfl, ?_, ?_⟩
    ⟨opened.succ_lt, opened.loops_lt, opened.labels_lt, ?_, ?_, ?_⟩ rfl
  all_goals obtain ⟨⟨_, _, _, sources, last, nodup⟩, current, ends, other⟩ := opened
  all_goals simp [Ahead]
  all_goals grind

theorem Open.leave (opened : b.Open) {target : Nat} (known : target < b.blocks.size) :
    b.Grown (b.edge b.current target).afterJump :=
  ((Follows.refl b).edge (.inl rfl) target).jump
    (opened.toSane.edge (fun _ member => opened.gotos_ne member) known) (by simp)

theorem Open.afterJump (opened : b.Open) : b.Grown b.afterJump :=
  (Follows.refl b).jump opened.toSane rfl

variable {p : Program}

theorem Open.stmt (opened : b.Open) (depth : Nat) (id : NodeId) : b.Grown (stmt p depth id b) := by
  induction depth generalizing id b with
  | zero => exact .refl opened
  | succ depth ih =>
    have inside (block : NodeId) (b : Builder) (opened : b.Open) :=
      Grown.foldl (f := fun b child => Builder.stmt p depth child b)
        (fun b child opened => ih opened child) (p.children block) opened
    rw [Builder.stmt]
    split
    · exact inside id b opened
    · refine opened.choice _ (inside _) fun inner member => ?_
      obtain ⟨block, _, rfl⟩ := Option.map_eq_some_iff.mp member
      exact inside block
    · exact opened.headedLoop _ (inside _)
    · exact opened.testedLoop _ (inside _)
    · exact opened.headedLoop _ (inside _)
    · have pushed := opened.push (.stmt id)
      exact pushed.trans pushed.opened.afterJump
    · split
      · rename_i found
        exact opened.leave (opened.loops_lt (List.mem_of_head? found)).2
      · exact opened.afterJump
    · split
      · rename_i found
        exact opened.leave (opened.loops_lt (List.mem_of_head? found)).1
      · exact opened.afterJump
    · exact opened.label _
    · exact opened.goto _
    · exact .refl opened
    · exact opened.push _

theorem open_empty : Open {} where
  succ_lt {x y} member := by
    cases x <;> simp [succAt] at member
  loops_lt := nofun
  labels_lt := nofun
  gotos_lt := nofun
  gotos_end := nofun
  gotos_nodup := List.nodup_nil
  current_lt := by decide
  ends := rfl
  gotos_ne := nofun

theorem stmts_grown (block : NodeId) : Grown {} (stmts p block {}) :=
  .foldl (fun _ child opened => opened.stmt _ child) _ open_empty

/-- Blocks in which some of the jumps to labels lead on as well. -/
structure Resolved (b : Builder) (jumps : List (Nat × String)) (blocks : Array Block) : Prop where
  size : blocks.size = b.blocks.size
  items (x : Nat) : itemsAt blocks x = itemsAt b.blocks x
  succ {x : Nat} : (∀ j ∈ jumps, j.1 ≠ x) → succAt blocks x = succAt b.blocks x
  jump {j : Nat × String} : j ∈ jumps →
    ∃ y, b.labels.lookup j.2 = some y ∧ succAt blocks j.1 = [y]

theorem Resolved.cons {j : Nat × String} {rest : List (Nat × String)} {blocks : Array Block}
    {target : Nat} (found : b.labels.lookup j.2 = some target) (inside : j.1 < b.blocks.size)
    (ends : succAt b.blocks j.1 = []) (once : ∀ k ∈ rest, k.1 ≠ j.1)
    (others : (b.edge j.1 target).Resolved rest blocks) : b.Resolved (j :: rest) blocks where
  size := by simpa using others.size
  items x := by simpa using others.items x
  succ {x} behind := by
    have apart := behind j List.mem_cons_self
    rw [others.succ fun k member => behind k (List.mem_cons_of_mem _ member), succAt_edge,
      if_neg fun here => apart here.1.symm]
  jump {k} member := by
    rcases List.mem_cons.mp member with rfl | later
    · refine ⟨target, found, ?_⟩
      rw [others.succ once, succAt_edge, if_pos ⟨rfl, inside, by simp [ends]⟩, ends, List.nil_append]
    · simpa using others.jump later

theorem Open.resolved (opened : b.Open) {function : String}
    (resolves : b.resolveGotos function = .ok c) : b.Resolved b.gotos c.blocks := by
  have known (j : Nat × String) (member : j ∈ b.gotos) := opened.gotos_lt member
  have ends (j : Nat × String) (member : j ∈ b.gotos) := opened.gotos_end member
  have nodup := opened.gotos_nodup
  unfold resolveGotos at resolves
  generalize b.gotos = jumps at *
  clear opened
  induction jumps generalizing b with
  | nil =>
    rw [List.foldlM_nil] at resolves
    cases Outcome.pure_eq_ok_iff.mp resolves
    exact ⟨rfl, fun _ => rfl, fun _ => rfl, nofun⟩
  | cons j rest ih =>
    rw [List.foldlM_cons] at resolves
    obtain ⟨d, first, others⟩ := Outcome.bind_eq_ok_iff.mp resolves
    obtain ⟨source, name⟩ := j
    dsimp only at first
    rw [List.map_cons, List.nodup_cons] at nodup
    have once (k : Nat × String) (member : k ∈ rest) : k.1 ≠ source := fun same =>
      nodup.1 (List.mem_map.mpr ⟨k, member, same⟩)
    split at first
    · rename_i target found
      cases first
      refine .cons found (known _ List.mem_cons_self) (ends _ List.mem_cons_self) once
        (ih others (fun k member => ?_) (fun k member => ?_) nodup.2)
      · simpa using known k (List.mem_cons_of_mem _ member)
      · rw [succAt_edge, if_neg fun here => once k member here.1]
        exact ends k (List.mem_cons_of_mem _ member)
    · cases first

end Builder

/-- `g.Path b rest`: the edges lead from block `b` to the first block of `rest`, from there to the
next one, and so on to the last. -/
inductive Graph.Path (g : Graph) : Nat → List Nat → Prop
  | nil {b : Nat} : Path g b []
  | cons {b c : Nat} {rest : List Nat} : c ∈ (g.block b).succ → Path g c rest → Path g b (c :: rest)

/-- The items of blocks, one after the other. -/
def Graph.itemsOf (g : Graph) (blocks : List Nat) : List Item :=
  blocks.flatMap fun b => (g.block b).items

namespace Graph

variable {p : Program} {f : SymbolId} {g : Graph}

theorem resolved_of_build (built : build p f = .ok g) : ∃ body, p.fnBody? f = some body ∧
    (Builder.stmts p body {}).Resolved (Builder.stmts p body {}).gotos g.blocks ∧
    g.function = f ∧ g.epoch = p.epoch f := by
  unfold build at built
  split at built
  · cases built
  · rename_i body found
    cases resolves : (Builder.stmts p body {}).resolveGotos (p.name f) with
    | error e =>
      rw [resolves] at built
      cases built
    | ok c =>
      rw [resolves] at built
      cases built
      exact ⟨body, found, (Builder.stmts_grown body).opened.resolved resolves, rfl, rfl⟩

/-- Every edge of a graph leads to one of its blocks. -/
theorem succ_lt (built : build p f = .ok g) {x y : Nat} (member : y ∈ (g.block x).succ) :
    y < g.blocks.size := by
  obtain ⟨body, _, resolved, _⟩ := resolved_of_build built
  have opened := (Builder.stmts_grown (p := p) body).opened
  rw [resolved.size]
  change y ∈ succAt g.blocks x at member
  by_cases jump : ∃ j ∈ (Builder.stmts p body {}).gotos, j.1 = x
  · obtain ⟨j, known, rfl⟩ := jump
    obtain ⟨target, found, only⟩ := resolved.jump known
    rw [only, List.mem_singleton] at member
    obtain ⟨_, _, listed, _⟩ := List.lookup_eq_some_iff.mp found
    have := opened.labels_lt (l := (j.2, target)) (by simp [listed])
    exact member ▸ this
  · rw [resolved.succ fun j known same => jump ⟨j, known, same⟩] at member
    exact opened.succ_lt member

end Graph

end MiddleEnd.Flow
