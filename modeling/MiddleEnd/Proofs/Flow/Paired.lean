import MiddleEnd.Proofs.Flow.Builder

/-! The two edge lists of a graph say the same. -/

namespace MiddleEnd.Flow

def predAt (blocks : Array Block) (x : Nat) : List Nat := (blocks.getD x {}).pred

@[simp] theorem predAt_push_empty {blocks : Array Block} {x : Nat} :
    predAt (blocks.push {}) x = predAt blocks x := by
  rw [predAt, getD_push_empty, predAt]

/-- Each block lists where it leads, and from where one gets to it, both without repetition. -/
structure Paired (blocks : Array Block) : Prop where
  succ_nodup (x : Nat) : (succAt blocks x).Nodup
  pred_nodup (x : Nat) : (predAt blocks x).Nodup
  succ_iff {x y : Nat} : y ∈ succAt blocks x ↔ x ∈ predAt blocks y

namespace Builder

variable {b c : Builder} {x y : Nat} {item : Item}

@[simp] theorem predAt_push : predAt (b.push item).blocks x = predAt b.blocks x := by
  simp only [predAt, push, Array.getD_eq_getD_getElem?, Array.getElem?_modify]
  by_cases here : b.current = x
  · subst here
    cases b.blocks[b.current]? <;> simp
  · simp [here]

theorem predAt_edge {source target : Nat} (known : target < b.blocks.size) :
    predAt (b.edge source target).blocks x =
      if x = target ∧ target ∉ succAt b.blocks source
      then predAt b.blocks x ++ [source] else predAt b.blocks x := by
  by_cases old : target ∈ succAt b.blocks source
  · have present : (b.blocks.getD source {}).succ.contains target = true := by
      simpa [succAt] using old
    rw [edge, if_pos present]
    simp [old]
  · have absent : (b.blocks.getD source {}).succ.contains target = false := by
      simpa [succAt] using old
    rw [edge, absent, if_neg Bool.false_ne_true]
    simp only [old, not_false_eq_true, and_true]
    simp only [predAt, Array.getD_eq_getD_getElem?, Array.getElem?_modify]
    by_cases atTarget : target = x
    · subst atTarget
      by_cases atSource : source = target <;> simp [atSource, known]
    · by_cases atSource : source = x <;> cases b.blocks[x]? <;>
        simp [atTarget, Ne.symm atTarget, atSource]

end Builder

namespace Paired

open Builder

variable {b c : Builder} {x y : Nat} {item : Item}

theorem newBlock (paired : Paired b.blocks) : Paired b.newBlock.2.blocks := by
  obtain ⟨succ, pred, same⟩ := paired
  constructor <;> simpa [Builder.newBlock]

theorem push (paired : Paired b.blocks) (item : Item) : Paired (b.push item).blocks := by
  obtain ⟨succ, pred, same⟩ := paired
  constructor <;> simpa

/-- An edge between two blocks that are there goes into a list of each. -/
theorem edge (paired : Paired b.blocks) (first : x < b.blocks.size) (second : y < b.blocks.size) :
    Paired (b.edge x y).blocks := by
  by_cases old : y ∈ succAt b.blocks x
  · constructor <;> simp only [succAt_edge, predAt_edge second, old, not_true_eq_false, and_false,
      if_false]
    · exact paired.succ_nodup
    · exact paired.pred_nodup
    · exact paired.succ_iff
  · have new : x ∉ predAt b.blocks y := fun member => old (paired.succ_iff.mpr member)
    constructor
    case succ_nodup =>
      intro z
      rw [succAt_edge]
      split
      · rename_i here
        exact List.nodup_append.mpr ⟨paired.succ_nodup z, List.nodup_singleton y, by grind⟩
      · exact paired.succ_nodup z
    case pred_nodup =>
      intro z
      rw [predAt_edge second]
      split
      · rename_i here
        exact List.nodup_append.mpr ⟨paired.pred_nodup z, List.nodup_singleton x, by grind⟩
      · exact paired.pred_nodup z
    case succ_iff =>
      intro v w
      have same := paired.succ_iff (x := v) (y := w)
      rw [succAt_edge, predAt_edge second]
      grind

theorem afterJump (paired : Paired b.blocks) : Paired b.afterJump.blocks := paired.newBlock

theorem arm (paired : Paired b.blocks) (known : x < b.blocks.size) : Paired (b.arm x).blocks :=
  paired.newBlock.edge (by simp [Builder.newBlock]; omega) (by simp [Builder.newBlock])

theorem close (paired : Paired b.blocks) (current : b.current < b.blocks.size)
    (next : x < b.blocks.size) : Paired (b.close x y).blocks := paired.edge current next

theorem goTo (paired : Paired b.blocks) (x : Nat) : Paired (b.goTo x).blocks := paired

theorem fork (paired : Paired b.blocks) (current : b.current < b.blocks.size)
    (first : x < b.blocks.size) (second : y < b.blocks.size) : Paired (b.fork x y).blocks :=
  ((paired.edge current first).edge (by simpa using current) (by simpa using second)).goTo y

theorem join (paired : Paired b.blocks) (first : x < b.blocks.size) (second : y < b.blocks.size) :
    Paired (b.join x y).blocks := by
  have one : Paired (b.newBlock.2.edge x b.blocks.size).blocks :=
    paired.newBlock.edge (by simp [Builder.newBlock]; omega) (by simp [Builder.newBlock])
  exact (one.edge (by simp [Builder.newBlock]; omega) (by simp [Builder.newBlock])).goTo _

theorem foldl {α : Type} {f : Builder → α → Builder}
    (grows : ∀ (b : Builder) a, b.Open → b.Grown (f b a))
    (turn : ∀ (b : Builder) a, b.Open → Paired b.blocks → Paired (f b a).blocks)
    (members : List α) (opened : b.Open) (paired : Paired b.blocks) :
    Paired (members.foldl f b).blocks := by
  induction members generalizing b with
  | nil => exact paired
  | cons a rest ih => exact ih (grows b a opened).opened (turn b a opened paired)

section

variable {inner : Builder → Builder} (opened : b.Open) (paired : Paired b.blocks)
  (grows : ∀ b : Builder, b.Open → b.Grown (inner b))
  (turn : ∀ b : Builder, b.Open → Paired b.blocks → Paired (inner b).blocks)

include opened paired grows turn

theorem headedLoop (item : Item) : Paired (b.headedLoop item inner).blocks := by
  rw [headedLoop_eq]
  have header : Paired ((b.arm b.current).push item).newBlock.2.newBlock.2.blocks :=
    ((paired.arm opened.current_lt).push item).newBlock.newBlock
  have size : ((b.arm b.current).push item).newBlock.2.newBlock.2.blocks.size = b.blocks.size + 3 := by
    simp [Builder.newBlock]
  have entered : Paired (b.enterHeaded item).blocks := by
    simp only [enterHeaded, within, Builder.goTo]
    exact (header.edge (by omega) (by omega)).edge (by rw [size_edge]; omega)
      (by rw [size_edge]; omega)
  have grown := grows _ (opened.enterHeaded item)
  have size := grown.size_le
  rw [size_enterHeaded] at size
  exact (turn _ (opened.enterHeaded item) entered).close grown.opened.current_lt (by omega)

theorem testedLoop (item : Item) : Paired (b.testedLoop item inner).blocks := by
  rw [testedLoop_eq]
  have entered : Paired b.enterTested.blocks := (paired.arm opened.current_lt).newBlock.newBlock
  have grown := grows _ opened.enterTested
  have size := grown.size_le
  rw [size_enterTested] at size
  have closed := (turn _ opened.enterTested entered).close (y := b.blocks.size + 1)
    grown.opened.current_lt (by omega : b.blocks.size + 1 < _)
  refine (closed.push item).fork ?_ ?_ ?_ <;> simp <;> omega

theorem choice (item : Item) {elseInner : Option (Builder → Builder)}
    (growsElse : ∀ inner ∈ elseInner, ∀ b : Builder, b.Open → b.Grown (inner b))
    (turnElse : ∀ inner ∈ elseInner, ∀ b : Builder, b.Open → Paired b.blocks → Paired (inner b).blocks) :
    Paired (b.choice item inner elseInner).blocks := by
  have inside := opened.current_lt
  have openedThen := opened.enterThen item
  have grown := grows _ openedThen
  have thenDone := turn _ openedThen ((paired.push item).arm (by simpa using inside))
  have size := grown.size_le
  rw [size_arm, size_push] at size
  have plain : ∀ j ∈ (inner (b.enterThen item)).gotos, j.1 ≠ b.current :=
    grown.plain (by simp [Ahead]; omega) fun j member => opened.gotos_ne (by simpa using member)
  cases elseInner with
  | none =>
    rw [choice_none_eq]
    exact thenDone.join grown.opened.current_lt (by omega)
  | some elseInner =>
    rw [choice_some_eq]
    generalize inner (b.enterThen item) = c at *
    have openedElse := Open.arm grown.opened.toSane (by omega : b.current < _) plain
    have grownElse := growsElse elseInner rfl _ openedElse
    have sizeElse := grownElse.size_le
    rw [size_arm] at sizeElse
    have elseDone := turnElse elseInner rfl _ openedElse (thenDone.arm (by omega))
    have known := grown.opened.current_lt
    exact elseDone.join (by omega) grownElse.opened.current_lt

end

variable {p : Program}

theorem stmt (opened : b.Open) (paired : Paired b.blocks) (depth : Nat) (id : NodeId) :
    Paired (Builder.stmt p depth id b).blocks := by
  induction depth generalizing id b with
  | zero => exact paired
  | succ depth ih =>
    have grows (block : NodeId) (b : Builder) (opened : b.Open) :=
      Grown.foldl (f := fun b child => Builder.stmt p depth child b)
        (fun b child opened => opened.stmt depth child) (p.children block) opened
    have inside (block : NodeId) (b : Builder) (opened : b.Open) (paired : Paired b.blocks) :=
      Paired.foldl (f := fun b child => Builder.stmt p depth child b)
        (fun b child opened => opened.stmt depth child)
        (fun b child opened paired => ih opened paired child) (p.children block) opened paired
    rw [Builder.stmt]
    cases kind : p.kind id with
    | block ids => exact inside id b opened paired
    | cond test thenBlock elseBlock =>
      refine .choice opened paired (grows _) (inside _) _ (fun inner member => ?_) fun inner member => ?_
      · obtain ⟨block, _, rfl⟩ := Option.map_eq_some_iff.mp member
        exact grows block
      · obtain ⟨block, _, rfl⟩ := Option.map_eq_some_iff.mp member
        exact inside block
    | loop test body testFirst =>
      cases testFirst with
      | true => exact .headedLoop opened paired (grows _) (inside _) _
      | false => exact .testedLoop opened paired (grows _) (inside _) _
    | forLoop index iterable body => exact .headedLoop opened paired (grows _) (inside _) _
    | ret value => exact (paired.push _).afterJump
    | brk | cont =>
      dsimp only
      split
      · rename_i found
        have known := opened.loops_lt (List.mem_of_head? found)
        first
          | exact (paired.edge opened.current_lt known.1).afterJump
          | exact (paired.edge opened.current_lt known.2).afterJump
      · exact paired.afterJump
    | label name => exact paired.arm opened.current_lt
    | goto name => exact paired.afterJump
    | fnDef => exact paired
    | symRef | call | namedArg | literal | prim | assign | define => exact paired.push _

theorem empty : Paired ({} : Builder).blocks := by
  have none (x : Nat) : ({} : Builder).blocks.getD x {} = {} := by cases x <;> rfl
  constructor <;> simp [succAt, predAt, none]

theorem stmts (block : NodeId) : Paired (Builder.stmts p block {}).blocks :=
  .foldl (fun _ child opened => opened.stmt _ child)
    (fun _ child opened paired => paired.stmt opened _ child) _ open_empty empty

/-- The jumps of which the labels are known get edges. -/
theorem resolveGotos {function : String} (resolves : b.resolveGotos function = .ok c)
    (paired : Paired b.blocks) (labels : ∀ l ∈ b.labels, l.2 < b.blocks.size)
    (gotos : ∀ j ∈ b.gotos, j.1 < b.blocks.size) : Paired c.blocks := by
  unfold Builder.resolveGotos at resolves
  generalize b.gotos = jumps at resolves gotos
  induction jumps generalizing b with
  | nil =>
    rw [List.foldlM_nil] at resolves
    cases Outcome.pure_eq_ok_iff.mp resolves
    exact paired
  | cons j rest ih =>
    rw [List.foldlM_cons] at resolves
    obtain ⟨d, first, others⟩ := Outcome.bind_eq_ok_iff.mp resolves
    obtain ⟨source, name⟩ := j
    dsimp only at first
    split at first
    · rename_i target found
      cases first
      obtain ⟨before, after, listed, _⟩ := List.lookup_eq_some_iff.mp found
      have known := labels (name, target) (by simp [listed])
      have edged := paired.edge (gotos _ List.mem_cons_self) known
      refine ih edged (fun l member => ?_) others fun k member => ?_
      · simpa using labels l (by simpa using member)
      · simpa using gotos k (List.mem_cons_of_mem _ member)
    · cases first

end Paired

/-- The edge lists of a graph agree. -/
theorem Graph.paired_of_build {p : Program} {f : SymbolId} {g : Graph}
    (built : Graph.build p f = .ok g) : Paired g.blocks := by
  unfold Graph.build at built
  split at built
  · cases built
  · rename_i body found
    cases resolves : (Builder.stmts p body {}).resolveGotos (p.name f) with
    | error e =>
      rw [resolves] at built
      cases built
    | ok c =>
      rw [resolves] at built
      cases built
      have opened := (Builder.stmts_grown (p := p) body).opened
      exact (Paired.stmts body).resolveGotos resolves (fun _ => opened.labels_lt) fun _ => opened.gotos_lt

end MiddleEnd.Flow
