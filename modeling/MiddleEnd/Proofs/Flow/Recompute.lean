import MiddleEnd.Proofs.Flow.Paths
import MiddleEnd.Proofs.Surface.Loops

/-! Loops test no stale condition, those with a `continue` of their own apart.

The condition variable is computed at the end of the body, where `continue` does not come by. What
is left to run is therefore followed down to the statement that was run last (`Ready`); only the
innermost part can follow on a computation, as every part around it waits for a statement that has
others inside of it (`Waits`). -/

namespace MiddleEnd.Flow

open Program

/-- A `continue` of the loop around stands in the node, itself included. -/
inductive Continues (p : Program) : NodeId → Prop
  | here {id : NodeId} : p.kind id = .cont → Continues p id
  | block {id child : NodeId} {ids : List NodeId} : p.kind id = .block ids → child ∈ ids →
      Continues p child → Continues p id
  | thenBlock {id test thenBlock : NodeId} {elseBlock : Option NodeId} :
      p.kind id = .cond test thenBlock elseBlock → Continues p thenBlock → Continues p id
  | elseBlock {id test thenBlock elseBlock : NodeId} :
      p.kind id = .cond test thenBlock (some elseBlock) → Continues p elseBlock → Continues p id

/-- Before each turn of a loop with this body, the item is evaluated. -/
inductive Turns (p : Program) : Item → NodeId → Prop
  | loop {loop test inner : NodeId} {testFirst : Bool} : p.Reached loop →
      p.kind loop = .loop test inner testFirst → Turns p (.loopTest test) inner
  | forLoop {loop index iterable inner : NodeId} : p.Reached loop →
      p.kind loop = .forLoop index iterable inner → Turns p (.forHeader loop) inner

/-- The condition was computed in the step before, or the loop has a `continue` of its own. -/
def Fresh (p : Program) (last : Option Item) (item : Item) (inner : NodeId) : Prop :=
  ∀ test, item = .loopTest test → ¬ Continues p inner →
    ∃ d, last = some (.stmt d) ∧ p.Computes d test

/-- A block that can be reached. -/
structure Body (p : Program) (b : NodeId) : Prop where
  reached : p.Reached b
  kind : p.kind b = .block (p.children b)

/-- The last of these statements was the step before, if it runs in one step. -/
def Ran (p : Program) (last : Option Item) (done : List NodeId) : Prop :=
  ∀ d, done.getLast? = some d → (p.kind d).isSimple = true → last = some (.stmt d)

/-- In `block`, `done` has been run and `rest` is left to run; then the run goes on at `after`. -/
structure Stands (p : Program) (block : NodeId) (done rest : List NodeId) (after : Place) : Prop where
  reached : p.Reached block
  kind : p.kind block = .block (done ++ rest)
  -- A loop goes on where its own body ends, or by a `continue` of its own.
  inner {item : Item} {inner : NodeId} {outer : Place} : after = .turn item inner :: outer →
    block = inner
  again {item : Item} {inner : NodeId} {outer : Place} : after.again = .turn item inner :: outer →
    Continues p block → Continues p inner

/-- What is left to run after a statement that does not run in one step. -/
inductive Waits (p : Program) : Place → Prop
  | nil : Waits p []
  | run {block s : NodeId} {done rest : List NodeId} {after : Place} :
      Stands p block (done ++ [s]) rest after → (p.kind s).isSimple = false → Waits p after →
      Waits p (.run rest :: after)
  | turn {item : Item} {inner : NodeId} {rest : List NodeId} {after : Place} :
      Turns p item inner → Waits p (.run rest :: after) →
      Waits p (.turn item inner :: .run rest :: after)

/-- What is left to run after the item `last`. -/
inductive Ready (p : Program) (last : Option Item) : Place → Prop
  | nil : Ready p last []
  | run {block : NodeId} {done rest : List NodeId} {after : Place} :
      Stands p block done rest after → Ran p last done → Waits p after → Ready p last (.run rest :: after)
  | turn {item : Item} {inner : NodeId} {rest : List NodeId} {after : Place} :
      Turns p item inner → Fresh p last item inner → Waits p (.run rest :: after) →
      Ready p last (.turn item inner :: .run rest :: after)

section

variable {p : Program} {body block id : NodeId} {done rest : List NodeId} {after place onward : Place}
  {item last : Option Item}

theorem body_of_slot (tidy : p.Tidy) (reached : p.Reached id) {b : NodeId}
    (slot : (Slot.block, b) ∈ (p.kind id).slots) : Body p b where
  reached := .child reached (NodeKind.mem_children_iff.mpr ⟨_, slot⟩)
  kind := by
    have fits := (tidy.lawful (tidy.sound.live_of_reached reached)).fits slot
    cases is : p.kind b <;> simp [Fits, is, NodeKind.isBlock] at fits
    rw [Program.children, is]
    rfl

theorem body_of_block (reached : p.Reached id) {ids : List NodeId} (kind : p.kind id = .block ids) :
    Body p id where
  reached := reached
  kind := by
    rw [Program.children, kind]
    rfl

/-- A run of a whole body. -/
theorem Body.stands (whole : Body p body) : Stands p body [] (p.children body) [] :=
  ⟨whole.reached, whole.kind, nofun, nofun⟩

theorem Headed.compound {inner : NodeId} {i : Item} (head : Headed p id i inner) :
    (p.kind id).isSimple = false := by
  cases head with
  | loop kind | forLoop kind =>
    rw [kind]
    rfl

namespace Stands

theorem mem (stands : Stands p block done (id :: rest) after) : id ∈ p.children block := by
  rw [Program.children, stands.kind]
  exact List.mem_append_right _ List.mem_cons_self

theorem reached_head (stands : Stands p block done (id :: rest) after) : p.Reached id :=
  .child stands.reached stands.mem

/-- The statement is done. -/
theorem advance (stands : Stands p block done (id :: rest) after) :
    Stands p block (done ++ [id]) rest after where
  reached := stands.reached
  kind := by rw [stands.kind, List.append_assoc]; rfl
  inner := stands.inner
  again := stands.again

/-- A `continue` in a statement is one in the block. -/
theorem continues (stands : Stands p block done (id :: rest) after) (inside : Continues p id) :
    Continues p block :=
  .block stands.kind (List.mem_append_right _ List.mem_cons_self) inside

/-- The run goes into a block of the statement. -/
theorem enter (stands : Stands p block done (id :: rest) after) {b : NodeId} (body : Body p b)
    (inside : Continues p b → Continues p id) :
    Stands p b [] (p.children b) (.run rest :: after) where
  reached := body.reached
  kind := body.kind
  inner := nofun
  again around continues := stands.again around (stands.continues (inside continues))

theorem enterBlock (stands : Stands p block done (id :: rest) after) {ids : List NodeId}
    (kind : p.kind id = .block ids) : Stands p id [] (p.children id) (.run rest :: after) :=
  stands.enter (body_of_block stands.reached_head kind) fun inside => inside

theorem enterThen (tidy : p.Tidy) (stands : Stands p block done (id :: rest) after)
    {test thenBlock : NodeId} {elseBlock : Option NodeId}
    (kind : p.kind id = .cond test thenBlock elseBlock) :
    Stands p thenBlock [] (p.children thenBlock) (.run rest :: after) := by
  have slot : (Slot.block, thenBlock) ∈ (p.kind id).slots := by simp [kind, NodeKind.slots]
  exact stands.enter (body_of_slot tidy stands.reached_head slot) (.thenBlock kind)

theorem enterElse (tidy : p.Tidy) (stands : Stands p block done (id :: rest) after)
    {test thenBlock elseBlock : NodeId} (kind : p.kind id = .cond test thenBlock (some elseBlock)) :
    Stands p elseBlock [] (p.children elseBlock) (.run rest :: after) := by
  have slot : (Slot.block, elseBlock) ∈ (p.kind id).slots := by simp [kind, NodeKind.slots]
  exact stands.enter (body_of_slot tidy stands.reached_head slot) (.elseBlock kind)

theorem waits {kind : NodeKind} (stands : Stands p block done (id :: rest) after)
    (is : p.kind id = kind) (compound : kind.isSimple = false) (waits : Waits p after) :
    Waits p (.run rest :: after) :=
  .run stands.advance (is ▸ compound) waits

theorem turns (stands : Stands p block done (id :: rest) after) {i : Item} {inner : NodeId}
    (head : Headed p id i inner) : Turns p i inner := by
  cases head with
  | loop kind => exact .loop stands.reached_head kind
  | forLoop kind => exact .forLoop stands.reached_head kind

end Stands

namespace Turns

theorem inner (tidy : p.Tidy) {i : Item} {inner : NodeId} (turns : Turns p i inner) :
    Body p inner := by
  cases turns with
  | loop reached kind | forLoop reached kind =>
    exact body_of_slot tidy reached (by simp [kind, NodeKind.slots])

/-- The run goes into the body of a loop. -/
theorem enter (tidy : p.Tidy) {i : Item} {inner : NodeId} (turns : Turns p i inner) :
    Stands p inner [] (p.children inner) (.turn i inner :: after) where
  reached := (turns.inner tidy).reached
  kind := (turns.inner tidy).kind
  inner around := by
    cases around
    rfl
  again around continues := by
    cases around
    exact continues

end Turns

theorem Waits.ready (waits : Waits p (.run rest :: after)) : Ready p last (.run rest :: after) := by
  cases waits with
  | run stands compound waits =>
    refine .run stands (fun d ends simple => ?_) waits
    rw [List.getLast?_concat, Option.some.injEq] at ends
    rw [ends, simple] at compound
    cases compound

/-- `break` goes on after a statement that has others inside of it. -/
theorem Waits.leave (waits : Waits p place) : Ready p last place.leave := by
  induction waits with
  | nil => exact .nil
  | run _ _ _ ih => exact ih
  | turn _ waits _ => exact waits.ready

/-- `continue` goes on at a test that may be stale. -/
theorem Waits.again (waits : Waits p place)
    (stale : ∀ {item inner outer}, place.again = .turn item inner :: outer → Continues p inner) :
    Ready p last place.again := by
  induction waits with
  | nil => exact .nil
  | run _ _ _ ih => exact ih stale
  | turn turns waits _ => exact .turn turns (fun _ _ never => absurd (stale rfl) never) waits

/-- A block ends. -/
theorem Stands.ready (conditioned : p.Conditioned) (stands : Stands p block done [] after)
    (ran : Ran p last done) (waits : Waits p after) : Ready p last after := by
  cases waits with
  | nil => exact .nil
  | run stands' compound waits => exact (Waits.run stands' compound waits).ready
  | turn turns waits =>
    refine .turn turns (fun test tested _ => ?_) waits
    cases turns with
    | loop reached kind =>
      cases tested
      obtain ⟨before, d, ends, computes⟩ := conditioned.at_end reached kind
      have same := stands.kind
      rw [stands.inner rfl, ends, List.append_nil, NodeKind.block.injEq] at same
      exact ⟨d, ran d (same ▸ List.getLast?_concat) computes.simple, computes⟩
    | forLoop => cases tested

/-- The labels of a body stand where any item may come before. -/
theorem ready_of_marks (tidy : p.Tidy) {stmts : List NodeId} {labels : List (String × Place)}
    (listed : Marks p stmts after labels) (stands : Stands p block done stmts after)
    (waits : Waits p after) : ∀ label ∈ labels, Ready p last label.2 := by
  induction listed generalizing block done with
  | nil => exact nofun
  | label kind _ ih =>
    intro label member
    rcases List.mem_cons.mp member with rfl | later
    · exact (stands.waits kind rfl waits).ready
    · exact ih stands.advance waits label later
  | block kind _ _ ihInside ih =>
    intro label member
    rcases List.mem_append.mp member with inside | later
    · exact ihInside (stands.enterBlock kind) (stands.waits kind rfl waits) label inside
    · exact ih stands.advance waits label later
  | cond kind _ _ ihInside ih =>
    intro label member
    rcases List.mem_append.mp member with inside | later
    · exact ihInside (stands.enterThen tidy kind) (stands.waits kind rfl waits) label inside
    · exact ih stands.advance waits label later
  | condElse kind _ _ _ ihInside ihOther ih =>
    intro label member
    rcases List.mem_append.mp member with inside | member
    · exact ihInside (stands.enterThen tidy kind) (stands.waits kind rfl waits) label inside
    · rcases List.mem_append.mp member with other | later
      · exact ihOther (stands.enterElse tidy kind) (stands.waits kind rfl waits) label other
      · exact ih stands.advance waits label later
  | headed head _ _ ihInside ih =>
    intro label member
    rcases List.mem_append.mp member with inside | later
    · have turns := stands.turns head
      exact ihInside (turns.enter tidy) (.turn turns (.run stands.advance head.compound waits)) label
        inside
    · exact ih stands.advance waits label later
  | tested kind _ _ ihInside ih =>
    intro label member
    rcases List.mem_append.mp member with inside | later
    · have turns := Turns.loop stands.reached_head kind
      exact ihInside (turns.enter tidy) (.turn turns (stands.waits kind rfl waits)) label inside
    · exact ih stands.advance waits label later
  | plain _ _ ih => exact ih stands.advance waits

/-! Steps and runs. -/

/-- What a step keeps up. -/
theorem Ready.step (tidy : p.Tidy) (conditioned : p.Conditioned) (whole : Body p body)
    (ready : Ready p last place) (step : Step p body place item onward) :
    Ready p (item <|> last) onward := by
  cases step with
  | done =>
    cases ready with
    | run stands ran waits => exact stands.ready conditioned ran waits
  | block kind =>
    cases ready with
    | run stands ran waits => exact .run (stands.enterBlock kind) nofun (stands.waits kind rfl waits)
  | taken kind =>
    cases ready with
    | run stands ran waits =>
      exact .run (stands.enterThen tidy kind) nofun (stands.waits kind rfl waits)
  | other kind =>
    cases ready with
    | run stands ran waits =>
      exact .run (stands.enterElse tidy kind) nofun (stands.waits kind rfl waits)
  | skipped kind | label kind =>
    cases ready with
    | run stands ran waits => exact (stands.waits kind rfl waits).ready
  | headed head =>
    cases ready with
    | run stands ran waits =>
      refine .turn (stands.turns head) (fun test tested _ => ?_) (.run stands.advance head.compound waits)
      cases head with
      | loop kind =>
        cases tested
        obtain ⟨d, ends, computes⟩ := conditioned.beforehand stands.reached stands.kind kind
        exact ⟨d, ran d ends computes.simple, computes⟩
      | forLoop => cases tested
  | tested kind =>
    cases ready with
    | run stands ran waits =>
      have turns := Turns.loop stands.reached_head kind
      exact .run (turns.enter tidy) nofun (.turn turns (stands.waits kind rfl waits))
  | turn =>
    cases ready with
    | turn turns _ waits => exact .run (turns.enter tidy) nofun (.turn turns waits)
  | exit =>
    cases ready with
    | turn _ _ waits => exact waits.ready
  | ret => exact .nil
  | brk =>
    cases ready with
    | run _ _ waits => exact waits.leave
  | cont kind =>
    cases ready with
    | run stands _ waits =>
      exact waits.again fun around => stands.again around (stands.continues (.here kind))
  | @goto _ name _ _ _ _ _ listed found =>
    obtain ⟨before, after, split, _⟩ := List.lookup_eq_some_iff.mp found
    refine ready_of_marks tidy listed whole.stands .nil (name, onward) (List.mem_reverse.mp ?_)
    rw [split]
    exact List.mem_append_right _ List.mem_cons_self
  | @fnDef id _ _ is =>
    cases ready with
    | run stands _ waits =>
      have compound : (p.kind id).isSimple = false := by
        cases kind : p.kind id <;> simp [kind, NodeKind.isFnDef] at is
        rfl
      exact (Waits.run stands.advance compound waits).ready
  | simple =>
    cases ready with
    | run stands _ waits =>
      refine .run stands.advance (fun d ends _ => ?_) waits
      rw [List.getLast?_concat, Option.some.injEq] at ends
      rw [ends]
      rfl

/-- Where a step tests a condition, the condition is fresh. -/
theorem Ready.fresh {test : NodeId} (ready : Ready p last place)
    (step : Step p body place (some (.loopTest test)) onward) :
    ∃ inner, Turns p (.loopTest test) inner ∧ Fresh p last (.loopTest test) inner := by
  cases step with
  | turn | exit =>
    cases ready with
    | turn turns fresh _ => exact ⟨_, turns, fresh⟩

/-- Wherever a run tests a condition, the condition is fresh. -/
theorem Ready.fresh_of_emits (tidy : p.Tidy) (conditioned : p.Conditioned) (whole : Body p body)
    {items earlier later : List Item} {test : NodeId} (ready : Ready p last place)
    (emits : Emits p body place items) (split : items = earlier ++ .loopTest test :: later) :
    ∃ inner, Turns p (.loopTest test) inner ∧
      Fresh p (earlier.getLast? <|> last) (.loopTest test) inner := by
  induction emits generalizing last earlier with
  | nil => simp at split
  | silent step _ ih => exact ih (ready.step tidy conditioned whole step) split
  | item step _ ih =>
    cases earlier with
    | nil =>
      obtain ⟨rfl, rfl⟩ := List.cons_eq_cons.mp split
      exact ready.fresh step
    | cons first earlier =>
      obtain ⟨rfl, rfl⟩ := List.cons_eq_cons.mp split
      obtain ⟨inner, turns, fresh⟩ := ih (ready.step tidy conditioned whole step) rfl
      refine ⟨inner, turns, ?_⟩
      rw [List.getLast?_cons]
      cases ends : earlier.getLast? with
      | none => simpa [ends] using fresh
      | some i => simpa [ends] using fresh

end

/-- On every path of a lowered function, a loop with no `continue` of its own tests its condition
right after the condition variable has been written. -/
theorem Graph.tested_fresh {tree : Surface.ProgramTree} {p : Program} {f : SymbolId} {g : Graph}
    (lowered : tree.lower = .ok p) (registered : f ∈ p.registries.fns)
    (built : Graph.build p f = .ok g) {rest : List Nat} (path : g.Path 0 rest)
    {loop test inner : NodeId} {testFirst : Bool} (reached : p.Reached loop)
    (kind : p.kind loop = .loop test inner testFirst) (never : ¬ Continues p inner)
    {earlier : List Item} (read : earlier ++ [.loopTest test] <+: g.itemsOf (0 :: rest)) :
    ∃ before d, earlier = before ++ [.stmt d] ∧ p.Computes d test := by
  obtain ⟨settled, _, _⟩ := Surface.ProgramTree.lowered lowered
  have tidy := settled.toTidy
  obtain ⟨d, placed⟩ := tidy.placed_of_registered registered
  obtain ⟨_, formals, body, fnDef, found⟩ := tidy.fnBody?_eq placed
  obtain ⟨body', targets, found', known, tail⟩ := tail_of_build settled registered built
  cases found.symm.trans found'
  have whole : Body p body := body_of_slot tidy placed.1 (by simp [fnDef, NodeKind.slots])
  have start : Ready p none [.run (p.children body)] :=
    .run whole.stands (fun _ last => by cases last) .nil
  obtain ⟨n, reads⟩ := reads_iff.mpr ⟨rest, path, read⟩
  have emits := emits_of_reads known tail reads
  obtain ⟨inner', turns, fresh⟩ :=
    start.fresh_of_emits tidy (Surface.conditioned_of_lowered lowered) whole emits rfl
  cases turns with
  | @loop loop' _ _ _ reached' kind' =>
    have forest := tidy.sound.forest
    have live := tidy.sound.live_of_reached reached
    have live' := tidy.sound.live_of_reached reached'
    obtain rfl : loop = loop' := forest.child_unique live live'
      (by simp [Program.children, kind, NodeKind.children] : test ∈ p.children loop)
      (by simp [Program.children, kind', NodeKind.children])
    cases kind.symm.trans kind'
    obtain ⟨d, last, computes⟩ := fresh test rfl never
    rw [show (earlier.getLast? <|> none) = earlier.getLast? by cases earlier.getLast? <;> rfl,
      List.getLast?_eq_some_iff] at last
    obtain ⟨before, rfl⟩ := last
    exact ⟨before, d, rfl, computes⟩

/-- Through a `continue` a test comes right after a branch, and its condition is stale. -/
example : ((Graph.build Surface.jumpingProgram ⟨1⟩).toOption.map fun g =>
    ((g.block 3).succ, (g.block 7).succ, (g.itemsOf [3, 7, 2]).map Item.word)) =
    some ([5, 7], [2], ["stmt", "branch", "loop_test"]) := by
  decide +kernel

end MiddleEnd.Flow
