import MiddleEnd.Proofs.Flow.Liveness

namespace MiddleEnd.Flow

/-- What items mean. Each has a result, a choice between the blocks that come next, and an effect on
the outside world; all three depend on the values that it reads and on the outside world. -/
structure Meaning (Val World : Type) where
  /-- The value of a symbol that is a part of the outside world. -/
  look : World → SymbolId → Val
  result : Item → List Val → World → Val
  choice : Item → List Val → World → Nat
  effect : Item → List Val → World → World

/-- A moment of a run: the block, the items in it that are left, the values of the symbols that are
no part of the outside world, that world, and what the last test has chosen. -/
structure Moment (Val World : Type) where
  block : Nat
  rest : List Item
  locals : SymbolId → Val
  world : World
  choice : Nat

/-- What can be seen of a step: an item is executed, or a block is entered. -/
inductive Event where
  | item (item : Item)
  | enter (block : Nat)
  deriving DecidableEq, Repr

/-- The symbols that are read, in order. -/
def readSymbols (sequence : List Access) : List SymbolId :=
  sequence.filterMap fun
    | .read sym => some sym
    | .write _ => none

/-- Where a block leads on. Only where there are several ways does the choice count. -/
def follow (succ : List Nat) (choice : Nat) : Option Nat :=
  match succ with
  | [next] => some next
  | succ => succ[choice]?

section

variable {p : Program} {item : Item} {x : SymbolId}

/-- An expression only reads. -/
theorem reads_eq (p : Program) (root : NodeId) :
    ∃ first : List SymbolId, reads p root = first.map .read := by
  refine ⟨(p.collectOwn .symRef root).filterMap fun id => (p.kind id).symRef?, ?_⟩
  rw [List.map_filterMap]
  rfl

theorem write_not_mem_reads {root : NodeId} : .write x ∉ reads p root := by
  obtain ⟨first, eq⟩ := reads_eq p root
  simp [eq]

/-- Items read first, and write one symbol at most. -/
theorem accesses_eq (p : Program) (item : Item) : ∃ first last : List SymbolId,
    accesses p item = first.map .read ++ last.map .write ∧ last.length ≤ 1 := by
  have alone (root : NodeId) : ∃ first last : List SymbolId,
      reads p root = first.map .read ++ last.map .write ∧ last.length ≤ 1 := by
    obtain ⟨first, eq⟩ := reads_eq p root
    exact ⟨first, [], by simpa using eq, Nat.zero_le 1⟩
  cases item with
  | branch test | loopTest test => exact alone test
  | forHeader id =>
    rw [accesses]
    split
    · rename_i index iterable _ _
      obtain ⟨first, eq⟩ := reads_eq p iterable
      refine ⟨first, (p.kind index).defines?.toList, ?_, by cases (p.kind index).defines? <;> simp⟩
      rw [eq]
      cases (p.kind index).defines? <;> rfl
    · exact ⟨[], [], rfl, Nat.zero_le 1⟩
  | stmt id =>
    rw [accesses]
    split
    · rename_i target value _
      obtain ⟨first, eq⟩ := reads_eq p value
      split
      · rename_i sym _
        exact ⟨first, [sym], by rw [eq]; rfl, Nat.le_refl 1⟩
      · obtain ⟨more, eqTarget⟩ := reads_eq p target
        exact ⟨first ++ more, [], by simp [eq, eqTarget], Nat.zero_le 1⟩
    · rename_i sym value _
      obtain ⟨first, eq⟩ := reads_eq p value
      exact ⟨first, [sym], by rw [eq]; rfl, Nat.le_refl 1⟩
    · exact ⟨[], [], rfl, Nat.zero_le 1⟩
    · exact alone id

theorem mem_readSymbols {sequence : List Access} : x ∈ readSymbols sequence ↔ .read x ∈ sequence := by
  rw [readSymbols, List.mem_filterMap]
  constructor
  · rintro ⟨access, member, same⟩
    cases access with
    | read y =>
      cases same
      exact member
    | write y => cases same
  · exact fun member => ⟨_, member, rfl⟩

/-- What an item reads, it needs from before. -/
theorem readFirst_accesses (member : .read x ∈ accesses p item) : ReadFirst x (accesses p item) := by
  obtain ⟨first, last, eq, _⟩ := accesses_eq p item
  rw [eq] at member ⊢
  have listed : .read x ∈ first.map Access.read := by simpa using member
  obtain ⟨earlier, later, split⟩ := List.append_of_mem listed
  refine ⟨earlier, later ++ last.map .write, by simp [split], fun written => ?_⟩
  have isRead : .write x ∈ first.map Access.read := split ▸ List.mem_append_left _ written
  simp at isRead

end

theorem mem_of_follow {succ : List Nat} {choice next : Nat} (found : follow succ choice = some next) :
    next ∈ succ := by
  unfold follow at found
  split at found
  · exact List.mem_singleton.mpr (Option.some.inj found).symm
  · exact List.mem_of_getElem? found

namespace Moment

variable {Val World : Type}

/-- The first moment of a run. -/
def start (g : Graph) (locals : SymbolId → Val) (world : World) (choice : Nat) : Moment Val World :=
  { block := 0, rest := (g.block 0).items, locals := locals, world := world, choice := choice }

section

-- The symbols in `own` are no part of the outside world.
variable (own : SymbolId → Bool) (I : Meaning Val World) (p : Program) (g : Graph)

def value (m : Moment Val World) (x : SymbolId) : Val := if own x then m.locals x else I.look m.world x

/-- After an item, with `rest` left in the block. -/
def execute (m : Moment Val World) (item : Item) (rest : List Item) : Moment Val World :=
  let values := (readSymbols (accesses p item)).map (m.value own I)
  { block := m.block
    rest := rest
    locals := fun x =>
      if .write x ∈ accesses p item then I.result item values m.world else m.locals x
    world := I.effect item values m.world
    choice :=
      match item with
      | .stmt _ => m.choice
      | _ => I.choice item values m.world }

def enter (m : Moment Val World) (next : Nat) : Moment Val World :=
  { m with block := next, rest := (g.block next).items }

/-- The next step; nothing when the run is over. -/
def step (m : Moment Val World) : Option (Event × Moment Val World) :=
  match m.rest with
  | item :: rest => some (.item item, m.execute own I p item rest)
  | [] => (follow (g.block m.block).succ m.choice).map fun next => (.enter next, m.enter g next)

/-- What can be seen of as many steps, or of fewer when the run is over, and the moment after them. -/
def run : Nat → Moment Val World → List Event × Moment Val World
  | 0, m => ([], m)
  | n + 1, m =>
    match m.step own I p g with
    | none => ([], m)
    | some (event, next) =>
      let (events, last) := run n next
      (event :: events, last)

end

variable {own : SymbolId → Bool} {I : Meaning Val World} {p : Program} {g : Graph}
  {m m' last : Moment Val World} {event : Event} {events : List Event}

@[simp] theorem block_execute (item : Item) (rest : List Item) :
    (m.execute own I p item rest).block = m.block := rfl

@[simp] theorem rest_execute (item : Item) (rest : List Item) :
    (m.execute own I p item rest).rest = rest := rfl

theorem step_of_cons {item : Item} {rest : List Item} (next : m.rest = item :: rest) :
    m.step own I p g = some (.item item, m.execute own I p item rest) := by
  rw [step, next]

theorem step_of_nil (ends : m.rest = []) : m.step own I p g =
    (follow (g.block m.block).succ m.choice).map fun next => (.enter next, m.enter g next) := by
  rw [step, ends]

theorem run_of_step {n : Nat} (step : m.step own I p g = some (event, m'))
    (run : m'.run own I p g n = (events, last)) : m.run own I p g (n + 1) = (event :: events, last) := by
  rw [Moment.run, step]
  dsimp only
  rw [run]

theorem run_of_ended (n : Nat) (ended : m.step own I p g = none) : m.run own I p g n = ([], m) := by
  cases n with
  | zero => rfl
  | succ n => rw [Moment.run, ended]

theorem run_add {n k : Nat} {more : List Event} {middle : Moment Val World}
    (first : m.run own I p g n = (events, middle)) (second : middle.run own I p g k = (more, last)) :
    ∃ j, m.run own I p g j = (events ++ more, last) := by
  induction n generalizing m events with
  | zero =>
    cases first
    exact ⟨k, second⟩
  | succ n ih =>
    cases step : m.step own I p g with
    | none =>
      rw [run_of_ended _ step] at first
      cases first
      exact ⟨k, second⟩
    | some taken =>
      obtain ⟨event, next⟩ := taken
      rw [Moment.run, step] at first
      cases first
      obtain ⟨j, run⟩ := ih rfl
      exact ⟨j + 1, run_of_step step run⟩

end Moment

end MiddleEnd.Flow
