import MiddleEnd.Proofs.Check.Tally
import MiddleEnd.Proofs.Flow.Machine

/-! Where the rule for missing returns is silent, every run that comes to the end of a body has
defined the return value. Functions with a `goto` are left out: the rule also counts what a `goto`
jumps over.

What is left to run owes what its statements count. In a loop they count only if no turn of it ends
early. A step of a run pays no more than its item defines. -/

namespace MiddleEnd

namespace Flow

/-- `Comes p body place items stop`: a run of `body` can come from a place to another, through these
items. -/
inductive Comes (p : Program) (body : NodeId) : Place → List Item → Place → Prop
  | here {place : Place} : Comes p body place [] place
  | silent {place next stop : Place} {items : List Item} : Step p body place none next →
      Comes p body next items stop → Comes p body place items stop
  | item {place next stop : Place} {item : Item} {items : List Item} :
      Step p body place (some item) next → Comes p body next items stop →
      Comes p body place (item :: items) stop

namespace Place

/-- The body of the innermost loop. -/
def around : Place → Option NodeId
  | [] => none
  | .run _ :: rest => around rest
  | .turn _ body :: _ => some body

theorem leave_of_outside {place : Place} (outside : place.around = none) :
    place.leave = [] ∧ place.again = [] := by
  induction place with
  | nil => exact ⟨rfl, rfl⟩
  | cons frame rest ih =>
    cases frame with
    | run stmts => exact ih outside
    | turn item body => cases outside

end Place

end Flow

open MiddleEnd.Flow Program

namespace Check

variable {p : Program} {retVar : Option SymbolId} {body n c : NodeId}

/-- The statement defines the return value of a function, or the function does not get past it. -/
inductive Defines (p : Program) (retVar : Option SymbolId) (n : NodeId) : Prop
  | ret {value : NodeId} (kind : p.kind n = .ret (some value))
  | assign {target value : NodeId} {v : SymbolId} (kind : p.kind n = .assign target value)
      (aims : p.kind target = .symRef v) (isRet : retVar = some v)
  | define {v : SymbolId} {value : NodeId} (kind : p.kind n = .define v (some value))
      (isRet : retVar = some v)
  | halt {args : List NodeId} (kind : p.kind n = .prim .halt args)
  | call {g : SymbolId} {name : String} {args : List NodeId}
      (kind : p.kind n = .call (some g) name args)
      (terminates : p.hasFlag g .terminatesProgram = true)

theorem defines_of_counted (counts : definitions p retVar 1 n ≠ 0) : Defines p retVar n := by
  rw [definitions] at counts
  cases kind : p.kind n with
  | assign target value =>
    simp only [kind] at counts
    split at counts
    · rename_i aims
      exact .assign kind aims (by simpa [eq_comm] using counts)
    · exact absurd rfl counts
  | define v value =>
    cases value with
    | none => simp [kind] at counts
    | some value => exact .define kind (by simpa [kind, eq_comm] using counts)
  | ret value =>
    cases value with
    | none => simp [kind] at counts
    | some value => exact .ret kind
  | prim op args =>
    cases op with
    | halt => exact .halt kind
    | _ => simp [kind] at counts
  | call callee name args =>
    cases callee with
    | none => simp [kind] at counts
    | some g => exact .call kind (by simpa [kind] using counts)
  | loop test inner testFirst => cases testFirst <;> simp [kind, definitions] at counts
  | _ => simp [kind, definitions] at counts

/-- What an item of a run defines. -/
def counted (p : Program) (retVar : Option SymbolId) : Item → Nat
  | .stmt n => definitions p retVar 1 n
  | _ => 0

/-- What a statement counts with all that stands inside. -/
def whole (p : Program) (retVar : Option SymbolId) (n : NodeId) : Tally :=
  tally p retVar (p.nodes.size + 1) n

/-- What counts of what stands at a place: nothing in a loop with a jump inside. -/
def share (p : Program) (retVar : Option SymbolId) (after : Place) (count : Nat) : Nat :=
  if after.around.any fun inner => (whole p retVar inner).exits then 0 else count

/-- What a place owes: what the statements count that are left to run. -/
def owed (p : Program) (retVar : Option SymbolId) : Place → Nat
  | [] => 0
  | .run stmts :: after =>
    share p retVar after (Tally.sum (whole p retVar) stmts).count + owed p retVar after
  | .turn _ _ :: after => owed p retVar after

/-- What is left to run are statements of the body, and in a loop a jump among them is one in the
loop. -/
inductive Kept (p : Program) (retVar : Option SymbolId) (body : NodeId) : Place → Prop
  | nil : Kept p retVar body []
  | run {stmts : List NodeId} {after : Place} : (∀ s ∈ stmts, p.Statement body s) →
      (∀ inner, after.around = some inner → (Tally.sum (whole p retVar) stmts).exits = true →
        (whole p retVar inner).exits = true) →
      Kept p retVar body after → Kept p retVar body (.run stmts :: after)
  | turn {item : Item} {inner loop : NodeId} {after : Place} : p.Statement body loop →
      inner ∈ (p.kind loop).bodies → Kept p retVar body after →
      Kept p retVar body (.turn item inner :: after)

theorem exits_of_jump (jump : (p.kind n).isExit = true) : (whole p retVar n).exits = true := by
  rw [whole, exits_tally, jump, Bool.true_or]

section

variable (tidy : p.Tidy)

include tidy

/-- The depth of the count does not matter, if it suffices. -/
theorem tally_eq_whole {depth : Nat} (live : p.Live n)
    (room : p.nodes.size - (p.path n).length < depth) :
    tally p retVar depth n = whole p retVar n := by
  have room' : p.nodes.size - (p.path n).length < p.nodes.size + 1 := by omega
  cases fn : (p.kind n).isFnDef with
  | true => rw [whole, tally_of_fnDef _ fn, tally_of_fnDef _ fn]
  | false =>
    refine Tally.ext ?_ ?_
    · exact (definitions_eq_tally tidy _ depth live room' room).symm.trans
        (definitions_eq_tally tidy _ _ live room' room')
    · rw [Bool.eq_iff_iff, exits_iff tidy depth live fn room, whole, exits_iff tidy _ live fn room']

/-- What the statement counts, by its kind. -/
theorem whole_eq (live : p.Live n) : whole p retVar n =
    match p.kind n with
    | .block stmts => .sum (whole p retVar) stmts
    | .cond _ thenBlock elseBlock =>
      (whole p retVar thenBlock).branch ((elseBlock.map (whole p retVar)).getD .zero)
    | .loop _ inner testFirst => (whole p retVar inner).turn testFirst
    | .forLoop _ _ inner => (whole p retVar inner).turn true
    | _ => leaf p retVar n := by
  have below {c : NodeId} (child : c ∈ (p.kind n).children) :
      tally p retVar p.nodes.size c = whole p retVar c := by
    have closer := tidy.sound.forest.room_child live child
    exact tally_eq_whole tidy (tidy.sound.forest.child_live live child) (by omega)
  rw [whole, tally]
  cases kind : p.kind n with
  | block stmts =>
    rw [kind] at below
    exact Tally.sum_congr fun s member => below member
  | cond test thenBlock elseBlock =>
    rw [kind] at below
    have first := below (c := thenBlock) (by simp [NodeKind.children])
    cases elseBlock with
    | none => simp [first]
    | some elseBlock => simp [first, below (c := elseBlock) (by simp [NodeKind.children])]
  | loop test inner | forLoop index iterable inner =>
    rw [kind] at below
    simp [below (c := inner) (by simp [NodeKind.children])]
  | _ => rfl

theorem sum_children (live : p.Live n) (isBlock : (p.kind n).isBlock = true) :
    Tally.sum (whole p retVar) (p.children n) = whole p retVar n := by
  rw [whole_eq tidy live, children]
  cases kind : p.kind n <;> simp [kind, NodeKind.isBlock] at isBlock
  rfl

theorem exits_of_body (live : p.Live n) (member : c ∈ (p.kind n).bodies)
    (exits : (whole p retVar c).exits = true) : (whole p retVar n).exits = true := by
  have child := NodeKind.child_of_body member
  have closer := tidy.sound.forest.room_child live child
  have inner : c ∈ (p.kind n).inner := by
    cases kind : p.kind n <;> simp_all [NodeKind.inner, NodeKind.bodies]
  rw [whole, exits_tally, Bool.or_eq_true, List.any_eq_true]
  refine .inr ⟨c, inner, ?_⟩
  rwa [tally_eq_whole tidy (tidy.sound.forest.child_live live child) (by omega)]

theorem isBlock_of_body (live : p.Live n) (member : c ∈ (p.kind n).bodies) :
    (p.kind c).isBlock = true := by
  have slot : (Slot.block, c) ∈ (p.kind n).slots := by
    cases kind : p.kind n <;> simp [kind, NodeKind.bodies, NodeKind.slots] at member ⊢ <;> grind
  exact (tidy.lawful live).fits slot

end

/-! Places. -/

section

variable {id : NodeId} {rest stmts : List NodeId} {after place next : Place} {count more : Nat}

theorem share_le : share p retVar after count ≤ count := by
  rw [share]
  split <;> omega

theorem share_add :
    share p retVar after (count + more) = share p retVar after count + share p retVar after more := by
  rw [share, share, share]
  split <;> omega

theorem share_mono (less : count ≤ more) :
    share p retVar after count ≤ share p retVar after more := by
  rw [share, share]
  split <;> omega

theorem owed_cons : owed p retVar (.run (id :: rest) :: after) =
    share p retVar after (whole p retVar id).count + owed p retVar (.run rest :: after) := by
  rw [owed, owed, Tally.sum_cons, Tally.add, share_add, Nat.add_assoc]

/-- What stands in a loop with a jump inside owes nothing. -/
theorem owed_of_exits {inner : NodeId} (around : Place.around place = some inner)
    (exits : (whole p retVar inner).exits = true) :
    owed p retVar place = owed p retVar place.leave ∧
      owed p retVar place = owed p retVar place.again := by
  induction place with
  | nil => cases around
  | cons frame rest ih =>
    cases frame with
    | run stmts =>
      have around : Place.around rest = some inner := around
      have nothing : share p retVar rest (Tally.sum (whole p retVar) stmts).count = 0 := by
        rw [share, around, Option.any_some, exits, if_pos rfl]
      rw [owed, nothing, Nat.zero_add]
      exact ih around
    | turn item body => exact ⟨rfl, rfl⟩

namespace Kept

theorem advance (kept : Kept p retVar body (.run (id :: rest) :: after)) :
    Kept p retVar body (.run rest :: after) := by
  cases kept with
  | run stands jumps kept =>
    refine .run (fun s member => stands s (List.mem_cons_of_mem _ member))
      (fun inner around exits => ?_) kept
    exact jumps inner around (by rw [Tally.sum_cons, Tally.add, exits, Bool.or_true])

theorem stands (kept : Kept p retVar body (.run (id :: rest) :: after)) : p.Statement body id := by
  cases kept with
  | run stands _ _ => exact stands id List.mem_cons_self

/-- The statement is done. -/
theorem pass (kept : Kept p retVar body (.run (id :: rest) :: after)) {paid : Nat}
    (pays : (whole p retVar id).count ≤ paid) : Kept p retVar body (.run rest :: after) ∧
      owed p retVar (.run (id :: rest) :: after) ≤ paid + owed p retVar (.run rest :: after) := by
  refine ⟨kept.advance, ?_⟩
  rw [owed_cons]
  exact Nat.add_le_add_right (share_le.trans pays) _

theorem leave (kept : Kept p retVar body place) :
    Kept p retVar body place.leave ∧ Kept p retVar body place.again := by
  induction kept with
  | nil => exact ⟨.nil, .nil⟩
  | run _ _ _ ih => exact ih
  | turn stands inner kept _ => exact ⟨kept, .turn stands inner kept⟩

/-- A jump is one of the loop around. -/
theorem exits_around {inner : NodeId} (kept : Kept p retVar body (.run (id :: rest) :: after))
    (jump : (p.kind id).isExit = true) (around : after.around = some inner) :
    (whole p retVar inner).exits = true := by
  cases kept with
  | run _ jumps _ =>
    refine jumps inner around ?_
    rw [Tally.sum_cons, Tally.add, exits_of_jump jump, Bool.true_or]

/-- A jump out of a turn pays nothing for what it leaves out. -/
theorem jump (kept : Kept p retVar body (.run (id :: rest) :: after))
    (jump : (p.kind id).isExit = true) (goesOn : next ≠ [])
    (target : next = after.leave ∨ next = after.again) :
    Kept p retVar body next ∧ owed p retVar (.run (id :: rest) :: after) ≤ owed p retVar next := by
  have stays : Kept p retVar body after := by
    cases kept with
    | run _ _ kept => exact kept
  cases around : after.around with
  | none =>
    obtain ⟨leave, again⟩ := Place.leave_of_outside around
    rcases target with rfl | rfl
    · exact absurd leave goesOn
    · exact absurd again goesOn
  | some inner =>
    have here : Place.around (.run (id :: rest) :: after) = some inner := around
    obtain ⟨leave, again⟩ := owed_of_exits here (kept.exits_around jump around)
    rcases target with rfl | rfl
    · exact ⟨stays.leave.1, leave.le⟩
    · exact ⟨stays.leave.2, again.le⟩

end Kept

section

variable (tidy : p.Tidy)

include tidy

/-- What a block owes that is left to run as a whole. -/
theorem owed_children (liveC : p.Live c) (isBlock : (p.kind c).isBlock = true) :
    owed p retVar (.run (p.children c) :: place) =
      share p retVar place (whole p retVar c).count + owed p retVar place := by
  rw [owed, sum_children tidy liveC isBlock]

theorem Kept.enter (kept : Kept p retVar body (.run (id :: rest) :: after))
    (stands : ∀ s ∈ p.children c, p.Statement body s) (liveC : p.Live c)
    (isBlock : (p.kind c).isBlock = true)
    (exits : (whole p retVar c).exits = true → (whole p retVar id).exits = true) :
    Kept p retVar body (.run (p.children c) :: .run rest :: after) := by
  refine .run stands (fun inner around jumps => ?_) kept.advance
  rw [sum_children tidy liveC isBlock] at jumps
  cases kept with
  | run _ kept _ =>
    refine kept inner around ?_
    rw [Tally.sum_cons, Tally.add, exits jumps, Bool.true_or]

end

section

variable (tidy : p.Tidy) (live : p.Live body)

include tidy live

/-- A block in a statement is a block, and lives. -/
theorem body_of_statement (stands : p.Statement body id) (member : c ∈ (p.kind id).bodies) :
    p.Live c ∧ (p.kind c).isBlock = true := by
  have liveId := tidy.sound.forest.live_of_statement live stands
  exact ⟨tidy.sound.forest.child_live liveId (NodeKind.child_of_body member),
    isBlock_of_body tidy liveId member⟩

namespace Kept

theorem enterTurn {item : Item} {inner : NodeId}
    (kept : Kept p retVar body (.turn item inner :: after)) :
    Kept p retVar body (.run (p.children inner) :: .turn item inner :: after) := by
  cases id kept with
  | turn stands member _ =>
    obtain ⟨liveInner, isBlock⟩ := body_of_statement tidy live stands member
    refine .run (fun s child => .inside stands member child) (fun inner around exits => ?_) kept
    cases around
    rwa [sum_children tidy liveInner isBlock] at exits

/-- The run goes into a block that counts as much as the statement, or more. -/
theorem enterBranch (kept : Kept p retVar body (.run (id :: rest) :: after))
    (member : c ∈ (p.kind id).bodies)
    (least : (whole p retVar id).count ≤ (whole p retVar c).count) :
    Kept p retVar body (.run (p.children c) :: .run rest :: after) ∧
      owed p retVar (.run (id :: rest) :: after) ≤
        owed p retVar (.run (p.children c) :: .run rest :: after) := by
  have liveId := tidy.sound.forest.live_of_statement live kept.stands
  obtain ⟨liveC, isBlock⟩ := body_of_statement tidy live kept.stands member
  refine ⟨kept.enter tidy (fun _ child => .inside kept.stands member child) liveC isBlock
    (exits_of_body tidy liveId member), ?_⟩
  rw [owed_cons, owed_children tidy liveC isBlock]
  exact Nat.add_le_add_right (share_mono least) _

/-- The run comes to a loop that is left without a turn. -/
theorem enterHeaded {item : Item} {inner : NodeId}
    (kept : Kept p retVar body (.run (id :: rest) :: after)) (head : Headed p id item inner) :
    Kept p retVar body (.turn item inner :: .run rest :: after) ∧
      owed p retVar (.run (id :: rest) :: after) ≤
        owed p retVar (.turn item inner :: .run rest :: after) := by
  have liveId := tidy.sound.forest.live_of_statement live kept.stands
  have nothing : (whole p retVar id).count = 0 := by
    rw [whole_eq tidy liveId]
    cases head with
    | loop kind | forLoop kind =>
      rw [kind]
      rfl
  have member : inner ∈ (p.kind id).bodies := by
    cases head with
    | loop kind | forLoop kind => simp [kind, NodeKind.bodies]
  obtain ⟨advances, pays⟩ := kept.pass nothing.le
  exact ⟨.turn kept.stands member advances, by rwa [Nat.zero_add] at pays⟩

/-- The run goes into a loop that is left after a turn. -/
theorem enterTested {test inner : NodeId} (kept : Kept p retVar body (.run (id :: rest) :: after))
    (kind : p.kind id = .loop test inner false) :
    Kept p retVar body (.run (p.children inner) :: .turn (.loopTest test) inner :: .run rest :: after) ∧
      owed p retVar (.run (id :: rest) :: after) ≤
        owed p retVar (.run (p.children inner) :: .turn (.loopTest test) inner :: .run rest :: after) := by
  have liveId := tidy.sound.forest.live_of_statement live kept.stands
  have member : inner ∈ (p.kind id).bodies := by simp [kind, NodeKind.bodies]
  obtain ⟨liveInner, isBlock⟩ := body_of_statement tidy live kept.stands member
  have turn : Kept p retVar body (.turn (.loopTest test) inner :: .run rest :: after) :=
    .turn kept.stands member kept.advance
  refine ⟨turn.enterTurn tidy live, ?_⟩
  have counts : (whole p retVar id).count =
      share p retVar (.turn (.loopTest test) inner :: .run rest :: after) (whole p retVar inner).count := by
    rw [whole_eq tidy liveId, kind]
    rfl
  rw [owed_cons, owed_children tidy liveInner isBlock, ← counts]
  exact Nat.add_le_add_right share_le _

/-- A step pays no more than its item defines, unless it ends the run. -/
theorem step {item : Option Item} (kept : Kept p retVar body place)
    (jumpless : ∀ n, p.Statement body n → (p.kind n).tag ≠ .goto)
    (step : Step p body place item next) (goesOn : next ≠ []) :
    Kept p retVar body next ∧
      owed p retVar place ≤ (item.toList.map (counted p retVar)).sum + owed p retVar next := by
  have liveOf {id : NodeId} (stands : p.Statement body id) : p.Live id :=
    tidy.sound.forest.live_of_statement live stands
  cases step with
  | done =>
    cases kept with
    | run _ _ kept => exact ⟨kept, by simp [owed, share, Tally.sum, Tally.zero]⟩
  | @block id _ _ _ kind =>
    have isBlock : (p.kind id).isBlock = true := by rw [kind]; rfl
    have liveId := liveOf kept.stands
    refine ⟨kept.enter tidy (fun _ child => .nested kept.stands isBlock child) liveId isBlock
      fun exits => exits, ?_⟩
    rw [owed_cons, owed_children tidy liveId isBlock]
    exact Nat.le_add_left ..
  | @taken id test thenBlock elseBlock _ _ kind =>
    have least : (whole p retVar id).count ≤ (whole p retVar thenBlock).count := by
      rw [whole_eq tidy (liveOf kept.stands), kind]
      exact Nat.min_le_left ..
    obtain ⟨enters, pays⟩ := kept.enterBranch tidy live (by simp [kind, NodeKind.bodies]) least
    exact ⟨enters, by simpa [counted] using pays⟩
  | @other id test thenBlock elseBlock _ _ kind =>
    have least : (whole p retVar id).count ≤ (whole p retVar elseBlock).count := by
      rw [whole_eq tidy (liveOf kept.stands), kind]
      exact Nat.min_le_right ..
    obtain ⟨enters, pays⟩ := kept.enterBranch tidy live (by simp [kind, NodeKind.bodies]) least
    exact ⟨enters, by simpa [counted] using pays⟩
  | skipped kind =>
    refine kept.pass ?_
    rw [whole_eq tidy (liveOf kept.stands), kind]
    exact Nat.min_le_right ..
  | headed head =>
    obtain ⟨enters, pays⟩ := kept.enterHeaded tidy live head
    exact ⟨enters, by simpa using pays⟩
  | tested kind =>
    obtain ⟨enters, pays⟩ := kept.enterTested tidy live kind
    exact ⟨enters, by simpa using pays⟩
  | turn => exact ⟨kept.enterTurn tidy live, by rw [owed]; omega⟩
  | exit =>
    cases kept with
    | turn _ _ kept => exact ⟨kept, by rw [owed]; omega⟩
  | ret => exact absurd rfl goesOn
  | brk kind =>
    obtain ⟨stays, less⟩ := kept.jump (by rw [kind]; rfl) goesOn (.inl rfl)
    exact ⟨stays, by simpa using less⟩
  | cont kind =>
    obtain ⟨stays, less⟩ := kept.jump (by rw [kind]; rfl) goesOn (.inr rfl)
    exact ⟨stays, by simpa using less⟩
  | label kind =>
    refine kept.pass ?_
    rw [whole_eq tidy (liveOf kept.stands), kind]
    simp [leaf, definitions, kind]
  | goto kind => exact absurd (by rw [kind]; rfl) (jumpless _ kept.stands)
  | fnDef fn =>
    refine kept.pass ?_
    rw [whole, tally_of_fnDef _ fn]
    exact Nat.le_refl 0
  | simple simple =>
    refine kept.pass ?_
    rw [whole_eq tidy (liveOf kept.stands)]
    cases kind : p.kind _ <;> simp [kind, NodeKind.isSimple] at simple <;> simp [leaf, counted]

end Kept

/-- A run to the end of the body defines the return value as often as the rule has counted. -/
theorem owed_le_of_comes {items : List Item}
    (jumpless : ∀ n, p.Statement body n → (p.kind n).tag ≠ .goto)
    (comes : Comes p body place items [.run []]) (kept : Kept p retVar body place) :
    owed p retVar place ≤ (items.map (counted p retVar)).sum := by
  generalize isEnd : ([.run []] : Place) = stop at comes
  have goesOn {next : Place} {items : List Item} (comes : Comes p body next items [.run []]) :
      next ≠ [] := by
    rintro rfl
    cases comes with
    | silent step | item step => cases step
  induction comes with
  | here =>
    cases isEnd
    exact Nat.le_refl 0
  | silent step onward ih =>
    subst isEnd
    obtain ⟨keeps, pays⟩ := kept.step tidy live jumpless step (goesOn onward)
    have rest := ih keeps rfl
    rw [Option.toList_none, List.map_nil, List.sum_nil, Nat.zero_add] at pays
    exact pays.trans rest
  | item step onward ih =>
    subst isEnd
    obtain ⟨keeps, pays⟩ := kept.step tidy live jumpless step (goesOn onward)
    have rest := ih keeps rfl
    simp only [Option.toList_some, List.map_cons, List.map_nil, List.sum_cons, List.sum_nil] at pays ⊢
    omega

end

end

/-- Where the rule for missing returns is silent about a function that is to return a value, every
run that comes to the end of its body has defined that value, if no statement is a `goto`. -/
theorem defines_of_silent {f : SymbolId} (tidy : p.Tidy) (registered : f ∈ p.registries.fns)
    (value : (p.symbol f).ty.isVoid = false) (plain : (p.symbol f).hasFlag .iterator = false)
    (own : (p.symbol f).hasFlag .external = false) (silent : missesReturn p f = false)
    (found : p.fnBody? f = some body)
    (jumpless : ∀ n, p.Statement body n → (p.kind n).tag ≠ .goto)
    {items : List Item} (comes : Comes p body [.run (p.children body)] items [.run []]) :
    ∃ n, .stmt n ∈ items ∧ Defines p (retVar? p f) n := by
  obtain ⟨d, placed⟩ := tidy.placed_of_registered registered
  obtain ⟨_, formals, inner, kind, found'⟩ := tidy.fnBody?_eq placed
  obtain rfl : inner = body := Option.some.inj (found'.symm.trans found)
  have liveD := tidy.sound.live_of_reached placed.1
  have live : p.Live inner :=
    tidy.sound.forest.child_live liveD (by simp [children, kind, NodeKind.children])
  have isBlock : p.Fits inner .block :=
    (tidy.lawful liveD).fits (by simp [kind, NodeKind.slots])
  have start : Kept p (retVar? p f) inner [.run (p.children inner)] :=
    .run (fun s child => .top child) (fun inner around => by cases around) .nil
  have covered : definedOnAllPaths p f ≠ 0 := by
    intro nothing
    rw [missesReturn] at silent
    simp [value, plain, own, nothing] at silent
  have pays := owed_le_of_comes tidy live jumpless comes start
  have owes : owed p (retVar? p f) [.run (p.children inner)] = definedOnAllPaths p f := by
    rw [owed_children tidy live isBlock, definedOnAllPaths_eq tidy found live _ (Nat.lt_succ_self _)]
    rfl
  obtain ⟨item, member, counts⟩ : ∃ item ∈ items, counted p (retVar? p f) item ≠ 0 := by
    by_contra none
    refine covered (owes ▸ Nat.le_zero.mp (pays.trans_eq (List.sum_eq_zero fun count listed => ?_)))
    obtain ⟨item, member, rfl⟩ := List.mem_map.mp listed
    by_contra counts
    exact none ⟨item, member, counts⟩
  cases item with
  | stmt n => exact ⟨n, member, defines_of_counted counts⟩
  | _ => exact absurd rfl counts

end Check

end MiddleEnd
