import MiddleEnd.Proofs.Closure.Nesting
import MiddleEnd.Proofs.Flow.Layout
import MiddleEnd.Proofs.Surface.Lowering

namespace MiddleEnd.Flow

/-! Reading a graph. -/

/-- `Reads blocks n spot items`: from a spot on, items can be read along edges, in `n` steps. -/
inductive Reads (blocks : Array Block) : Nat → Spot → List Item → Prop
  | stop {spot : Spot} : Reads blocks 0 spot []
  | item {n : Nat} {spot : Spot} {item : Item} {items : List Item} : Shows blocks spot item →
      Reads blocks n (spot.1, spot.2 + 1) items → Reads blocks (n + 1) spot (item :: items)
  | edge {n : Nat} {spot : Spot} {next : Nat} {items : List Item} :
      spot.2 = (itemsAt blocks spot.1).length → next ∈ succAt blocks spot.1 →
      Reads blocks n (next, 0) items → Reads blocks (n + 1) spot items

section

variable {g : Graph} {spot : Spot} {items : List Item} {n : Nat}

theorem drop_of_shows {blocks : Array Block} {item : Item} (shows : Shows blocks spot item) :
    (itemsAt blocks spot.1).drop spot.2 = item :: (itemsAt blocks spot.1).drop (spot.2 + 1) := by
  rw [List.drop_eq_getElem?_toList_append, shows]
  rfl

/-- What can be read from a spot on is a part of what stands along a path. -/
theorem path_of_reads (reads : Reads g.blocks n spot items) :
    ∃ rest, g.Path spot.1 rest ∧
      items <+: (itemsAt g.blocks spot.1).drop spot.2 ++ g.itemsOf rest := by
  induction reads with
  | stop => exact ⟨[], .nil, List.nil_prefix⟩
  | item shows _ ih =>
    obtain ⟨rest, path, read⟩ := ih
    refine ⟨rest, path, ?_⟩
    rw [drop_of_shows shows, List.cons_append]
    exact List.cons_prefix_cons.mpr ⟨rfl, read⟩
  | @edge _ spot next _ ends edge _ ih =>
    obtain ⟨rest, path, read⟩ := ih
    refine ⟨next :: rest, .cons edge path, ?_⟩
    rw [ends, List.drop_length]
    exact read

/-- From one spot of a block on to its end, and from there as before. -/
theorem reads_through {b k : Nat} {ahead later : List Item}
    (here : (itemsAt g.blocks b).drop k = ahead) (within : k ≤ (itemsAt g.blocks b).length)
    (after : ∀ items, items <+: later → ∃ n, Reads g.blocks n (b, (itemsAt g.blocks b).length) items)
    (read : items <+: ahead ++ later) : ∃ n, Reads g.blocks n (b, k) items := by
  induction ahead generalizing k items with
  | nil =>
    have whole := List.drop_eq_nil_iff.mp here
    obtain rfl : k = (itemsAt g.blocks b).length := by omega
    exact after items read
  | cons item ahead ih =>
    rw [List.cons_append, List.prefix_cons_iff] at read
    obtain rfl | ⟨rest, rfl, read⟩ := read
    · exact ⟨0, .stop⟩
    · have inside : k < (itemsAt g.blocks b).length := by
        by_contra beyond
        rw [List.drop_eq_nil_iff.mpr (Nat.le_of_not_lt beyond)] at here
        cases here
      rw [List.drop_eq_getElem_cons inside, List.cons.injEq] at here
      obtain ⟨n, reads⟩ := ih here.2 inside read
      refine ⟨n + 1, .item ?_ reads⟩
      rw [Shows, List.getElem?_eq_getElem inside, here.1]

theorem reads_of_path {b : Nat} {rest : List Nat} (path : g.Path b rest) {k : Nat}
    (within : k ≤ (itemsAt g.blocks b).length)
    (read : items <+: (itemsAt g.blocks b).drop k ++ g.itemsOf rest) :
    ∃ n, Reads g.blocks n (b, k) items := by
  induction path generalizing k items with
  | nil =>
    refine reads_through rfl within (fun items read => ?_) read
    rw [List.prefix_nil.mp read]
    exact ⟨0, .stop⟩
  | cons edge path ih =>
    refine reads_through rfl within (fun items read => ?_) read
    obtain ⟨n, reads⟩ := ih (k := 0) (Nat.zero_le _) read
    exact ⟨n + 1, .edge rfl edge reads⟩

/-- What can be read from the first block on is what stands along the paths from it, up to some
point. -/
theorem reads_iff : (∃ n, Reads g.blocks n (0, 0) items) ↔
    ∃ rest, g.Path 0 rest ∧ items <+: g.itemsOf (0 :: rest) := by
  constructor
  · rintro ⟨n, reads⟩
    exact path_of_reads reads
  · rintro ⟨rest, path, read⟩
    exact reads_of_path path (Nat.zero_le _) read

end

/-! What a step can do. -/

section

variable {p : Program} {body id : NodeId} {rest : List NodeId} {after next : Place} {item : Option Item}

theorem Step.of_nil (step : Step p body [] item next) : False := nomatch step

theorem Step.of_done (step : Step p body (.run [] :: after) item next) : item = none ∧ next = after := by
  cases step
  exact ⟨rfl, rfl⟩

theorem Step.of_turn {i : Item} {inner : NodeId} (step : Step p body (.turn i inner :: after) item next) :
    item = some i ∧ (next = .run (p.children inner) :: .turn i inner :: after ∨ next = after) := by
  cases step with
  | turn => exact ⟨rfl, .inl rfl⟩
  | exit => exact ⟨rfl, .inr rfl⟩

/-- What a step from a statement can do, by the kind of the statement. -/
theorem Step.of_run (step : Step p body (.run (id :: rest) :: after) item next) :
    match p.kind id with
    | .block _ => item = none ∧ next = .run (p.children id) :: .run rest :: after
    | .cond test thenBlock none => item = some (.branch test) ∧
        (next = .run (p.children thenBlock) :: .run rest :: after ∨ next = .run rest :: after)
    | .cond test thenBlock (some elseBlock) => item = some (.branch test) ∧
        (next = .run (p.children thenBlock) :: .run rest :: after ∨
          next = .run (p.children elseBlock) :: .run rest :: after)
    | .loop test inner true =>
      item = none ∧ next = .turn (.loopTest test) inner :: .run rest :: after
    | .loop test inner false =>
      item = none ∧ next = .run (p.children inner) :: .turn (.loopTest test) inner :: .run rest :: after
    | .forLoop _ _ inner => item = none ∧ next = .turn (.forHeader id) inner :: .run rest :: after
    | .ret _ => item = some (.stmt id) ∧ next = []
    | .brk => item = none ∧ next = after.leave
    | .cont => item = none ∧ next = after.again
    | .label _ | .fnDef .. => item = none ∧ next = .run rest :: after
    | .goto name => item = none ∧
        ∃ marks, Marks p (p.children body) [] marks ∧ marks.reverse.lookup name = some next
    | _ => item = some (.stmt id) ∧ next = .run rest :: after := by
  cases step with
  | block kind | tested kind | ret kind | brk kind | cont kind | label kind =>
    rw [kind]
    exact ⟨rfl, rfl⟩
  | @taken _ _ _ elseBlock _ _ kind =>
    rw [kind]
    cases elseBlock <;> exact ⟨rfl, .inl rfl⟩
  | other kind | skipped kind =>
    rw [kind]
    exact ⟨rfl, .inr rfl⟩
  | headed head =>
    cases head with
    | loop kind | forLoop kind =>
      rw [kind]
      exact ⟨rfl, rfl⟩
  | goto kind listed found =>
    rw [kind]
    exact ⟨rfl, _, listed, found⟩
  | fnDef kind | simple kind =>
    cases is : p.kind id <;> simp_all [NodeKind.isFnDef, NodeKind.isSimple]

end

/-! The labels of a body. -/

section

variable {p : Program} {id : NodeId} {stmts rest : List NodeId} {after : Place}
  {labels others : List (String × Place)}

/-- What a statement adds to the labels, by the kind of the statement. -/
theorem Marks.of_cons (listed : Marks p (id :: rest) after labels) :
    ∃ later, Marks p rest after later ∧
      match p.kind id with
      | .block _ => ∃ inner, Marks p (p.children id) (.run rest :: after) inner ∧
          labels = inner ++ later
      | .cond _ thenBlock none => ∃ inner,
          Marks p (p.children thenBlock) (.run rest :: after) inner ∧ labels = inner ++ later
      | .cond _ thenBlock (some elseBlock) => ∃ inner other,
          Marks p (p.children thenBlock) (.run rest :: after) inner ∧
          Marks p (p.children elseBlock) (.run rest :: after) other ∧
          labels = inner ++ (other ++ later)
      | .loop test body _ => ∃ inner,
          Marks p (p.children body) (.turn (.loopTest test) body :: .run rest :: after) inner ∧
          labels = inner ++ later
      | .forLoop _ _ body => ∃ inner,
          Marks p (p.children body) (.turn (.forHeader id) body :: .run rest :: after) inner ∧
          labels = inner ++ later
      | .label name => labels = (name, .run rest :: after) :: later
      | _ => labels = later := by
  cases listed with
  | block kind inside listed | cond kind inside listed | tested kind inside listed =>
    refine ⟨_, listed, ?_⟩
    rw [kind]
    exact ⟨_, inside, rfl⟩
  | condElse kind inside other listed =>
    refine ⟨_, listed, ?_⟩
    rw [kind]
    exact ⟨_, _, inside, other, rfl⟩
  | headed head inside listed =>
    refine ⟨_, listed, ?_⟩
    cases head with
    | loop kind | forLoop kind =>
      rw [kind]
      exact ⟨_, inside, rfl⟩
  | label kind listed =>
    refine ⟨_, listed, ?_⟩
    rw [kind]
  | plain kind listed =>
    refine ⟨_, listed, ?_⟩
    cases is : p.kind id <;> simp [is, NodeKind.isFnDef, NodeKind.isSimple, NodeKind.isJump] at kind ⊢

/-- The labels of some statements are determined. -/
theorem Marks.unique (listed : Marks p stmts after labels) (again : Marks p stmts after others) :
    labels = others := by
  induction listed generalizing others with
  | nil =>
    cases again
    rfl
  | block kind _ _ ihInside ih | cond kind _ _ ihInside ih | tested kind _ _ ihInside ih =>
    obtain ⟨later, listed, more⟩ := again.of_cons
    rw [kind] at more
    obtain ⟨inner, inside, rfl⟩ := more
    rw [ihInside inside, ih listed]
  | condElse kind _ _ _ ihInside ihOther ih =>
    obtain ⟨later, listed, more⟩ := again.of_cons
    rw [kind] at more
    obtain ⟨inner, other, inside, otherwise, rfl⟩ := more
    rw [ihInside inside, ihOther otherwise, ih listed]
  | headed head _ _ ihInside ih =>
    obtain ⟨later, listed, more⟩ := again.of_cons
    cases head with
    | loop kind | forLoop kind =>
      rw [kind] at more
      obtain ⟨inner, inside, rfl⟩ := more
      rw [ihInside inside, ih listed]
  | label kind _ ih =>
    obtain ⟨later, listed, more⟩ := again.of_cons
    rw [kind] at more
    rw [more, ih listed]
  | @plain id _ _ _ kind _ ih =>
    obtain ⟨later, listed, more⟩ := again.of_cons
    rw [ih listed]
    cases is : p.kind id <;>
      simp [is, NodeKind.isFnDef, NodeKind.isSimple, NodeKind.isJump] at kind more ⊢ <;> exact more.symm

end

/-! What is left to run, and where it starts in a graph. -/

section

variable (p : Program) (blocks : Array Block) (targets : String → Option Nat)

/-- `Tail p blocks targets loops place spot`: from the spot on, the blocks have the code of what is
left to run. The loops are those around the code, with where they go on and where they end. -/
inductive Tail : List (Nat × Nat) → Place → Spot → Prop
  | nil {spot : Spot} : Leads blocks spot [] → Tail [] [] spot
  | run {loops : List (Nat × Nat)} {stmts : List NodeId} {after : Place} {start stop : Spot}
      {marks : List (String × Nat)} : Laid p blocks targets loops stmts start stop marks →
      Tail loops after stop → Tail loops (.run stmts :: after) start
  | jump {loops : List (Nat × Nat)} {place : Place} {spot : Spot} {next : Nat} :
      Leads blocks spot [next] → Tail loops place (next, 0) → Tail loops place spot
  | turn {loops : List (Nat × Nat)} {item : Item} {body : NodeId} {after : Place}
      {header bodyStart exit : Nat} {bodyEnd : Spot} {marks : List (String × Nat)} :
      Parts blocks (header, 0) item [bodyStart, exit] →
      Laid p blocks targets ((header, exit) :: loops) (p.children body) (bodyStart, 0) bodyEnd marks →
      Leads blocks bodyEnd [header] → Tail loops after (exit, 0) →
      Tail ((header, exit) :: loops) (.turn item body :: after) (header, 0)

end

section

variable {p : Program} {blocks : Array Block} {targets : String → Option Nat}
  {loops : List (Nat × Nat)} {place after : Place} {spot start stop : Spot}

namespace Tail

/-- `break` goes to where the innermost loop ends. -/
theorem leave {header exit : Nat} (tail : Tail p blocks targets ((header, exit) :: loops) place spot) :
    Tail p blocks targets loops place.leave (exit, 0) := by
  generalize around : (header, exit) :: loops = all at tail
  induction tail with
  | nil => cases around
  | run _ _ ih | jump _ _ ih => exact ih around
  | turn _ _ _ tail _ =>
    cases around
    exact tail

/-- `continue` goes to where the innermost loop goes on. -/
theorem again {header exit : Nat} (tail : Tail p blocks targets ((header, exit) :: loops) place spot) :
    Tail p blocks targets ((header, exit) :: loops) place.again (header, 0) := by
  generalize around : (header, exit) :: loops = all at tail
  induction tail with
  | nil => cases around
  | run _ _ ih | jump _ _ ih => exact ih around
  | turn parts laid back tail _ =>
    cases around
    exact .turn parts laid back tail

/-- Outside of loops, `break` and `continue` end the run. -/
theorem outside (tail : Tail p blocks targets [] place spot) : place.leave = [] ∧ place.again = [] := by
  generalize around : ([] : List (Nat × Nat)) = all at tail
  induction tail with
  | nil => exact ⟨rfl, rfl⟩
  | run _ _ ih | jump _ _ ih => exact ih around
  | turn => cases around

end Tail

/-- A label of the body, in the text and in the graph: the names are the same, and the block has the
code of what is left to run. -/
def Marked (p : Program) (blocks : Array Block) (targets : String → Option Nat)
    (mark : String × Nat) (label : String × Place) : Prop :=
  mark.1 = label.1 ∧ ∃ loops, Tail p blocks targets loops label.2 (mark.2, 0)

/-- The labels that the code of some statements has are those of the statements, one by one. -/
theorem Laid.marked {stmts : List NodeId} {marks : List (String × Nat)}
    (laid : Laid p blocks targets loops stmts start stop marks)
    (tail : Tail p blocks targets loops after stop) :
    ∃ labels, Marks p stmts after labels ∧ List.Forall₂ (Marked p blocks targets) marks labels := by
  induction laid generalizing after with
  | nil => exact ⟨[], .nil, .nil⟩
  | block kind _ rest ihInside ih =>
    obtain ⟨inner, listedInner, alignedInner⟩ := ihInside (.run rest tail)
    obtain ⟨labels, listed, aligned⟩ := ih tail
    exact ⟨_, .block kind listedInner listed, List.rel_append alignedInner aligned⟩
  | cond kind _ _ join rest ihInside ih =>
    obtain ⟨inner, listedInner, alignedInner⟩ := ihInside (.jump join (.run rest tail))
    obtain ⟨labels, listed, aligned⟩ := ih tail
    exact ⟨_, .cond kind listedInner listed, List.rel_append alignedInner aligned⟩
  | condElse kind _ _ join _ joinElse rest ihInside ihOther ih =>
    obtain ⟨inner, listedInner, alignedInner⟩ := ihInside (.jump join (.run rest tail))
    obtain ⟨other, listedOther, alignedOther⟩ := ihOther (.jump joinElse (.run rest tail))
    obtain ⟨labels, listed, aligned⟩ := ih tail
    exact ⟨_, .condElse kind listedInner listedOther listed,
      List.rel_append alignedInner (List.rel_append alignedOther aligned)⟩
  | headed head _ parts inside back rest ihInside ih =>
    obtain ⟨inner, listedInner, alignedInner⟩ :=
      ihInside (.jump back (.turn parts inside back (.run rest tail)))
    obtain ⟨labels, listed, aligned⟩ := ih tail
    exact ⟨_, .headed head listedInner listed, List.rel_append alignedInner aligned⟩
  | tested kind _ inside back parts rest ihInside ih =>
    obtain ⟨inner, listedInner, alignedInner⟩ :=
      ihInside (.jump back (.turn parts inside back (.run rest tail)))
    obtain ⟨labels, listed, aligned⟩ := ih tail
    exact ⟨_, .tested kind listedInner listed, List.rel_append alignedInner aligned⟩
  | ret kind _ _ ih | brk kind _ _ ih | cont kind _ _ ih | goto kind _ _ _ ih =>
    obtain ⟨labels, listed, aligned⟩ := ih tail
    exact ⟨labels, .plain (.inr (.inr (by rw [kind]; rfl))) listed, aligned⟩
  | label kind _ rest ih =>
    obtain ⟨labels, listed, aligned⟩ := ih tail
    exact ⟨_, .label kind listed, .cons ⟨rfl, _, .run rest tail⟩ aligned⟩
  | fnDef kind _ ih =>
    obtain ⟨labels, listed, aligned⟩ := ih tail
    exact ⟨labels, .plain (.inr (.inl kind)) listed, aligned⟩
  | simple kind _ _ ih =>
    obtain ⟨labels, listed, aligned⟩ := ih tail
    exact ⟨labels, .plain (.inl kind) listed, aligned⟩

end

/-! Steps of a run and steps in the graph. -/

section

variable {p : Program} {blocks : Array Block} {targets : String → Option Nat} {body : NodeId}
  {loops : List (Nat × Nat)} {place after next : Place} {spot start stop other : Spot}
  {item : Item} {items : List Item} {n : Nat}

/-- Aligned labels are found together. -/
theorem lookup_of_marked {marks : List (String × Nat)} {labels : List (String × Place)} {name : String}
    {target : Nat} (aligned : List.Forall₂ (Marked p blocks targets) marks labels)
    (found : marks.lookup name = some target) :
    ∃ place, labels.lookup name = some place ∧
      ∃ loops, Tail p blocks targets loops place (target, 0) := by
  induction aligned with
  | nil => cases found
  | @cons mark label _ _ marked _ ih =>
    rw [List.lookup_cons] at found ⊢
    rw [← marked.1]
    by_cases here : name == mark.1
    · simp only [here, Option.some.injEq] at found ⊢
      exact ⟨_, rfl, found ▸ marked.2⟩
    · simp only [here] at found ⊢
      exact ih found

/-- The labels that the code goes to are those of the body, with the code of what is left to run. -/
def Targets (p : Program) (blocks : Array Block) (targets : String → Option Nat) (body : NodeId) : Prop :=
  ∃ labels, Marks p (p.children body) [] labels ∧ ∀ name target, targets name = some target →
    ∃ place, labels.reverse.lookup name = some place ∧
      ∃ loops, Tail p blocks targets loops place (target, 0)

/-- `Reaches blocks spot item other`: what can be read from the other spot on can, after the item, be
read from this one. -/
def Reaches (blocks : Array Block) (spot : Spot) (item : Option Item) (other : Spot) : Prop :=
  ∀ n items, Reads blocks n other items → ∃ m, Reads blocks m spot (item.toList ++ items)

namespace Reaches

theorem refl : Reaches blocks spot none spot := fun n _ reads => ⟨n, reads⟩

theorem shows (shows : Shows blocks spot item) : Reaches blocks spot (some item) (spot.1, spot.2 + 1) :=
  fun n _ reads => ⟨n + 1, .item shows reads⟩

theorem leads {nexts : List Nat} {next : Nat} (leads : Leads blocks spot nexts) (edge : next ∈ nexts) :
    Reaches blocks spot none (next, 0) :=
  fun n _ reads => ⟨n + 1, .edge leads.1 (leads.2 ▸ edge) reads⟩

theorem trans {item : Option Item} {mid : Spot} (first : Reaches blocks spot none mid)
    (second : Reaches blocks mid item other) : Reaches blocks spot item other := by
  intro n items reads
  obtain ⟨m, reads⟩ := second n items reads
  exact first m _ reads

theorem parts {nexts : List Nat} {next : Nat} (parts : Parts blocks spot item nexts) (edge : next ∈ nexts) :
    Reaches blocks spot (some item) (next, 0) := by
  intro n items reads
  obtain ⟨m, reads⟩ := leads parts.2 edge n items reads
  exact Reaches.shows parts.1 m _ reads

end Reaches

/-- Each step of a run can be followed in the graph. -/
theorem Tail.step {item : Option Item} (known : Targets p blocks targets body)
    (tail : Tail p blocks targets loops place spot) (step : Step p body place item next) :
    ∃ loops other, Tail p blocks targets loops next other ∧ Reaches blocks spot item other := by
  induction tail with
  | nil => exact step.of_nil.elim
  | jump leads _ ih =>
    obtain ⟨loops, other, tail, reaches⟩ := ih step
    exact ⟨loops, other, tail, .trans (.leads leads (List.mem_singleton_self _)) reaches⟩
  | turn parts laid back tail _ =>
    obtain ⟨rfl, rfl | rfl⟩ := step.of_turn
    · exact ⟨_, _, .run laid (.jump back (.turn parts laid back tail)), .parts parts (by simp)⟩
    · exact ⟨_, _, tail, .parts parts (by simp)⟩
  | @run loops _ after _ _ _ laid tail ih =>
    clear ih
    cases laid with
    | nil =>
      obtain ⟨rfl, rfl⟩ := step.of_done
      exact ⟨_, _, tail, .refl⟩
    | block kind inside rest =>
      have did := step.of_run
      rw [kind] at did
      obtain ⟨rfl, rfl⟩ := did
      exact ⟨_, _, .run inside (.run rest tail), .refl⟩
    | cond kind parts inside join rest =>
      have did := step.of_run
      rw [kind] at did
      obtain ⟨rfl, rfl | rfl⟩ := did
      · exact ⟨_, _, .run inside (.jump join (.run rest tail)), .parts parts (by simp)⟩
      · exact ⟨_, _, .run rest tail, .parts parts (by simp)⟩
    | condElse kind parts inside join other otherJoin rest =>
      have did := step.of_run
      rw [kind] at did
      obtain ⟨rfl, rfl | rfl⟩ := did
      · exact ⟨_, _, .run inside (.jump join (.run rest tail)), .parts parts (by simp)⟩
      · exact ⟨_, _, .run other (.jump otherJoin (.run rest tail)), .parts parts (by simp)⟩
    | headed head leads parts inside back rest =>
      have did := step.of_run
      cases head with
      | loop kind | forLoop kind =>
        rw [kind] at did
        obtain ⟨rfl, rfl⟩ := did
        exact ⟨_, _, .turn parts inside back (.run rest tail), .leads leads (by simp)⟩
    | tested kind leads inside back parts rest =>
      have did := step.of_run
      rw [kind] at did
      obtain ⟨rfl, rfl⟩ := did
      exact ⟨_, _, .run inside (.jump back (.turn parts inside back (.run rest tail))),
        .leads leads (by simp)⟩
    | ret kind parts _ =>
      have did := step.of_run
      rw [kind] at did
      obtain ⟨rfl, rfl⟩ := did
      exact ⟨_, _, .nil parts.2, .shows parts.1⟩
    | brk kind leads _ =>
      have did := step.of_run
      rw [kind] at did
      obtain ⟨rfl, rfl⟩ := did
      cases loops with
      | nil =>
        rw [tail.outside.1]
        exact ⟨_, _, .nil leads, .refl⟩
      | cons => exact ⟨_, _, tail.leave, .leads leads (by simp)⟩
    | cont kind leads _ =>
      have did := step.of_run
      rw [kind] at did
      obtain ⟨rfl, rfl⟩ := did
      cases loops with
      | nil =>
        rw [tail.outside.2]
        exact ⟨_, _, .nil leads, .refl⟩
      | cons => exact ⟨_, _, tail.again, .leads leads (by simp)⟩
    | label kind leads rest =>
      have did := step.of_run
      rw [kind] at did
      obtain ⟨rfl, rfl⟩ := did
      exact ⟨_, _, .run rest tail, .leads leads (by simp)⟩
    | goto kind target leads _ =>
      have did := step.of_run
      rw [kind] at did
      obtain ⟨rfl, labels, listed, found⟩ := did
      obtain ⟨all, listedAll, lands⟩ := known
      obtain ⟨place, foundPlace, loops, tail⟩ := lands _ _ target
      obtain rfl : next = place := by
        rw [listed.unique listedAll, foundPlace, Option.some.injEq] at found
        exact found.symm
      exact ⟨_, _, tail, .leads leads (by simp)⟩
    | @fnDef _ id _ _ _ _ kind rest =>
      have did := step.of_run
      cases is : p.kind id <;> simp only [is, NodeKind.isFnDef, Bool.false_eq_true] at kind did
      obtain ⟨rfl, rfl⟩ := did
      exact ⟨_, _, .run rest tail, .refl⟩
    | @simple _ id _ _ _ _ kind shows rest =>
      have did := step.of_run
      obtain ⟨rfl, rfl⟩ : item = some (.stmt id) ∧ next = .run _ :: after := by
        cases is : p.kind id <;>
          simp only [is, NodeKind.isSimple, Bool.false_eq_true] at kind did <;> exact did
      exact ⟨_, _, .run rest tail, .shows shows⟩

/-- What a run goes through can be read. -/
theorem reads_of_emits (known : Targets p blocks targets body) (emits : Emits p body place items)
    (tail : Tail p blocks targets loops place spot) : ∃ n, Reads blocks n spot items := by
  induction emits generalizing loops spot with
  | nil => exact ⟨0, .stop⟩
  | silent step _ ih =>
    obtain ⟨loops, other, tail, reaches⟩ := tail.step known step
    obtain ⟨n, reads⟩ := ih tail
    exact reaches n _ reads
  | item step _ ih =>
    obtain ⟨loops, other, tail, reaches⟩ := tail.step known step
    obtain ⟨n, reads⟩ := ih tail
    exact reaches n _ reads

/-! Steps in the graph and steps of a run. -/

namespace Reads

/-- Reading on from an item. -/
theorem of_shows (reads : Reads blocks n spot items) (shows : Shows blocks spot item) :
    items = [] ∨ ∃ m < n, ∃ later, items = item :: later ∧ Reads blocks m (spot.1, spot.2 + 1) later := by
  cases reads with
  | stop => exact .inl rfl
  | item other reads =>
    obtain rfl : item = _ := Option.some.inj (shows.symm.trans other)
    exact .inr ⟨_, Nat.lt_succ_self _, _, rfl, reads⟩
  | edge ends =>
    rw [Shows, List.getElem?_eq_none (Nat.le_of_eq ends.symm)] at shows
    cases shows

/-- Reading on from the end of a block. -/
theorem of_leads {nexts : List Nat} (reads : Reads blocks n spot items) (leads : Leads blocks spot nexts) :
    items = [] ∨ ∃ m < n, ∃ next ∈ nexts, Reads blocks m (next, 0) items := by
  cases reads with
  | stop => exact .inl rfl
  | item shows =>
    rw [Shows, List.getElem?_eq_none (Nat.le_of_eq leads.1.symm)] at shows
    cases shows
  | edge _ edge reads => exact .inr ⟨_, Nat.lt_succ_self _, _, leads.2 ▸ edge, reads⟩

end Reads

/-- What can be read in fewer than `n` steps is what runs go through. -/
def Follows (p : Program) (blocks : Array Block) (targets : String → Option Nat) (body : NodeId)
    (n : Nat) : Prop :=
  ∀ m < n, ∀ loops place spot items, Tail p blocks targets loops place spot →
    Reads blocks m spot items → Emits p body place items

namespace Follows

/-- A step without an item, over the only edge of a block. -/
theorem leads {target : Nat} (soon : Follows p blocks targets body n)
    (leads : Leads blocks spot [target]) (reads : Reads blocks n spot items)
    (step : Step p body place none next) (tail : Tail p blocks targets loops next (target, 0)) :
    Emits p body place items := by
  obtain rfl | ⟨m, less, other, edge, reads⟩ := reads.of_leads leads
  · exact .nil
  · obtain rfl := List.mem_singleton.mp edge
    exact .silent step (soon m less _ _ _ _ tail reads)

/-- A step with the last item of a block, over one of its edges. -/
theorem parts {nexts : List Nat} (soon : Follows p blocks targets body n)
    (parts : Parts blocks spot item nexts) (reads : Reads blocks n spot items)
    (step : Step p body place (some item) next)
    (onward : ∀ target ∈ nexts, ∃ loops next, Step p body place (some item) next ∧
      Tail p blocks targets loops next (target, 0)) : Emits p body place items := by
  obtain rfl | ⟨m, less, later, rfl, onwards⟩ := reads.of_shows parts.1
  · exact .nil
  · obtain rfl | ⟨k, lesser, target, edge, onwards⟩ := onwards.of_leads parts.2
    · exact .item step .nil
    · obtain ⟨loops, next, step, tail⟩ := onward target edge
      exact .item step (soon k (by omega) _ _ _ _ tail onwards)

/-- What can be read of the code of some statements, and then of what comes after, is what a run of
them goes through. -/
theorem code {stmts : List NodeId} {marks : List (String × Nat)} (known : Targets p blocks targets body)
    (soon : Follows p blocks targets body n)
    (laid : Laid p blocks targets loops stmts start stop marks)
    (tail : Tail p blocks targets loops after stop)
    (later : ∀ items, Reads blocks n stop items → Emits p body after items)
    (reads : Reads blocks n start items) : Emits p body (.run stmts :: after) items := by
  induction laid generalizing after items with
  | nil => exact .silent .done (later items reads)
  | block kind _ rest ihInside ih =>
    exact .silent (.block kind) (ihInside (.run rest tail) (fun _ reads => ih tail later reads) reads)
  | cond kind parts inside join rest _ _ =>
    refine soon.parts parts reads (.skipped kind) fun target edge => ?_
    simp only [List.mem_cons, List.not_mem_nil, or_false] at edge
    obtain rfl | rfl := edge
    · exact ⟨_, _, .taken kind, .run inside (.jump join (.run rest tail))⟩
    · exact ⟨_, _, .skipped kind, .run rest tail⟩
  | condElse kind parts inside join other otherJoin rest _ _ _ =>
    refine soon.parts parts reads (.taken kind) fun target edge => ?_
    simp only [List.mem_cons, List.not_mem_nil, or_false] at edge
    obtain rfl | rfl := edge
    · exact ⟨_, _, .taken kind, .run inside (.jump join (.run rest tail))⟩
    · exact ⟨_, _, .other kind, .run other (.jump otherJoin (.run rest tail))⟩
  | headed head leads parts inside back rest _ _ =>
    exact soon.leads leads reads (.headed head) (.turn parts inside back (.run rest tail))
  | tested kind leads inside back parts rest _ _ =>
    exact soon.leads leads reads (.tested kind)
      (.run inside (.jump back (.turn parts inside back (.run rest tail))))
  | ret kind parts _ _ =>
    exact soon.parts parts reads (.ret kind) fun _ edge => (List.not_mem_nil edge).elim
  | @brk loops _ _ _ _ _ _ kind leads _ _ =>
    cases loops with
    | nil =>
      obtain rfl | ⟨_, _, _, edge, _⟩ := reads.of_leads leads
      · exact .nil
      · exact (List.not_mem_nil edge).elim
    | cons => exact soon.leads leads reads (.brk kind) tail.leave
  | @cont loops _ _ _ _ _ _ kind leads _ _ =>
    cases loops with
    | nil =>
      obtain rfl | ⟨_, _, _, edge, _⟩ := reads.of_leads leads
      · exact .nil
      · exact (List.not_mem_nil edge).elim
    | cons => exact soon.leads leads reads (.cont kind) tail.again
  | label kind leads rest _ => exact soon.leads leads reads (.label kind) (.run rest tail)
  | goto kind target leads _ _ =>
    obtain ⟨labels, listed, lands⟩ := known
    obtain ⟨place, found, loops, landed⟩ := lands _ _ target
    exact soon.leads leads reads (.goto kind listed found) landed
  | fnDef kind _ ih => exact .silent (.fnDef kind) (ih tail later reads)
  | simple kind shows rest _ =>
    obtain rfl | ⟨m, less, others, rfl, onwards⟩ := reads.of_shows shows
    · exact .nil
    · exact .item (.simple kind) (soon m less _ _ _ _ (.run rest tail) onwards)

/-- What can be read in `n` steps is what a run goes through, if it is so in fewer. -/
theorem whole (known : Targets p blocks targets body) (soon : Follows p blocks targets body n)
    (tail : Tail p blocks targets loops place spot) (reads : Reads blocks n spot items) :
    Emits p body place items := by
  induction tail generalizing items with
  | nil leads =>
    obtain rfl | ⟨_, _, _, edge, _⟩ := reads.of_leads leads
    · exact .nil
    · exact (List.not_mem_nil edge).elim
  | run laid tail ih => exact soon.code known laid tail (fun _ reads => ih reads) reads
  | jump leads tail _ =>
    obtain rfl | ⟨m, less, target, edge, reads⟩ := reads.of_leads leads
    · exact .nil
    · obtain rfl := List.mem_singleton.mp edge
      exact soon m less _ _ _ _ tail reads
  | turn parts inside back tail _ =>
    refine soon.parts parts reads .exit fun target edge => ?_
    simp only [List.mem_cons, List.not_mem_nil, or_false] at edge
    obtain rfl | rfl := edge
    · exact ⟨_, _, .turn, .run inside (.jump back (.turn parts inside back tail))⟩
    · exact ⟨_, _, .exit, tail⟩

end Follows

/-- What can be read from some spot on is what runs of the code there go through. -/
theorem emits_of_reads (known : Targets p blocks targets body)
    (tail : Tail p blocks targets loops place spot) (reads : Reads blocks n spot items) :
    Emits p body place items := by
  induction n using Nat.strong_induction_on generalizing loops place spot items with
  | _ n ih => exact Follows.whole known (fun m less _ _ _ _ tail reads => ih m less tail reads) tail reads

end

/-! The paths of a graph. -/

theorem Emits.cut {p : Program} {body : NodeId} {place : Place} {items read : List Item}
    (emits : Emits p body place items) (before : read <+: items) : Emits p body place read := by
  induction emits generalizing read with
  | nil =>
    rw [List.prefix_nil.mp before]
    exact .nil
  | silent step _ ih => exact .silent step (ih before)
  | item step _ ih =>
    obtain rfl | ⟨rest, rfl, later⟩ := List.prefix_cons_iff.mp before
    · exact .nil
    · exact .item step (ih later)

namespace Graph

variable {p : Program} {f : SymbolId} {g : Graph}

/-- The code of a body starts in the first block, and its jumps lead to the labels of the body. -/
theorem tail_of_build (settled : p.Settled) (registered : f ∈ p.registries.fns)
    (built : Graph.build p f = .ok g) : ∃ body targets, p.fnBody? f = some body ∧
      Targets p g.blocks targets body ∧
      Tail p g.blocks targets [] [.run (p.children body)] (0, 0) := by
  obtain ⟨d, placed⟩ := settled.placed_of_registered registered
  obtain ⟨_, formals, inner, kind, found⟩ := settled.fnBody?_eq placed
  have forest := settled.sound.forest
  have child : inner ∈ p.children d := by simp [Program.children, kind, NodeKind.children]
  have bodies : ∀ body, p.fnBody? f = some body → p.Live body := fun body same =>
    Option.some.inj (found.symm.trans same) ▸
      forest.child_live (settled.sound.live_of_reached placed.1) child
  obtain ⟨body, marks, stop, found, laid, ends⟩ := laid_of_build forest built bodies
  obtain ⟨labels, listed, aligned⟩ := laid.marked (.nil ends)
  exact ⟨body, _, found, ⟨labels, listed, fun _ _ => lookup_of_marked (List.rel_reverse aligned)⟩,
    .run laid (.nil ends)⟩

/-- The graph of a function of a lowered program has exactly the paths of its body: up to any length,
what runs of the body go through is what stands along the paths from the first block. -/
theorem paths_of_body {tree : Surface.ProgramTree} (lowered : tree.lower = .ok p)
    (registered : f ∈ p.registries.fns) (built : Graph.build p f = .ok g) :
    ∃ body, p.fnBody? f = some body ∧ ∀ n : Nat,
      {read : List Item | read.length ≤ n ∧
        ∃ items, Emits p body [.run (p.children body)] items ∧ read <+: items} =
      {read : List Item | read.length ≤ n ∧
        ∃ rest, g.Path 0 rest ∧ read <+: g.itemsOf (0 :: rest)} := by
  obtain ⟨settled, _, _⟩ := Surface.ProgramTree.lowered lowered
  obtain ⟨body, targets, found, known, tail⟩ := tail_of_build settled registered built
  refine ⟨body, found, fun n => Set.ext fun read => and_congr_right fun _ => ?_⟩
  constructor
  · rintro ⟨items, emits, before⟩
    exact reads_iff.mp (reads_of_emits known (emits.cut before) tail)
  · intro stands
    obtain ⟨m, reads⟩ := reads_iff.mpr stands
    exact ⟨read, emits_of_reads known tail reads, List.prefix_rfl⟩

/-- A run of `jumpingProgram` can jump out of the loop, start it again and then leave it. -/
theorem jumpingProgram_paths : ∃ g body, Graph.build Surface.jumpingProgram ⟨1⟩ = .ok g ∧
    Surface.jumpingProgram.fnBody? ⟨1⟩ = some body ∧ ∃ items,
      Emits Surface.jumpingProgram body [.run (Surface.jumpingProgram.children body)] items ∧
      g.itemsOf [0, 1, 2, 3, 5, 1, 2, 4] <+: items := by
  have registered : ⟨1⟩ ∈ Surface.jumpingProgram.registries.fns := by decide +kernel
  have shape : ((Graph.build Surface.jumpingProgram ⟨1⟩).toOption.map fun g =>
      ([0, 1, 2, 3, 5].map fun b => (g.block b).succ)) =
      some [[1], [2], [3, 4], [5, 7], [1]] := by
    decide +kernel
  cases built : Graph.build Surface.jumpingProgram ⟨1⟩ with
  | error e =>
    rw [built] at shape
    cases shape
  | ok g =>
    obtain ⟨body, found, same⟩ := paths_of_body Surface.jumpingTree_lowers registered built
    simp only [built, Except.toOption, Option.map_some, List.map_cons, List.map_nil, Option.some.injEq,
      List.cons.injEq, and_true] at shape
    obtain ⟨succ₀, succ₁, succ₂, succ₃, succ₅⟩ := shape
    have path : g.Path 0 [1, 2, 3, 5, 1, 2, 4] :=
      .cons (by simp [succ₀]) (.cons (by simp [succ₁]) (.cons (by simp [succ₂])
        (.cons (by simp [succ₃]) (.cons (by simp [succ₅]) (.cons (by simp [succ₁])
          (.cons (by simp [succ₂]) .nil))))))
    have stands := Set.ext_iff.mp (same (g.itemsOf [0, 1, 2, 3, 5, 1, 2, 4]).length)
      (g.itemsOf [0, 1, 2, 3, 5, 1, 2, 4])
    exact ⟨g, body, rfl, found, (stands.mpr ⟨Nat.le_refl _, _, path, List.prefix_rfl⟩).2⟩

end Graph

end MiddleEnd.Flow
