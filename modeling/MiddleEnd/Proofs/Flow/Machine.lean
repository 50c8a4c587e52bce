import MiddleEnd.Flow.Graph

namespace MiddleEnd

/-- Statements that run in one step: expressions, assignments and definitions of variables. -/
def NodeKind.isSimple : NodeKind → Bool
  | symRef _ | call .. | namedArg .. | literal _ | prim .. | assign .. | define .. => true
  | _ => false

/-- Statements that only say where the run goes on. -/
def NodeKind.isJump : NodeKind → Bool
  | ret _ | brk | cont | goto _ => true
  | _ => false

namespace Flow

/-- A part of what is left to run. -/
inductive Frame where
  /-- Statements, one after the other. -/
  | run (stmts : List NodeId)
  /-- A loop that is about to evaluate its test or its header, and then runs its body or ends. -/
  | turn (item : Item) (body : NodeId)
  deriving DecidableEq, Repr

/-- What is left to run, innermost part first; nothing when the run is over. -/
abbrev Place := List Frame

namespace Place

/-- Where `break` goes on: after the innermost loop. -/
def leave : Place → Place
  | [] => []
  | .run _ :: rest => leave rest
  | .turn .. :: rest => rest

/-- Where `continue` goes on: at the test or the header of the innermost loop. -/
def again : Place → Place
  | [] => []
  | .run _ :: rest => again rest
  | .turn item body :: rest => .turn item body :: rest

end Place

/-- A loop that starts with its test or its header. -/
inductive Headed (p : Program) (id : NodeId) : Item → NodeId → Prop
  | loop {test body : NodeId} : p.kind id = .loop test body true → Headed p id (.loopTest test) body
  | forLoop {index iterable body : NodeId} :
      p.kind id = .forLoop index iterable body → Headed p id (.forHeader id) body

/-- `Marks p stmts after marks`: the labels in some statements, in the order of the text, each with
what is left to run from there; `after` is what is left to run after all of the statements. -/
inductive Marks (p : Program) : List NodeId → Place → List (String × Place) → Prop
  | nil {after : Place} : Marks p [] after []
  | label {id : NodeId} {rest : List NodeId} {after : Place} {name : String}
      {marks : List (String × Place)} : p.kind id = .label name → Marks p rest after marks →
      Marks p (id :: rest) after ((name, .run rest :: after) :: marks)
  | block {id : NodeId} {ids rest : List NodeId} {after : Place} {inner marks : List (String × Place)} :
      p.kind id = .block ids → Marks p (p.children id) (.run rest :: after) inner →
      Marks p rest after marks → Marks p (id :: rest) after (inner ++ marks)
  | cond {id test thenBlock : NodeId} {rest : List NodeId} {after : Place}
      {inner marks : List (String × Place)} : p.kind id = .cond test thenBlock none →
      Marks p (p.children thenBlock) (.run rest :: after) inner → Marks p rest after marks →
      Marks p (id :: rest) after (inner ++ marks)
  | condElse {id test thenBlock elseBlock : NodeId} {rest : List NodeId} {after : Place}
      {inner other marks : List (String × Place)} :
      p.kind id = .cond test thenBlock (some elseBlock) →
      Marks p (p.children thenBlock) (.run rest :: after) inner →
      Marks p (p.children elseBlock) (.run rest :: after) other → Marks p rest after marks →
      Marks p (id :: rest) after (inner ++ (other ++ marks))
  | headed {id body : NodeId} {item : Item} {rest : List NodeId} {after : Place}
      {inner marks : List (String × Place)} : Headed p id item body →
      Marks p (p.children body) (.turn item body :: .run rest :: after) inner →
      Marks p rest after marks → Marks p (id :: rest) after (inner ++ marks)
  | tested {id test body : NodeId} {rest : List NodeId} {after : Place}
      {inner marks : List (String × Place)} : p.kind id = .loop test body false →
      Marks p (p.children body) (.turn (.loopTest test) body :: .run rest :: after) inner →
      Marks p rest after marks → Marks p (id :: rest) after (inner ++ marks)
  | plain {id : NodeId} {rest : List NodeId} {after : Place} {marks : List (String × Place)} :
      (p.kind id).isSimple = true ∨ (p.kind id).isFnDef = true ∨ (p.kind id).isJump = true →
      Marks p rest after marks → Marks p (id :: rest) after marks

/-- `Step p body place item next`: at `place`, a run of `body` can go on to `next`, with an item or
without one. -/
inductive Step (p : Program) (body : NodeId) : Place → Option Item → Place → Prop
  | done {after : Place} : Step p body (.run [] :: after) none after
  | block {id : NodeId} {ids rest : List NodeId} {after : Place} : p.kind id = .block ids →
      Step p body (.run (id :: rest) :: after) none (.run (p.children id) :: .run rest :: after)
  /-- The condition is evaluated, and the first branch is taken. -/
  | taken {id test thenBlock : NodeId} {elseBlock : Option NodeId} {rest : List NodeId} {after : Place} :
      p.kind id = .cond test thenBlock elseBlock →
      Step p body (.run (id :: rest) :: after) (some (.branch test))
        (.run (p.children thenBlock) :: .run rest :: after)
  | other {id test thenBlock elseBlock : NodeId} {rest : List NodeId} {after : Place} :
      p.kind id = .cond test thenBlock (some elseBlock) →
      Step p body (.run (id :: rest) :: after) (some (.branch test))
        (.run (p.children elseBlock) :: .run rest :: after)
  | skipped {id test thenBlock : NodeId} {rest : List NodeId} {after : Place} :
      p.kind id = .cond test thenBlock none →
      Step p body (.run (id :: rest) :: after) (some (.branch test)) (.run rest :: after)
  | headed {id inner : NodeId} {item : Item} {rest : List NodeId} {after : Place} :
      Headed p id item inner →
      Step p body (.run (id :: rest) :: after) none (.turn item inner :: .run rest :: after)
  /-- The first turn of this loop comes before its first test. -/
  | tested {id test inner : NodeId} {rest : List NodeId} {after : Place} :
      p.kind id = .loop test inner false →
      Step p body (.run (id :: rest) :: after) none
        (.run (p.children inner) :: .turn (.loopTest test) inner :: .run rest :: after)
  | turn {item : Item} {inner : NodeId} {after : Place} :
      Step p body (.turn item inner :: after) (some item)
        (.run (p.children inner) :: .turn item inner :: after)
  | exit {item : Item} {inner : NodeId} {after : Place} :
      Step p body (.turn item inner :: after) (some item) after
  | ret {id : NodeId} {value : Option NodeId} {rest : List NodeId} {after : Place} :
      p.kind id = .ret value → Step p body (.run (id :: rest) :: after) (some (.stmt id)) []
  | brk {id : NodeId} {rest : List NodeId} {after : Place} : p.kind id = .brk →
      Step p body (.run (id :: rest) :: after) none after.leave
  | cont {id : NodeId} {rest : List NodeId} {after : Place} : p.kind id = .cont →
      Step p body (.run (id :: rest) :: after) none after.again
  | label {id : NodeId} {name : String} {rest : List NodeId} {after : Place} :
      p.kind id = .label name → Step p body (.run (id :: rest) :: after) none (.run rest :: after)
  /-- The run goes on after the last label of the name in the body. -/
  | goto {id : NodeId} {name : String} {rest : List NodeId} {after target : Place}
      {marks : List (String × Place)} : p.kind id = .goto name → Marks p (p.children body) [] marks →
      marks.reverse.lookup name = some target →
      Step p body (.run (id :: rest) :: after) none target
  | fnDef {id : NodeId} {rest : List NodeId} {after : Place} : (p.kind id).isFnDef = true →
      Step p body (.run (id :: rest) :: after) none (.run rest :: after)
  | simple {id : NodeId} {rest : List NodeId} {after : Place} : (p.kind id).isSimple = true →
      Step p body (.run (id :: rest) :: after) (some (.stmt id)) (.run rest :: after)

/-- The items that a run of `body` can go through from a place on, one after the other. The run may
end there, or only have come so far. -/
inductive Emits (p : Program) (body : NodeId) : Place → List Item → Prop
  | nil {place : Place} : Emits p body place []
  | silent {place next : Place} {items : List Item} : Step p body place none next →
      Emits p body next items → Emits p body place items
  | item {place next : Place} {item : Item} {items : List Item} :
      Step p body place (some item) next → Emits p body next items →
      Emits p body place (item :: items)

end Flow

end MiddleEnd
