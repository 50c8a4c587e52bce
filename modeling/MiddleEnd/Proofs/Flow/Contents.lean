import MiddleEnd.Proofs.Closure.Nesting
import MiddleEnd.Proofs.Flow.Builder
import MiddleEnd.Proofs.Flow.Machine
import Mathlib.Data.List.Pairwise

namespace MiddleEnd.Flow

/-- All items of some blocks, block by block. -/
def contents (blocks : Array Block) : List Item := (List.range blocks.size).flatMap (itemsAt blocks)

theorem mem_contents {blocks : Array Block} {item : Item} :
    item ∈ contents blocks ↔ ∃ x, item ∈ itemsAt blocks x := by
  simp only [contents, List.mem_flatMap, List.mem_range]
  refine ⟨fun ⟨x, _, member⟩ => ⟨x, member⟩, fun ⟨x, member⟩ => ⟨x, ?_, member⟩⟩
  by_contra beyond
  rw [itemsAt_beyond (Nat.le_of_not_lt beyond)] at member
  exact List.not_mem_nil member

/-- Blocks that come on top are empty. -/
theorem contents_of_same {blocks others : Array Block} (size : blocks.size ≤ others.size)
    (items : ∀ x, itemsAt others x = itemsAt blocks x) : contents others = contents blocks := by
  obtain ⟨more, size⟩ := Nat.exists_eq_add_of_le size
  have empty : ((List.range more).map (blocks.size + ·)).flatMap (itemsAt blocks) = [] := by
    refine List.flatMap_eq_nil_iff.mpr fun x member => ?_
    obtain ⟨k, _, rfl⟩ := List.mem_map.mp member
    exact itemsAt_beyond (Nat.le_add_right _ k)
  rw [contents, contents, size, List.range_add, List.flatMap_append, funext items, empty,
    List.append_nil]

/-- Where each item is once, an item has one place. -/
theorem place_unique {blocks : Array Block} (once : (contents blocks).Nodup) {item : Item} {b b' : Nat}
    {before before' rest rest' : List Item} (here : itemsAt blocks b = before ++ item :: rest)
    (there : itemsAt blocks b' = before' ++ item :: rest') : b = b' ∧ rest = rest' := by
  obtain ⟨each, apart⟩ := List.nodup_flatMap.mp once
  have known {b : Nat} {before rest : List Item} (here : itemsAt blocks b = before ++ item :: rest) :
      b ∈ List.range blocks.size := by
    rw [List.mem_range]
    by_contra beyond
    rw [itemsAt_beyond (Nat.le_of_not_lt beyond)] at here
    simp at here
  obtain rfl : b = b' := by
    by_contra different
    have symmetric : Std.Symm (Function.onFun List.Disjoint (itemsAt blocks)) :=
      ⟨fun _ _ disjoint _ there here => disjoint here there⟩
    have disjoint := apart.forall (known here) (known there) different
    exact disjoint (a := item) (by simp [here]) (by simp [there])
  have distinct := each b (known here)
  refine ⟨rfl, ?_⟩
  rw [here, List.nodup_middle, List.nodup_cons, List.mem_append, not_or] at distinct
  exact ((List.append_cons_inj_of_notMem distinct.1.1 distinct.1.2).mp (here.symm.trans there)).2.2

namespace Builder

variable {b c d : Builder} {item : Item} {items more : List Item}

/-- What items a builder has on top. -/
def Adds (b c : Builder) (items : List Item) : Prop :=
  (contents c.blocks).Perm (contents b.blocks ++ items)

namespace Adds

theorem of_same (size : b.blocks.size ≤ c.blocks.size)
    (items : ∀ x, itemsAt c.blocks x = itemsAt b.blocks x) : Adds b c [] := by
  rw [Adds, List.append_nil, contents_of_same size items]

theorem trans (first : Adds b c items) (second : Adds c d more) : Adds b d (items ++ more) := by
  rw [Adds, ← List.append_assoc]
  exact List.Perm.trans second (first.append_right more)

/-- What comes on top may be listed in another order. -/
theorem perm (adds : Adds b c items) (same : items.Perm more) : Adds b c more :=
  List.Perm.trans adds (same.append_left _)

theorem before (first : Adds b c []) (second : Adds c d items) : Adds b d items := first.trans second

theorem after (first : Adds b c items) (second : Adds c d []) : Adds b d items := by
  simpa using first.trans second

theorem push (current : b.current < b.blocks.size) : Adds b (b.push item) [item] := by
  obtain ⟨first, last, split⟩ := List.append_of_mem (List.mem_range.mpr current)
  have apart : b.current ∉ first ∧ b.current ∉ last := by
    have once := List.nodup_range (n := b.blocks.size)
    rw [split, List.nodup_middle, List.nodup_cons] at once
    simpa using once.1
  have others {xs : List Nat} (away : b.current ∉ xs) :
      xs.flatMap (itemsAt (b.push item).blocks) = xs.flatMap (itemsAt b.blocks) :=
    List.flatMap_congr fun x member => by
      rw [itemsAt_push, if_neg]
      rintro ⟨rfl, _⟩
      exact away member
  rw [Adds, contents, contents, size_push, split, List.flatMap_append, List.flatMap_append,
    List.flatMap_cons, List.flatMap_cons, others apart.1, others apart.2, itemsAt_push,
    if_pos ⟨rfl, current⟩, List.append_assoc, List.append_assoc, List.append_assoc]
  exact (List.perm_append_comm.append_left _).append_left _

theorem foldl {α : Type} {f : Builder → α → Builder} {of : α → List Item}
    (grows : ∀ (b : Builder) a, b.Open → b.Grown (f b a))
    (turn : ∀ (b : Builder) a, b.Open → Adds b (f b a) (of a))
    (members : List α) (opened : b.Open) : Adds b (members.foldl f b) (members.flatMap of) := by
  induction members generalizing b with
  | nil => exact .of_same (Nat.le_refl _) fun _ => rfl
  | cons a rest ih =>
    rw [List.foldl_cons, List.flatMap_cons]
    exact (turn b a opened).trans (ih (grows b a opened).opened)

theorem arm (x : Nat) : Adds b (b.arm x) [] := of_same (by simp) (by simp)

theorem edge (x y : Nat) : Adds b (b.edge x y) [] := of_same (by simp) (by simp)

theorem afterJump : Adds b b.afterJump [] :=
  of_same (by simp [Builder.afterJump, newBlock, goTo]) (by simp [Builder.afterJump, newBlock, goTo])

theorem enterHeaded (item : Item) : Adds b (b.enterHeaded item) [item] := by
  have pushed : Adds b ((b.arm b.current).push item) [item] := (arm _).before (push (by simp))
  exact pushed.after (of_same (by simp) (by simp [Builder.enterHeaded, within, newBlock, goTo]))

theorem headedLoop {inner : Builder → Builder} (item : Item)
    (adds : Adds (b.enterHeaded item) (inner (b.enterHeaded item)) items) :
    Adds b (b.headedLoop item inner) (item :: items) := by
  rw [headedLoop_eq]
  exact ((enterHeaded item).trans adds).after (of_same (by simp) (by simp))

theorem testedLoop {inner : Builder → Builder} (item : Item)
    (grown : b.enterTested.Grown (inner b.enterTested))
    (adds : Adds b.enterTested (inner b.enterTested) items) :
    Adds b (b.testedLoop item inner) (item :: items) := by
  rw [testedLoop_eq]
  have size := grown.size_le
  have enter : Adds b b.enterTested [] := of_same (by simp) (by simp)
  have close (x y : Nat) : Adds (inner b.enterTested) ((inner b.enterTested).close x y) [] :=
    of_same (by simp) (by simp)
  have test := ((enter.before adds).after (close (b.blocks.size + 1) (b.blocks.size + 1))).trans
    (push (by simp at size ⊢; omega) : Adds _ (Builder.push _ item) _)
  exact (test.after (of_same (by simp) (by simp))).perm List.perm_append_comm

theorem choice {thenInner : Builder → Builder} {elseInner : Option (Builder → Builder)}
    {otherwise : List Item} (opened : b.Open) (item : Item)
    (grows : ∀ b : Builder, b.Open → b.Grown (thenInner b))
    (adds : ∀ b : Builder, b.Open → Adds b (thenInner b) items)
    (addsElse : ∀ inner ∈ elseInner, ∀ b : Builder, b.Open → Adds b (inner b) otherwise)
    (none : elseInner = none → otherwise = []) :
    Adds b (b.choice item thenInner elseInner) (item :: (items ++ otherwise)) := by
  have enter : Adds b ((b.push item).arm b.current) [item] :=
    (push opened.current_lt).after (arm _)
  have openedThen : ((b.push item).arm b.current).Open := opened.enterThen item
  have grown := grows _ openedThen
  have first := enter.trans (adds _ openedThen)
  cases elseInner with
  | none =>
    rw [choice_none_eq, none rfl, List.append_nil]
    exact first.after (of_same (by simp) (by simp))
  | some inner =>
    rw [choice_some_eq]
    have branch : b.current < (thenInner ((b.push item).arm b.current)).blocks.size := by
      have current := opened.current_lt
      have size := grown.size_le
      simp at size
      omega
    have plain : ∀ j ∈ (thenInner ((b.push item).arm b.current)).gotos, j.1 ≠ b.current :=
      grown.plain (by simp [Ahead]; have := opened.current_lt; omega) fun j member =>
        opened.gotos_ne (by simpa using member)
    have openedElse := Open.arm grown.opened.toSane branch plain
    have second := (first.after (arm b.current)).trans (addsElse inner rfl _ openedElse)
    exact second.after (of_same (by simp) (by simp))

end Adds

end Builder

section

variable (p : Program)

/-- The items of a statement, down to a depth. Those of a loop or a choice start with its test. -/
def itemsIn : Nat → NodeId → List Item
  | 0, _ => []
  | depth + 1, id =>
    let inside (block : NodeId) : List Item := (p.children block).flatMap (itemsIn depth)
    match p.kind id with
    | .block _ => inside id
    | .cond test thenBlock elseBlock =>
      .branch test :: (inside thenBlock ++ elseBlock.toList.flatMap inside)
    | .loop test body _ => .loopTest test :: inside body
    | .forLoop _ _ body => .forHeader id :: inside body
    | .brk | .cont | .label _ | .goto _ | .fnDef .. => []
    | _ => [.stmt id]

end

variable {p : Program} {b : Builder}

open Builder in
/-- A statement adds its items, each of them once. -/
theorem adds_stmt (opened : b.Open) (depth : Nat) (id : NodeId) :
    Adds b (stmt p depth id b) (itemsIn p depth id) := by
  induction depth generalizing id b with
  | zero => exact .of_same (Nat.le_refl _) fun _ => rfl
  | succ depth ih =>
    have grows (block : NodeId) (b : Builder) (opened : b.Open) :=
      Grown.foldl (f := fun b child => Builder.stmt p depth child b)
        (fun b child opened => opened.stmt depth child) (p.children block) opened
    have inside (block : NodeId) (b : Builder) (opened : b.Open) :=
      Adds.foldl (f := fun b child => Builder.stmt p depth child b)
        (fun b child opened => opened.stmt depth child) (fun b child opened => ih opened child)
        (p.children block) opened
    rw [Builder.stmt, itemsIn]
    cases kind : p.kind id with
    | block ids => exact inside id b opened
    | cond test thenBlock elseBlock =>
      refine .choice opened _ (grows _) (inside _) (fun inner member => ?_) fun none => ?_
      · obtain ⟨block, rfl, rfl⟩ := Option.map_eq_some_iff.mp member
        rw [Option.toList_some, List.flatMap_singleton]
        exact inside block
      · rw [Option.map_eq_none_iff.mp none]
        rfl
    | loop test body testFirst =>
      cases testFirst with
      | true => exact .headedLoop _ (inside _ _ (opened.enterHeaded _))
      | false => exact .testedLoop _ (grows _ _ opened.enterTested) (inside _ _ opened.enterTested)
    | forLoop index iterable body => exact .headedLoop _ (inside _ _ (opened.enterHeaded _))
    | ret value => exact (Adds.push opened.current_lt).after .afterJump
    | brk | cont =>
      dsimp only
      split
      · exact (Adds.edge _ _).after .afterJump
      · exact .afterJump
    | label name => exact Adds.arm b.current
    | goto name => exact Adds.afterJump (b := { b with gotos := b.gotos ++ [(b.current, name)] })
    | fnDef => exact .of_same (Nat.le_refl _) fun _ => rfl
    | symRef | call | namedArg | literal | prim | assign | define => exact .push opened.current_lt

/-- Items that stand at or below different children of a node are different. -/
theorem below_of_parts (forest : p.Forest) {id : NodeId} (live : p.Live id)
    (parts : List (NodeId × List Item)) (children : (parts.map Prod.fst).Sublist (p.children id))
    (each : ∀ part ∈ parts, part.2.Nodup ∧
      ∀ item ∈ part.2, p.Live item.node ∧ p.Above part.1 item.node) :
    (parts.flatMap Prod.snd).Nodup ∧ ∀ item ∈ parts.flatMap Prod.snd,
      p.Live item.node ∧ p.Above id item.node ∧ id ≠ item.node := by
  have child {part : NodeId × List Item} (member : part ∈ parts) : part.1 ∈ p.children id :=
    children.subset (List.mem_map_of_mem member)
  constructor
  · have distinct := List.pairwise_map.mp (children.nodup (forest.children_nodup live))
    refine List.nodup_flatMap.mpr ⟨fun part member => (each part member).1, ?_⟩
    refine distinct.imp_of_mem fun {c d} ofC ofD different item inC inD => ?_
    exact different (forest.children_disjoint live (child ofC) (child ofD)
      ((each c ofC).2 item inC).2 ((each d ofD).2 item inD).2)
  · intro item member
    obtain ⟨part, ofPart, member⟩ := List.mem_flatMap.mp member
    obtain ⟨liveItem, above⟩ := (each part ofPart).2 item member
    refine ⟨liveItem, forest.above_of_child live (child ofPart) above, fun same => ?_⟩
    exact forest.acyclic (forest.child_parent live (child ofPart)) (same ▸ above)

/-- The items of a statement stand at or below it, each of them once. -/
theorem below_of_itemsIn (forest : p.Forest) (depth : Nat) {id : NodeId} (live : p.Live id) :
    (itemsIn p depth id).Nodup ∧ ∀ item ∈ itemsIn p depth id,
      p.Live item.node ∧ p.Above id item.node := by
  induction depth generalizing id with
  | zero => exact ⟨List.nodup_nil, nofun⟩
  | succ depth ih =>
    have inside {block : NodeId} (liveBlock : p.Live block) :
        ((p.children block).flatMap (itemsIn p depth)).Nodup ∧
          ∀ item ∈ (p.children block).flatMap (itemsIn p depth),
            p.Live item.node ∧ p.Above block item.node := by
      obtain ⟨nodup, below⟩ := below_of_parts forest liveBlock
        ((p.children block).map fun c => (c, itemsIn p depth c)) (by simp [Function.comp_def])
        fun part member => by
          obtain ⟨c, child, rfl⟩ := List.mem_map.mp member
          exact ih (forest.child_live liveBlock child)
      rw [List.flatMap_map] at nodup below
      exact ⟨nodup, fun item member => ⟨(below item member).1, (below item member).2.1⟩⟩
    have alone {n : NodeId} (liveN : p.Live n) (item : Item) (here : item.node = n) :
        [item].Nodup ∧ ∀ i ∈ [item], p.Live i.node ∧ p.Above n i.node := by
      refine ⟨List.nodup_singleton item, fun i member => ?_⟩
      rw [List.mem_singleton.mp member, here]
      exact ⟨liveN, .refl⟩
    have child {c : NodeId} (is : c ∈ (p.kind id).children) : p.Live c := forest.child_live live is
    rw [itemsIn]
    cases kind : p.kind id with
    | block ids => exact inside live
    | brk | cont | label | goto | fnDef => exact ⟨List.nodup_nil, nofun⟩
    | symRef | call | namedArg | literal | prim | assign | define | ret => exact alone live _ rfl
    | cond test thenBlock elseBlock =>
      rw [kind] at child
      obtain ⟨nodup, below⟩ := below_of_parts forest live
        ((test, [.branch test]) :: (thenBlock, (p.children thenBlock).flatMap (itemsIn p depth)) ::
          elseBlock.toList.map fun b => (b, (p.children b).flatMap (itemsIn p depth)))
        (by simp [Program.children, kind, NodeKind.children, Function.comp_def]) fun part member => by
          simp only [List.mem_cons, List.mem_map, Option.mem_toList] at member
          obtain rfl | rfl | ⟨b, isElse, rfl⟩ := member
          · exact alone (child (by simp [NodeKind.children])) _ rfl
          · exact inside (child (by simp [NodeKind.children]))
          · exact inside (child (by simp [NodeKind.children, isElse]))
      simp only [List.flatMap_cons, List.flatMap_map, List.singleton_append] at nodup below
      exact ⟨nodup, fun item member => ⟨(below item member).1, (below item member).2.1⟩⟩
    | loop test body testFirst =>
      rw [kind] at child
      obtain ⟨nodup, below⟩ := below_of_parts forest live
        [(test, [.loopTest test]), (body, (p.children body).flatMap (itemsIn p depth))]
        (by simp [Program.children, kind, NodeKind.children]) fun part member => by
          rcases List.mem_pair.mp member with rfl | rfl
          · exact alone (child (by simp [NodeKind.children])) _ rfl
          · exact inside (child (by simp [NodeKind.children]))
      simp only [List.flatMap_cons, List.flatMap_nil, List.append_nil, List.singleton_append] at nodup below
      exact ⟨nodup, fun item member => ⟨(below item member).1, (below item member).2.1⟩⟩
    | forLoop index iterable body =>
      rw [kind] at child
      obtain ⟨nodup, below⟩ := below_of_parts forest live
        [(body, (p.children body).flatMap (itemsIn p depth))]
        (by simp [Program.children, kind, NodeKind.children]) fun part member => by
          rw [List.mem_singleton.mp member]
          exact inside (child (by simp [NodeKind.children]))
      simp only [List.flatMap_cons, List.flatMap_nil, List.append_nil] at nodup below
      refine ⟨List.nodup_cons.mpr ⟨fun member => (below _ member).2.2 rfl, nodup⟩, fun item member => ?_⟩
      rcases List.mem_cons.mp member with rfl | member
      · exact ⟨live, .refl⟩
      · exact ⟨(below item member).1, (below item member).2.1⟩

/-- An item is what it says: its node is of the construct that the item is made from. -/
def Item.Stands (p : Program) : Item → Prop
  | .stmt id => (p.kind id).isSimple = true ∨ ∃ value, p.kind id = .ret value
  | .branch test | .loopTest test => (p.kind test).isExpr = true
  | .forHeader id => ∃ index iterable body, p.kind id = .forLoop index iterable body

theorem stands_of_itemsIn (tidy : p.Tidy) (depth : Nat) {id : NodeId} (live : p.Live id) {item : Item}
    (member : item ∈ itemsIn p depth id) : item.Stands p := by
  induction depth generalizing id with
  | zero => exact (List.not_mem_nil member).elim
  | succ depth ih =>
    have lawful := tidy.lawful live
    have inside {block : NodeId} (child : block ∈ (p.kind id).children)
        (member : item ∈ (p.children block).flatMap (itemsIn p depth)) : item.Stands p := by
      obtain ⟨c, ofBlock, member⟩ := List.mem_flatMap.mp member
      have liveBlock := tidy.sound.forest.child_live live child
      exact ih (tidy.sound.forest.child_live liveBlock ofBlock) member
    rw [itemsIn] at member
    cases kind : p.kind id <;> simp only [kind] at member lawful inside
    case block ids =>
      obtain ⟨c, ofBlock, member⟩ := List.mem_flatMap.mp member
      exact ih (tidy.sound.forest.child_live live ofBlock) member
    case brk | cont | label | goto | fnDef => exact (List.not_mem_nil member).elim
    case symRef | call | namedArg | literal | prim | assign | define =>
      rw [List.mem_singleton.mp member]
      exact .inl (by rw [kind]; rfl)
    case ret value =>
      rw [List.mem_singleton.mp member]
      exact .inr ⟨value, kind⟩
    case cond test thenBlock elseBlock =>
      simp only [List.mem_cons, List.mem_append] at member
      obtain rfl | member | member := member
      · have fits : p.Fits test .expr := lawful.fits (by simp [NodeKind.slots])
        exact fits
      · exact inside (by simp [NodeKind.children]) member
      · obtain ⟨b, isElse, member⟩ := List.mem_flatMap.mp member
        exact inside (by simp [NodeKind.children, Option.mem_toList.mp isElse]) member
    case loop test body testFirst =>
      rcases List.mem_cons.mp member with rfl | member
      · have fits : p.Fits test .test := lawful.fits (by simp [NodeKind.slots])
        exact NodeKind.isExpr_iff.mpr (.inl fits)
      · exact inside (by simp [NodeKind.children]) member
    case forLoop index iterable body =>
      rcases List.mem_cons.mp member with rfl | member
      · exact ⟨index, iterable, body, kind⟩
      · exact inside (by simp [NodeKind.children]) member

/-- The items of a graph are those of the statements of the body. -/
theorem Graph.contents_perm {f : SymbolId} {g : Graph} (built : Graph.build p f = .ok g) :
    ∃ body, p.fnBody? f = some body ∧
      (contents g.blocks).Perm ((p.children body).flatMap (itemsIn p (p.nodes.size + 1))) := by
  obtain ⟨body, found, resolved, _⟩ := resolved_of_build built
  have adds := Builder.Adds.foldl (f := fun b child => Builder.stmt p (p.nodes.size + 1) child b)
    (fun b child opened => opened.stmt _ child) (fun b child opened => adds_stmt opened _ child)
    (p.children body) Builder.open_empty
  have same : contents g.blocks = contents (Builder.stmts p body {}).blocks :=
    contents_of_same (Nat.le_of_eq resolved.size.symm) resolved.items
  have empty : contents ({} : Builder).blocks = [] := rfl
  rw [Builder.Adds, empty, List.nil_append] at adds
  exact ⟨body, found, same ▸ adds⟩

/-- The graph of a function has each item once, and all of them come from below its body. -/
theorem Graph.contents_of_build {f : SymbolId} {g : Graph} {d : NodeId} (tidy : p.Tidy)
    (placed : p.Placed f d) (built : Graph.build p f = .ok g) : ∃ body, p.fnBody? f = some body ∧
      (contents g.blocks).Nodup ∧ ∀ item ∈ contents g.blocks,
        p.Live item.node ∧ p.Above body item.node ∧ body ≠ item.node ∧ item.Stands p := by
  obtain ⟨_, formals, inner, kind, found⟩ := tidy.fnBody?_eq placed
  obtain ⟨body, foundBody, listed⟩ := contents_perm built
  cases Option.some.inj (found.symm.trans foundBody)
  have forest := tidy.sound.forest
  have live : p.Live inner := forest.child_live (tidy.sound.live_of_reached placed.1)
    (by simp [Program.children, kind, NodeKind.children])
  obtain ⟨nodup, below⟩ := below_of_parts forest live
    ((p.children inner).map fun c => (c, itemsIn p (p.nodes.size + 1) c)) (by simp [Function.comp_def])
    fun part member => by
      obtain ⟨c, child, rfl⟩ := List.mem_map.mp member
      exact below_of_itemsIn forest _ (forest.child_live live child)
  rw [List.flatMap_map] at nodup below
  refine ⟨inner, foundBody, listed.nodup_iff.mpr nodup, fun item member => ?_⟩
  have member := listed.mem_iff.mp member
  obtain ⟨liveItem, above, different⟩ := below item member
  obtain ⟨c, child, ofC⟩ := List.mem_flatMap.mp member
  exact ⟨liveItem, above, different, stands_of_itemsIn tidy _ (forest.child_live live child) ofC⟩

end MiddleEnd.Flow
