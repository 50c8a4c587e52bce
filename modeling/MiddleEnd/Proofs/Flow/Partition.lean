import MiddleEnd.Proofs.Flow.Jumps
import MiddleEnd.Proofs.Flow.Layout
import MiddleEnd.Proofs.Flow.Paired
import MiddleEnd.Proofs.Surface.Lowering

/-! A flow graph holds each part of a body once, and only an unknown label stands in its way. -/

namespace MiddleEnd

namespace Flow

open Program

variable {p : Program}

/-! What the graph of a body holds. -/

/-- The item is made of a part of the body outside the functions defined in it. -/
def Item.Within (p : Program) (body : NodeId) : Item → Prop
  | .stmt n => p.Own body n ∧ p.inBlock n = true ∧
      ((p.kind n).isSimple = true ∨ ∃ value, p.kind n = .ret value)
  | .branch test => ∃ n thenBlock elseBlock, p.Own body n ∧ p.kind n = .cond test thenBlock elseBlock
  | .loopTest test => ∃ n inner testFirst, p.Own body n ∧ p.kind n = .loop test inner testFirst
  | .forHeader n => p.Own body n ∧ ∃ index iterable inner, p.kind n = .forLoop index iterable inner

/-- Conditionals and loops stand in blocks. -/
theorem inBlock_of_compound (tidy : p.Tidy) {body n : NodeId} (live : p.Live body)
    (isBlock : (p.kind body).isBlock = true) (own : p.Own body n)
    (compound : (p.kind n).tag = .cond ∨ (p.kind n).tag = .loop ∨ (p.kind n).tag = .forLoop) :
    p.inBlock n = true := by
  have forest := tidy.sound.forest
  cases forest.above_of_own live own with
  | refl =>
    rw [NodeKind.isBlock_iff.mp isBlock] at compound
    simp at compound
  | up link _ =>
    rw [inBlock_of_parent link]
    refine tidy.block_of_owner (forest.live_of_own live own) link fun slot fits => ?_
    cases slot <;> rcases compound with tag | tag | tag <;>
      simp [Fits, NodeKind.isExpr_iff, NodeKind.isBlock_iff, tag] at fits ⊢

theorem mem_filterMap_itemOf? (tidy : p.Tidy) {body : NodeId} (live : p.Live body)
    (isBlock : (p.kind body).isBlock = true) {item : Item} :
    item ∈ (statements p body).filterMap (itemOf? p) ↔ item.Within p body := by
  simp only [List.mem_filterMap, mem_statements tidy.sound.forest live]
  constructor
  · rintro ⟨n, ⟨own, stands⟩, made⟩
    unfold itemOf? at made
    cases kind : p.kind n <;> simp only [kind, Option.some.injEq, reduceCtorEq] at made <;> subst made
    case cond test thenBlock elseBlock => exact ⟨n, thenBlock, elseBlock, own, kind⟩
    case loop test inner testFirst => exact ⟨n, inner, testFirst, own, kind⟩
    case forLoop index iterable inner => exact ⟨own, index, iterable, inner, kind⟩
    case ret value => exact ⟨own, stands, .inr ⟨value, kind⟩⟩
    all_goals exact ⟨own, stands, .inl (by rw [kind]; rfl)⟩
  · have compound {n : NodeId} (own : p.Own body n) := inBlock_of_compound tidy live isBlock own
    intro within
    cases item with
    | stmt n =>
      obtain ⟨own, stands, simple | ⟨value, kind⟩⟩ := within
      · refine ⟨n, ⟨own, stands⟩, ?_⟩
        unfold itemOf?
        cases kind : p.kind n <;> simp [kind, NodeKind.isSimple] at simple ⊢
      · exact ⟨n, ⟨own, stands⟩, by simp [itemOf?, kind]⟩
    | branch test =>
      obtain ⟨n, _, _, own, kind⟩ := within
      exact ⟨n, ⟨own, compound own (by simp [kind, NodeKind.tag])⟩, by simp [itemOf?, kind]⟩
    | loopTest test =>
      obtain ⟨n, _, _, own, kind⟩ := within
      exact ⟨n, ⟨own, compound own (by simp [kind, NodeKind.tag])⟩, by simp [itemOf?, kind]⟩
    | forHeader n =>
      obtain ⟨own, _, _, _, kind⟩ := within
      exact ⟨n, ⟨own, compound own (by simp [kind, NodeKind.tag])⟩, by simp [itemOf?, kind]⟩

/-- A statement among others is one of them or stands in a block of one of them. -/
theorem mem_stmtsIn_cons {depth : Nat} {id n : NodeId} {rest : List NodeId}
    (member : n ∈ (id :: rest).flatMap (stmtsIn p depth)) : n = id ∨
      (∃ block ∈ if (p.kind id).isBlock then [id] else (p.kind id).bodies, ∃ below,
        n ∈ (p.children block).flatMap (stmtsIn p below)) ∨ n ∈ rest.flatMap (stmtsIn p depth) := by
  rw [List.flatMap_cons, List.mem_append] at member
  rcases member with here | later
  · cases depth with
    | zero => exact (List.not_mem_nil here).elim
    | succ depth =>
      rw [stmtsIn] at here
      rcases List.mem_cons.mp here with rfl | inside
      · exact .inl rfl
      · obtain ⟨block, inner, member⟩ := List.mem_flatMap.mp inside
        exact .inr (.inl ⟨block, inner, depth, member⟩)
  · exact .inr (.inr later)

/-- Where a return is laid out, its block ends and leads nowhere. -/
theorem Laid.parts_of_ret {blocks : Array Block} {targets : String → Option Nat}
    {loops : List (Nat × Nat)} {stmts : List NodeId} {start stop : Spot} {marks : List (String × Nat)}
    (laid : Laid p blocks targets loops stmts start stop marks) {n : NodeId} {value : Option NodeId}
    (isRet : p.kind n = .ret value) {depth : Nat} (member : n ∈ stmts.flatMap (stmtsIn p depth)) :
    ∃ spot, Parts blocks spot (.stmt n) [] := by
  induction laid generalizing depth with
  | nil => exact (List.not_mem_nil member).elim
  | block kind _ _ ihInside ih =>
    obtain rfl | ⟨_, inner, _, inside⟩ | later := mem_stmtsIn_cons member
    · cases isRet.symm.trans kind
    · simp only [kind, NodeKind.isBlock, if_true, List.mem_singleton] at inner
      exact ihInside (inner ▸ inside)
    · exact ih later
  | cond kind _ _ _ _ ihInside ih =>
    obtain rfl | ⟨_, inner, _, inside⟩ | later := mem_stmtsIn_cons member
    · cases isRet.symm.trans kind
    · simp [kind, NodeKind.isBlock, NodeKind.bodies] at inner
      exact ihInside (inner ▸ inside)
    · exact ih later
  | condElse kind _ _ _ _ _ _ ihThen ihElse ih =>
    obtain rfl | ⟨_, inner, _, inside⟩ | later := mem_stmtsIn_cons member
    · cases isRet.symm.trans kind
    · simp [kind, NodeKind.isBlock, NodeKind.bodies] at inner
      rcases inner with rfl | rfl
      · exact ihThen inside
      · exact ihElse inside
    · exact ih later
  | headed head _ _ _ _ _ ihInside ih =>
    obtain rfl | ⟨_, inner, _, inside⟩ | later := mem_stmtsIn_cons member
    · cases head with
      | loop kind | forLoop kind => cases isRet.symm.trans kind
    · cases head with
      | loop kind | forLoop kind =>
        simp [kind, NodeKind.isBlock, NodeKind.bodies] at inner
        exact ihInside (inner ▸ inside)
    · exact ih later
  | tested kind _ _ _ _ _ ihInside ih =>
    obtain rfl | ⟨_, inner, _, inside⟩ | later := mem_stmtsIn_cons member
    · cases isRet.symm.trans kind
    · simp [kind, NodeKind.isBlock, NodeKind.bodies] at inner
      exact ihInside (inner ▸ inside)
    · exact ih later
  | ret kind parts _ ih =>
    obtain rfl | ⟨_, inner, _⟩ | later := mem_stmtsIn_cons member
    · exact ⟨_, parts⟩
    · simp [kind, NodeKind.isBlock, NodeKind.bodies] at inner
    · exact ih later
  | brk kind _ _ ih | cont kind _ _ ih | label kind _ _ ih | goto kind _ _ _ ih =>
    obtain rfl | ⟨_, inner, _⟩ | later := mem_stmtsIn_cons member
    · cases isRet.symm.trans kind
    · simp [kind, NodeKind.isBlock, NodeKind.bodies] at inner
    · exact ih later
  | @fnDef _ id _ _ _ _ kind _ ih | @simple _ id _ _ _ _ kind _ _ ih =>
    obtain rfl | ⟨_, inner, _⟩ | later := mem_stmtsIn_cons member
    · rw [isRet] at kind
      cases kind
    · cases is : p.kind id <;> simp [is, NodeKind.isFnDef, NodeKind.isSimple] at kind <;>
        simp [is, NodeKind.isBlock, NodeKind.bodies] at inner
    · exact ih later

/-- The blocks of a graph divide up a body: each part stands in one place, the edge lists agree, and
nothing leads on from a return. -/
structure Graph.Divides (p : Program) (body : NodeId) (g : Graph) : Prop where
  once : (contents g.blocks).Nodup
  mem_iff {item : Item} : item ∈ contents g.blocks ↔ item.Within p body
  succ_nodup (x : Nat) : (g.block x).succ.Nodup
  pred_nodup (x : Nat) : (g.block x).pred.Nodup
  succ_lt {x y : Nat} : y ∈ (g.block x).succ → y < g.blocks.size
  pred_lt {x y : Nat} : y ∈ (g.block x).pred → y < g.blocks.size
  mutual_edges {x y : Nat} : y ∈ (g.block x).succ ↔ x ∈ (g.block y).pred
  ends {x : Nat} {n : NodeId} {value : Option NodeId} : (g.block x).items.getLast? = some (.stmt n) →
    p.kind n = .ret value → (g.block x).succ = []

/-- The graph of a function divides up its body. -/
theorem Graph.divides_of_build (tidy : p.Tidy) {f : SymbolId} {d : NodeId} (placed : p.Placed f d)
    {body : NodeId} (found : p.fnBody? f = some body) {g : Graph} (built : Graph.build p f = .ok g) :
    g.Divides p body := by
  have forest := tidy.sound.forest
  obtain ⟨live, isBlock, top⟩ := tidy.body_of_placed placed found
  have paired := paired_of_build built
  obtain ⟨inner, foundInner, once, _⟩ := contents_of_build tidy placed built
  cases found.symm.trans foundInner
  obtain ⟨inner, foundInner, listed⟩ := contents_perm built
  cases found.symm.trans foundInner
  have items : (p.children body).flatMap (itemsIn p (p.nodes.size + 1)) =
      (statements p body).filterMap (itemOf? p) := by
    rw [← flatMap_stmtsIn tidy live isBlock top, List.filterMap_flatMap]
    exact List.flatMap_congr fun c _ => itemsIn_eq _ c
  have member {item : Item} : item ∈ contents g.blocks ↔ item.Within p body := by
    rw [listed.mem_iff, items, mem_filterMap_itemOf? tidy live isBlock]
  constructor
  case once => exact once
  case mem_iff => exact member
  case succ_nodup => exact paired.succ_nodup
  case pred_nodup => exact paired.pred_nodup
  case succ_lt => exact succ_lt built
  case pred_lt =>
    intro x y edge
    by_contra beyond
    have none : succAt g.blocks y = [] := succAt_beyond (Nat.not_lt.mp beyond)
    have back : x ∈ succAt g.blocks y := paired.succ_iff.mpr edge
    exact List.not_mem_nil (none ▸ back)
  case mutual_edges => exact paired.succ_iff
  case ends =>
    intro x n value last kind
    obtain ⟨before, here⟩ := List.getLast?_eq_some_iff.mp last
    replace here : itemsAt g.blocks x = before ++ [.stmt n] := here
    have within : Item.Within p body (.stmt n) := member.mp (mem_contents.mpr ⟨x, by simp [here]⟩)
    obtain ⟨own, stands, _⟩ := within
    have listed : n ∈ (p.children body).flatMap (stmtsIn p (p.nodes.size + 1)) := by
      rw [flatMap_stmtsIn tidy live isBlock top]
      exact (mem_statements forest live).mpr ⟨own, stands⟩
    obtain ⟨inner, marks, stop, foundInner, laid, _⟩ := laid_of_build forest built fun inner same =>
      Option.some.inj (found.symm.trans same) ▸ live
    cases found.symm.trans foundInner
    obtain ⟨⟨y, place⟩, shows, _, leads⟩ := laid.parts_of_ret kind listed
    obtain ⟨earlier, later, there⟩ := List.append_of_mem (List.mem_of_getElem? shows)
    obtain ⟨same, _⟩ := place_unique once here there
    exact (congrArg (succAt g.blocks) same).trans leads

/-- For a function of a lowered program there is no graph exactly if a jump names no label, and the
error has the first such jump; otherwise the graph divides up the body. -/
theorem Graph.partition_of_lowered {tree : Surface.ProgramTree} (lowered : tree.lower = .ok p)
    {f : SymbolId} (registered : f ∈ p.registries.fns) : ∃ body, p.fnBody? f = some body ∧
      (∀ e, Graph.build p f = .error e ↔
        ∃ name, (gotoNames p body).find? (· ∉ labelNames p body) = some name ∧
          e = .unknownLabel (p.name f) name) ∧
      ∀ g, Graph.build p f = .ok g → g.Divides p body := by
  obtain ⟨settled, _, _⟩ := Surface.ProgramTree.lowered lowered
  obtain ⟨d, placed⟩ := settled.placed_of_registered registered
  obtain ⟨_, _, body, _, found⟩ := settled.fnBody?_eq placed
  exact ⟨body, found, fun _ => build_eq_error settled.toTidy placed found,
    fun _ => divides_of_build settled.toTidy placed found⟩

/-- The jump of `jumpingProgram` names a label, so that there is a graph, with every part of the body. -/
theorem jumpingProgram_partition : ∃ body g, Surface.jumpingProgram.fnBody? ⟨1⟩ = some body ∧
    gotoNames Surface.jumpingProgram body = ["again"] ∧ labelNames Surface.jumpingProgram body = ["again"] ∧
    Graph.build Surface.jumpingProgram ⟨1⟩ = .ok g ∧ g.Divides Surface.jumpingProgram body := by
  have registered : ⟨1⟩ ∈ Surface.jumpingProgram.registries.fns := by decide +kernel
  have names : (Surface.jumpingProgram.fnBody? ⟨1⟩).map (fun body =>
      (gotoNames Surface.jumpingProgram body, labelNames Surface.jumpingProgram body)) =
      some (["again"], ["again"]) := by
    decide +kernel
  obtain ⟨body, found, fails, divides⟩ :=
    Graph.partition_of_lowered Surface.jumpingTree_lowers registered
  rw [found, Option.map_some, Option.some.injEq, Prod.mk.injEq] at names
  cases built : Graph.build Surface.jumpingProgram ⟨1⟩ with
  | error e =>
    obtain ⟨name, bad, _⟩ := (fails e).mp built
    simp [names.1, names.2] at bad
  | ok g => exact ⟨body, g, found, names.1, names.2, rfl, divides g built⟩

/-- Of two jumps without a label the first one counts, and a label of a function inside is none of the
function around it. -/
example : (Surface.ProgramTree.lower { modules := [{ name := "main", items := [
    .fn .nowhere "f" [] none .value [] [
      .fn .nowhere "g" [] none .value [] [.label .nowhere "near"],
      .cond .nowhere (.bool true) [.goto .nowhere "near"] none,
      .goto .nowhere "far"]] }] }).toOption.map (fun p =>
        match Graph.build p ⟨1⟩ with
        | .ok _ => none
        | .error e => some e) = some (some (.unknownLabel "f" "near")) := by
  decide +kernel

end Flow

end MiddleEnd
