import MiddleEnd.Proofs.Flow.Contents

namespace MiddleEnd

namespace NodeKind

/-- The blocks that a statement has inside. -/
def bodies : NodeKind → List NodeId
  | cond _ thenBlock elseBlock => thenBlock :: elseBlock.toList
  | loop _ body _ => [body]
  | forLoop _ _ body => [body]
  | _ => []

/-- The expressions that a statement reads one by one; other statements are read as a whole. -/
def operands : NodeKind → List NodeId
  | assign target value => [target, value]
  | define _ value => value.toList
  | cond test _ _ => [test]
  | loop test _ _ => [test]
  | forLoop _ iterable _ => [iterable]
  | _ => []

variable {k : NodeKind} {c : NodeId}

theorem child_of_body (member : c ∈ k.bodies) : c ∈ k.children := by
  cases k <;> simp_all [bodies, children]

theorem child_of_operand (member : c ∈ k.operands) : c ∈ k.children := by
  cases k <;> simp_all [operands, children]

theorem not_fnDef_of_part (member : c ∈ k.bodies ++ k.operands) : k.isFnDef = false := by
  cases k <;> simp_all [bodies, operands, isFnDef]

end NodeKind

namespace Program

variable {p : Program} {d body : NodeId} {f : SymbolId} {formals : List NodeId}

/-- The statements of a body that the flow graph gets to. -/
inductive Statement (p : Program) (body : NodeId) : NodeId → Prop
  | top {n : NodeId} : n ∈ p.children body → Statement p body n
  | nested {n c : NodeId} : Statement p body n → (p.kind n).isBlock = true → c ∈ p.children n →
      Statement p body c
  | inside {n block c : NodeId} : Statement p body n → block ∈ (p.kind n).bodies →
      c ∈ p.children block → Statement p body c

/-- No definition of a function stands for the body, for a block inside a statement, or for an
expression that a statement reads. It may stand as a statement, or deeper in an expression. -/
structure Plain (p : Program) (body : NodeId) : Prop where
  top : (p.kind body).isFnDef = false
  part {n c : NodeId} : p.Statement body n → c ∈ (p.kind n).bodies ++ (p.kind n).operands →
    (p.kind c).isFnDef = false

theorem own_body (kind : p.kind d = .fnDef f formals body) : p.Own d body :=
  .down .refl (.inl rfl) (by simp [children, kind, NodeKind.children])

namespace Plain

variable (plain : p.Plain body) (kind : p.kind d = .fnDef f formals body)

include plain kind

/-- The graph of a function stays in the code of the function. -/
theorem own_of_statement {n : NodeId} (stands : p.Statement body n) : p.Own d n := by
  induction stands with
  | top child => exact .down (own_body kind) (.inr plain.top) child
  | nested _ isBlock child ih =>
    refine .down ih (.inr ?_) child
    cases kindN : p.kind _ <;> simp_all [NodeKind.isBlock, NodeKind.isFnDef]
  | @inside n block c stands inner child ih =>
    have part := List.mem_append_left (p.kind n).operands inner
    have ownBlock := Own.down ih (.inr (NodeKind.not_fnDef_of_part part)) (NodeKind.child_of_body inner)
    exact .down ownBlock (.inr (plain.part stands part)) child

theorem own_of_part {n c : NodeId} (stands : p.Statement body n)
    (part : c ∈ (p.kind n).bodies ++ (p.kind n).operands) : p.Own d c := by
  refine .down (plain.own_of_statement kind stands) (.inr (NodeKind.not_fnDef_of_part part)) ?_
  rcases List.mem_append.mp part with inner | operand
  · exact NodeKind.child_of_body inner
  · exact NodeKind.child_of_operand operand

end Plain

theorem Forest.live_of_statement (forest : p.Forest) (live : p.Live body) {n : NodeId}
    (stands : p.Statement body n) : p.Live n := by
  induction stands with
  | top child => exact forest.child_live live child
  | nested _ _ child ih => exact forest.child_live ih child
  | inside _ inner child ih =>
    exact forest.child_live (forest.child_live ih (NodeKind.child_of_body inner)) child

/-- Where every child suits its place, definitions of functions stand as statements only. -/
theorem Tidy.plain (tidy : p.Tidy) (reached : p.Reached d) (kind : p.kind d = .fnDef f formals body) :
    p.Plain body := by
  have forest := tidy.sound.forest
  have not_fnDef {c : NodeId} {slot : Slot} (fits : p.Fits c slot)
      (which : slot = .expr ∨ slot = .test ∨ slot = .block) : (p.kind c).isFnDef = false := by
    rcases which with rfl | rfl | rfl <;> simp only [Fits] at fits <;>
      cases kindC : p.kind c <;>
        simp [kindC, NodeKind.isExpr, NodeKind.tag, NodeKind.isBlock, NodeKind.isFnDef] at fits ⊢
  have liveD := tidy.sound.live_of_reached reached
  have liveBody : p.Live body := forest.live_of_own liveD (own_body kind)
  constructor
  · exact not_fnDef ((tidy.lawful liveD).fits (by simp [kind, NodeKind.slots])) (.inr (.inr rfl))
  · intro n c stands part
    obtain ⟨slot, member, which⟩ : ∃ slot, (slot, c) ∈ (p.kind n).slots ∧
        (slot = .expr ∨ slot = .test ∨ slot = .block) := by
      cases kindN : p.kind n <;>
        simp only [kindN, NodeKind.bodies, NodeKind.operands, NodeKind.slots] at part ⊢ <;> grind
    exact not_fnDef ((tidy.lawful (forest.live_of_statement liveBody stands)).fits member) which

end Program

namespace Flow

variable {p : Program} {body : NodeId}

/-- The item is made of the statement. -/
def Item.Of (p : Program) (n : NodeId) : Item → Prop
  | .stmt id => id = n ∧ (p.kind n).isFnDef = false
  | .branch test => ∃ thenBlock elseBlock, p.kind n = .cond test thenBlock elseBlock
  | .loopTest test => ∃ inner testFirst, p.kind n = .loop test inner testFirst
  | .forHeader id => id = n ∧ (p.kind n).isFnDef = false

theorem exists_statement {n : NodeId} (stands : p.Statement body n) {depth : Nat} {item : Item}
    (member : item ∈ itemsIn p depth n) : ∃ m, p.Statement body m ∧ item.Of p m := by
  induction depth generalizing n with
  | zero => exact (List.not_mem_nil member).elim
  | succ depth ih =>
    have inside {block : NodeId} (inner : block ∈ (p.kind n).bodies)
        (member : item ∈ (p.children block).flatMap (itemsIn p depth)) :
        ∃ m, p.Statement body m ∧ item.Of p m := by
      obtain ⟨c, child, member⟩ := List.mem_flatMap.mp member
      exact ih (.inside stands inner child) member
    rw [itemsIn] at member
    cases kind : p.kind n <;> simp only [kind, NodeKind.bodies] at member inside
    case block ids =>
      obtain ⟨c, child, member⟩ := List.mem_flatMap.mp member
      exact ih (.nested stands (by rw [kind]; rfl) child) member
    case brk | cont | label | goto | fnDef => exact (List.not_mem_nil member).elim
    case symRef | call | namedArg | literal | prim | assign | define | ret =>
      rw [List.mem_singleton.mp member]
      exact ⟨n, stands, rfl, by rw [kind]; rfl⟩
    case cond test thenBlock elseBlock =>
      simp only [List.mem_cons, List.mem_append] at member
      obtain rfl | member | member := member
      · exact ⟨n, stands, thenBlock, elseBlock, kind⟩
      · exact inside List.mem_cons_self member
      · obtain ⟨b, isElse, member⟩ := List.mem_flatMap.mp member
        exact inside (List.mem_cons_of_mem _ isElse) member
    case loop test inner testFirst =>
      rcases List.mem_cons.mp member with rfl | member
      · exact ⟨n, stands, inner, testFirst, kind⟩
      · exact inside (List.mem_singleton_self _) member
    case forLoop index iterable inner =>
      rcases List.mem_cons.mp member with rfl | member
      · exact ⟨n, stands, rfl, by rw [kind]; rfl⟩
      · exact inside (List.mem_singleton_self _) member

end Flow

end MiddleEnd
