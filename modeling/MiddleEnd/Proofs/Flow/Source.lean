import MiddleEnd.Proofs.Closure.Nesting
import MiddleEnd.Proofs.Flow.Plain

/-! The statements of a body, as a walk over it meets them. -/

namespace MiddleEnd

namespace NodeKind

/-- Of a statement that is no block, a list that only blocks add to comes from the blocks inside. -/
theorem flatMap_children {α : Type} {k : NodeKind} {g : NodeId → List α} (fnDef : k.isFnDef = false)
    (block : k.isBlock = false)
    (leaf : ∀ {slot : Slot} {c : NodeId}, (slot, c) ∈ k.slots → slot ≠ .block → g c = []) :
    k.children.flatMap g = k.bodies.flatMap g := by
  have none {ids : List NodeId} (each : ∀ c ∈ ids, g c = []) : ids.flatMap g = [] :=
    List.flatMap_eq_nil_iff.mpr each
  cases k <;> simp [isFnDef, isBlock] at fnDef block <;> simp only [slots] at leaf <;>
    simp only [children, bodies, List.flatMap_cons, List.flatMap_nil]
  case call | prim => exact none fun c member => leaf (List.mem_map_of_mem member) (by decide)
  case ret | define => exact none fun c member => leaf (List.mem_map_of_mem member) (by decide)
  all_goals grind

theorem mem_bodies_of_slot {k : NodeKind} {c : NodeId} (other : k.isFnDef = false)
    (member : (Slot.block, c) ∈ k.slots) : c ∈ k.bodies := by
  cases k <;> simp_all [slots, bodies, isFnDef]

theorem not_fnDef_of_block {k : NodeKind} (block : k.isBlock = true) : k.isFnDef = false := by
  cases k <;> simp_all [isBlock, isFnDef]

end NodeKind

namespace Program

variable {p : Program} {w : Walk} {n c owner : NodeId}

/-- Does the node stand directly in a block? -/
def inBlock (p : Program) (n : NodeId) : Bool := (p.parent? n).any fun owner => (p.kind owner).isBlock

theorem inBlock_of_parent (link : p.parent? n = some owner) :
    p.inBlock n = (p.kind owner).isBlock := by
  rw [inBlock, link, Option.any_some]

/-- Below what is no statement nothing stands in a block. -/
theorem filter_order_of_leaf (tidy : p.Tidy) {slot : Slot} (live : p.Live n)
    (other : (p.kind n).isBlock = false) (member : (slot, c) ∈ (p.kind n).slots) (leaf : slot ≠ .block) :
    (w.order p c).filter p.inBlock = [] := by
  have forest := tidy.sound.forest
  have child : c ∈ p.children n := NodeKind.mem_children_iff.mpr ⟨slot, member⟩
  have plain {m : NodeId} (liveM : p.Live m) (above : p.Above c m) : (p.kind m).isBlock = false := by
    have fits := (tidy.lawful live).fits member
    cases slot with
    | stmt => simp [NodeKind.block_of_stmt_slot member] at other
    | block => exact (leaf rfl).elim
    | expr => exact NodeKind.isBlock_of_expr (tidy.expr_of_above fits liveM above)
    | test =>
      exact NodeKind.isBlock_of_expr
        (tidy.expr_of_above (NodeKind.isExpr_iff.mpr (.inl fits)) liveM above)
    | index | formal =>
      obtain ⟨tag, _⟩ := fits
      by_cases same : c = m
      · rw [← same]
        cases kind : p.kind c <;> simp [kind, NodeKind.tag] at tag
        rfl
      · exact NodeKind.isBlock_of_expr
          (tidy.expr_below (NodeKind.slot_of_define tag) liveM above same)
  refine List.filter_eq_nil_iff.mpr fun m met => ?_
  obtain ⟨liveM, above⟩ := forest.mem_preorder.mp ((forest.order_sublist_preorder w c).subset met)
  rw [Bool.not_eq_true]
  cases above with
  | refl => rw [inBlock_of_parent (forest.child_parent live child), other]
  | up link above => rw [inBlock_of_parent link, plain (forest.owner_live liveM link) above]

/-- The body of a function is a block that stands in no other. -/
theorem Tidy.body_of_placed (tidy : p.Tidy) {f : SymbolId} {d body : NodeId}
    (placed : p.Placed f d) (found : p.fnBody? f = some body) :
    p.Live body ∧ (p.kind body).isBlock = true ∧ p.inBlock body = false := by
  have forest := tidy.sound.forest
  obtain ⟨_, formals, _, kind, found'⟩ := tidy.fnBody?_eq placed
  cases found.symm.trans found'
  have live := tidy.sound.live_of_reached placed.1
  have child : body ∈ p.children d := by simp [Program.children, kind, NodeKind.children]
  have fits : p.Fits body .block := (tidy.lawful live).fits (by simp [kind, NodeKind.slots])
  refine ⟨forest.child_live live child, fits, ?_⟩
  rw [inBlock_of_parent (forest.child_parent live child), kind]
  rfl

end Program

namespace Flow

open Program

section

variable (p : Program)

/-- The statements of a statement, itself the first, down to a depth. -/
def stmtsIn : Nat → NodeId → List NodeId
  | 0, _ => []
  | depth + 1, id =>
    let inside (block : NodeId) : List NodeId := (p.children block).flatMap (stmtsIn depth)
    id :: (if (p.kind id).isBlock then [id] else (p.kind id).bodies).flatMap inside

end

variable {p : Program}

/-- The way down to a statement goes through statements and the blocks inside them: it is no part of an
expression or a definition. -/
theorem inner_of_child (tidy : p.Tidy) {n c m : NodeId} (live : p.Live n)
    (other : (p.kind n).isFnDef = false) (child : c ∈ p.children n) (liveM : p.Live m)
    (above : p.Above c m) (notExpr : (p.kind m).isExpr = false) (notDefine : (p.kind m).tag ≠ .define) :
    (p.kind n).isBlock = true ∨ (p.kind c).isBlock = true ∧ c ∈ (p.kind n).bodies := by
  obtain ⟨slot, member, fits⟩ := tidy.slot_of_child live child
  cases slot with
  | stmt => exact .inl (NodeKind.block_of_stmt_slot member)
  | block => exact .inr ⟨fits, NodeKind.mem_bodies_of_slot other member⟩
  | expr =>
    rw [tidy.expr_of_above fits liveM above] at notExpr
    cases notExpr
  | test =>
    rw [tidy.expr_of_above (NodeKind.isExpr_iff.mpr (.inl fits)) liveM above] at notExpr
    cases notExpr
  | index | formal =>
    obtain ⟨tag, _⟩ := fits
    have different : c ≠ m := by
      rintro rfl
      exact notDefine tag
    rw [tidy.expr_below (NodeKind.slot_of_define tag) liveM above different] at notExpr
    cases notExpr

/-- The walk over a body that does not enter the functions defined in it. -/
abbrev bodyWalk (body : NodeId) : Walk := (Walk.start body).skippingNested

theorem opens_bodyWalk {body n : NodeId} (plain : (p.kind body).isFnDef = false) :
    (bodyWalk body).opens p n = if (p.kind n).isFnDef then [] else p.children n := by
  by_cases same : n = body
  · simp [Walk.opens, Walk.start, Walk.skippingNested, same, plain]
  · simp [Walk.opens, Walk.start, Walk.skippingNested, same]

/-- What holds of the statements in a block holds of the block. -/
theorem children_stmtsIn (tidy : p.Tidy) {depth : Nat} {body block : NodeId} (live : p.Live block)
    (isBlock : (p.kind block).isBlock = true)
    (each : ∀ {c : NodeId}, c ∈ p.children block → stmtsIn p depth c =
      c :: (((bodyWalk body).opens p c).flatMap ((bodyWalk body).order p)).filter p.inBlock) :
    (p.children block).flatMap (stmtsIn p depth) =
      ((p.children block).flatMap ((bodyWalk body).order p)).filter p.inBlock := by
  have forest := tidy.sound.forest
  rw [List.filter_flatMap]
  refine List.flatMap_congr fun c child => ?_
  have top : p.inBlock c = true := by
    rw [inBlock_of_parent (forest.child_parent live child), isBlock]
  rw [each child, forest.order_eq, if_pos (forest.child_live live child), List.filter_cons, if_pos top]

section

variable {body : NodeId} (tidy : p.Tidy) (plain : (p.kind body).isFnDef = false)

include tidy plain

/-- The statements of a statement are what the walk meets there directly in a block. -/
theorem stmtsIn_eq {depth : Nat} {n : NodeId} (live : p.Live n)
    (room : p.nodes.size - (p.path n).length < depth) :
    stmtsIn p depth n =
      n :: (((bodyWalk body).opens p n).flatMap ((bodyWalk body).order p)).filter p.inBlock := by
  have forest := tidy.sound.forest
  induction depth generalizing n with
  | zero => omega
  | succ depth ih =>
    have inside {block : NodeId} (liveBlock : p.Live block) (isBlock : (p.kind block).isBlock = true)
        (roomBlock : p.nodes.size - (p.path block).length < depth + 1) :
        (p.children block).flatMap (stmtsIn p depth) =
          ((p.children block).flatMap ((bodyWalk body).order p)).filter p.inBlock := by
      refine children_stmtsIn tidy liveBlock isBlock fun child => ih (forest.child_live liveBlock child) ?_
      have closer := forest.room_child liveBlock child
      omega
    rw [stmtsIn, opens_bodyWalk plain]
    congr 1
    by_cases isBlock : (p.kind n).isBlock = true
    · rw [if_pos isBlock, NodeKind.not_fnDef_of_block isBlock, List.flatMap_singleton]
      exact inside live isBlock room
    rw [Bool.not_eq_true] at isBlock
    rw [isBlock]
    by_cases fnDef : (p.kind n).isFnDef = true
    · cases kind : p.kind n <;> simp [kind, NodeKind.isFnDef] at fnDef
      rfl
    rw [Bool.not_eq_true] at fnDef
    simp only [fnDef, Bool.false_eq_true, if_false]
    -- Of the children only the blocks have statements, and they are none themselves.
    rw [List.filter_flatMap, Program.children, NodeKind.flatMap_children fnDef isBlock
      fun member leaf => filter_order_of_leaf tidy live isBlock member leaf]
    refine List.flatMap_congr fun block inner => ?_
    have child := NodeKind.child_of_body inner
    have liveBlock := forest.child_live live child
    have fits : (p.kind block).isBlock = true := by
      have member : (Slot.block, block) ∈ (p.kind n).slots := by
        cases kind : p.kind n <;> simp_all [NodeKind.bodies, NodeKind.slots]
      exact (tidy.lawful live).fits member
    have closer := forest.room_child live child
    rw [inside liveBlock fits (by omega), forest.order_eq, if_pos liveBlock, List.filter_cons,
      inBlock_of_parent (forest.child_parent live child), isBlock, opens_bodyWalk plain,
      NodeKind.not_fnDef_of_block fits]
    rfl

end

/-- The statements of a body outside the functions that are defined in it, in source order. -/
def statements (p : Program) (body : NodeId) : List NodeId :=
  ((bodyWalk body).toList p).filter p.inBlock

theorem statements_eq (forest : p.Forest) (body : NodeId) :
    statements p body = ((bodyWalk body).order p body).filter p.inBlock := by
  rw [statements, forest.toList_eq, Walk.yields_of_no_tag rfl]
  simp [Walk.start, Walk.skippingNested]

theorem mem_statements (forest : p.Forest) {body n : NodeId} (live : p.Live body) :
    n ∈ statements p body ↔ p.Own body n ∧ p.inBlock n = true := by
  rw [statements_eq forest, List.mem_filter, forest.mem_order live]

/-- The statements of a body are those in the block that it is, down to whatever depth is enough. -/
theorem flatMap_stmtsIn_of_room (tidy : p.Tidy) {body : NodeId} (live : p.Live body)
    (isBlock : (p.kind body).isBlock = true) (top : p.inBlock body = false) {depth : Nat}
    (room : p.nodes.size < depth) : (p.children body).flatMap (stmtsIn p depth) = statements p body := by
  have forest := tidy.sound.forest
  have plain := NodeKind.not_fnDef_of_block isBlock
  rw [statements_eq forest, forest.order_eq, if_pos live, List.filter_cons, top,
    opens_bodyWalk plain, plain]
  exact children_stmtsIn tidy live isBlock fun child =>
    stmtsIn_eq tidy plain (forest.child_live live child) (by omega)

/-- The graph of a function is built from the statements of its body. -/
theorem flatMap_stmtsIn (tidy : p.Tidy) {body : NodeId} (live : p.Live body)
    (isBlock : (p.kind body).isBlock = true) (top : p.inBlock body = false) :
    (p.children body).flatMap (stmtsIn p (p.nodes.size + 1)) = statements p body :=
  flatMap_stmtsIn_of_room tidy live isBlock top (Nat.lt_succ_self _)

/-- The item that a statement adds to the graph. -/
def itemOf? (p : Program) (n : NodeId) : Option Item :=
  match p.kind n with
  | .cond test _ _ => some (.branch test)
  | .loop test _ _ => some (.loopTest test)
  | .forLoop .. => some (.forHeader n)
  | .block _ | .brk | .cont | .label _ | .goto _ | .fnDef .. => none
  | _ => some (.stmt n)

theorem itemsIn_eq (depth : Nat) (n : NodeId) :
    itemsIn p depth n = (stmtsIn p depth n).filterMap (itemOf? p) := by
  induction depth generalizing n with
  | zero => rfl
  | succ depth ih =>
    have inside (block : NodeId) : (p.children block).flatMap (itemsIn p depth) =
        ((p.children block).flatMap (stmtsIn p depth)).filterMap (itemOf? p) := by
      rw [List.filterMap_flatMap]
      exact List.flatMap_congr fun c _ => ih c
    rw [itemsIn, stmtsIn]
    cases kind : p.kind n <;>
      simp [itemOf?, kind, inside, NodeKind.isBlock, NodeKind.bodies, List.filterMap_flatMap]

/-- What only statements of one construct give is found among them as by a walk for the construct. -/
theorem filterMap_collectOwn {α : Type} (tidy : p.Tidy) {body : NodeId} (live : p.Live body)
    (tag : NodeTag) (keep : NodeKind → Option α) (only : ∀ {k : NodeKind}, k.tag ≠ tag → keep k = none)
    (other : (p.kind body).tag ≠ tag)
    (stands : ∀ {n : NodeId} {slot : Slot}, (p.kind n).tag = tag → p.Fits n slot → slot = .stmt) :
    (p.collectOwn tag body).filterMap (fun n => keep (p.kind n)) =
      (statements p body).filterMap fun n => keep (p.kind n) := by
  have forest := tidy.sound.forest
  rw [forest.collectOwn_eq, statements_eq forest, List.filterMap_filter, List.filterMap_filter]
  refine List.filterMap_congr fun n met => ?_
  by_cases same : (p.kind n).tag = tag
  · have own := (forest.mem_order live).mp met
    have liveN := forest.live_of_own live own
    have placed : p.inBlock n = true := by
      cases forest.above_of_own live own with
      | refl => exact (other same).elim
      | up link _ =>
        rw [inBlock_of_parent link]
        exact tidy.block_of_owner liveN link fun _ fits => stands same fits
    simp [same, placed]
  · simp [Ne.symm same, only same]

end Flow

end MiddleEnd
