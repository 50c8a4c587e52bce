import MiddleEnd.Flow.Liveness
import MiddleEnd.Proofs.Flow.Contents
import MiddleEnd.Proofs.Flow.Filter
import MiddleEnd.Proofs.Store.Dead

namespace MiddleEnd

open Outcome

namespace Program

variable {p q r : Program} {gone : List NodeId}

/-- The program `q` is `p` without some assignments. -/
structure Prunes (p : Program) (gone : List NodeId) (q : Program) : Prop where
  settled : q.Settled
  shrinks : p.Shrinks q
  size : q.nodes.size = p.nodes.size
  live {n : NodeId} : q.Live n → p.Live n
  assign {store : NodeId} : store ∈ gone → (p.kind store).tag = .assign
  block {n : NodeId} {ids : List NodeId} : q.Live n → p.kind n = .block ids →
    q.kind n = .block (ids.filter (· ∉ gone))

namespace Prunes

theorem refl (settled : p.Settled) : p.Prunes [] p where
  settled := settled
  shrinks := .refl
  size := rfl
  live := id
  assign := nofun
  block _ kind := by simpa using kind

theorem trans {first second : List NodeId} (left : p.Prunes first q) (right : q.Prunes second r) :
    p.Prunes (first ++ second) r where
  settled := right.settled
  shrinks := left.shrinks.trans right.shrinks
  size := right.size.trans left.size
  live alive := left.live (right.live alive)
  assign member := by
    rcases List.mem_append.mp member with early | late
    · exact left.assign early
    · exact (left.shrinks.head _).tag.symm.trans (right.assign late)
  block alive kind := by
    rw [right.block alive (left.block (right.live alive) kind), List.filter_filter]
    simp [Bool.and_comm]

end Prunes

theorem remove_prunes (settled : p.Settled) {store owner : NodeId}
    (assign : (p.kind store).tag = .assign) (live : p.Live store) (link : p.parent? store = some owner)
    (result : p.remove store = .ok q) : p.Prunes [store] q := by
  obtain ⟨settledQ, shrinks⟩ := remove_shrinks settled assign result
  obtain ⟨_, _, edit⟩ := remove_edit settled.sound result
  have isBlock := settled.block_of_assign assign live link
  cases kindOwner : p.kind owner <;> simp [kindOwner, NodeKind.isBlock] at isBlock
  rename_i stmts
  refine ⟨settledQ, shrinks, edit.size, fun alive => (edit.live.mp alive).1, ?_, ?_⟩
  · intro other member
    rwa [List.mem_singleton.mp member]
  · intro n ids alive kind
    rw [kind_of_remove settled.sound link kindOwner result]
    by_cases here : n = owner
    · subst here
      cases kindOwner.symm.trans kind
      rw [if_pos rfl]
      congr 1
      exact List.filter_congr fun c _ => by simp [bne, Bool.beq_eq_decide_eq]
    · have elsewhere : store ∉ ids := fun member => by
        have child : store ∈ p.children n := by rwa [children, kind, NodeKind.children]
        have link' := settled.sound.forest.child_parent (edit.live.mp alive).1 child
        exact here (Option.some.inj (link'.symm.trans link))
      have kept : ids.filter (· ∉ [store]) = ids := by
        refine List.filter_eq_self.mpr fun c member => ?_
        rw [decide_eq_true_eq, List.mem_singleton]
        rintro rfl
        exact elsewhere member
      rw [if_neg here, kind, kept]

end Program

namespace Flow

variable {p q : Program} {gone : List NodeId}

/-- Is the item still there when some assignments are gone? -/
def Item.isKept (gone : List NodeId) : Item → Bool
  | .stmt id => id ∉ gone
  | _ => true

namespace Builder

theorem keep_stmt_of_gone (prunes : p.Prunes gone q) {depth : Nat} {id : NodeId} (member : id ∈ gone)
    (b : Builder) : (stmt p depth id b).keep (Item.isKept gone) = b.keep (Item.isKept gone) := by
  cases depth with
  | zero => rfl
  | succ depth =>
    have assign := prunes.assign member
    cases kind : p.kind id <;> simp [kind, NodeKind.tag] at assign
    rw [Builder.stmt, kind]
    exact keep_push_of_not (by simp [Item.isKept, member])

theorem keep_foldl (prunes : p.Prunes gone q) {depth : Nat}
    (each : ∀ c, q.Live c → c ∉ gone → ∀ b, (stmt p depth c b).keep (Item.isKept gone) =
      stmt q depth c (b.keep (Item.isKept gone)))
    {block : NodeId} (live : q.Live block) (isBlock : (p.kind block).isBlock = true) (b : Builder) :
    ((p.children block).foldl (fun b c => stmt p depth c b) b).keep (Item.isKept gone) =
      (q.children block).foldl (fun b c => stmt q depth c b) (b.keep (Item.isKept gone)) := by
  cases kind : p.kind block <;> simp [kind, NodeKind.isBlock] at isBlock
  rename_i ids
  have kindQ := prunes.block live kind
  have liveQ (c : NodeId) (member : c ∈ ids.filter (· ∉ gone)) : q.Live c :=
    prunes.settled.sound.forest.child_live live (by rwa [Program.children, kindQ])
  rw [Program.children, kind, Program.children, kindQ, NodeKind.children, NodeKind.children]
  clear kind kindQ
  induction ids generalizing b with
  | nil => rfl
  | cons c rest ih =>
    rw [List.foldl_cons]
    by_cases out : c ∈ gone
    · rw [List.filter_cons_of_neg (by simp [out])] at liveQ ⊢
      rw [ih _ liveQ, keep_stmt_of_gone prunes out]
    · rw [List.filter_cons_of_pos (by simp [out])] at liveQ ⊢
      rw [List.foldl_cons, ih _ fun c member => liveQ c (List.mem_cons_of_mem _ member),
        each c (liveQ c List.mem_cons_self) out]

/-- A statement is built without some assignments as it is built with them, less their items. -/
theorem keep_stmt (tidy : p.Tidy) (prunes : p.Prunes gone q) (depth : Nat) {id : NodeId}
    (live : q.Live id) (there : id ∉ gone) (b : Builder) :
    (stmt p depth id b).keep (Item.isKept gone) = stmt q depth id (b.keep (Item.isKept gone)) := by
  induction depth generalizing id b with
  | zero => rfl
  | succ depth ih =>
    have inside {block : NodeId} (liveBlock : q.Live block) (isBlock : (p.kind block).isBlock = true) :=
      keep_foldl prunes (fun c live there => ih live there) liveBlock isBlock
    have lawful := tidy.lawful (prunes.live live)
    have below (block : NodeId) (member : (Slot.block, block) ∈ (p.kind id).slots)
        (other : (p.kind id).isBlock = false) :
        q.Live block ∧ (p.kind block).isBlock = true := by
      have fits : p.Fits block .block := lawful.fits member
      have child : block ∈ q.children id := by
        rw [Program.children, prunes.shrinks.kind other]
        exact NodeKind.mem_children_iff.mpr ⟨_, member⟩
      exact ⟨prunes.settled.sound.forest.child_live live child, fits⟩
    by_cases isBlock : (p.kind id).isBlock = true
    · rw [Builder.stmt, Builder.stmt]
      cases kind : p.kind id <;> simp [kind, NodeKind.isBlock] at isBlock
      rw [prunes.block live kind]
      exact inside live (by rw [kind]; rfl) b
    · have other := Bool.eq_false_iff.mpr isBlock
      have kept : (Item.isKept gone) (.stmt id) = true := by simp [Item.isKept, there]
      rw [Builder.stmt, Builder.stmt, prunes.shrinks.kind other]
      cases kind : p.kind id with
      | block => simp [kind, NodeKind.isBlock] at other
      | cond test thenBlock elseBlock =>
        rw [kind] at below
        obtain ⟨liveThen, isThen⟩ := below thenBlock (by simp [NodeKind.slots]) rfl
        refine keep_choice rfl (inside liveThen isThen) ?_
        cases elseBlock with
        | none => exact .none
        | some elseBlock =>
          obtain ⟨liveElse, isElse⟩ := below elseBlock (by simp [NodeKind.slots]) rfl
          exact .some (inside liveElse isElse)
      | loop test body testFirst =>
        rw [kind] at below
        obtain ⟨liveBody, isBody⟩ := below body (by simp [NodeKind.slots]) rfl
        cases testFirst with
        | true => exact keep_headedLoop rfl (inside liveBody isBody)
        | false => exact keep_testedLoop rfl (inside liveBody isBody)
      | forLoop index iterable body =>
        rw [kind] at below
        obtain ⟨liveBody, isBody⟩ := below body (by simp [NodeKind.slots]) rfl
        exact keep_headedLoop rfl (inside liveBody isBody)
      | ret value =>
        dsimp only
        rw [keep_afterJump, keep_push kept]
      | brk | cont =>
        dsimp only [loops_keep]
        cases b.loops.head? with
        | none => exact keep_afterJump
        | some loop =>
          dsimp only
          rw [keep_afterJump, keep_edge]
          rfl
      | label name => exact keep_label (b := b) (k := Item.isKept gone) name
      | goto name => exact keep_afterJump
      | fnDef => rfl
      | symRef | call | namedArg | literal | prim | assign | define => exact keep_push kept

end Builder

namespace Graph

variable {f : SymbolId} {d : NodeId} {g : Graph}

/-- The builder for a function without some assignments is the one with them, less their items. -/
theorem stmts_of_prunes (tidy : p.Tidy) (placed : p.Placed f d) (prunes : p.Prunes gone q) :
    ∃ body, p.fnBody? f = some body ∧ q.fnBody? f = some body ∧ q.Placed f d ∧ q.name f = p.name f ∧
      (Builder.stmts p body {}).keep (Item.isKept gone) = Builder.stmts q body {} := by
  obtain ⟨_, formals, body, kind, found⟩ := tidy.fnBody?_eq placed
  have kindQ : q.kind d = .fnDef f formals body := by
    rw [prunes.shrinks.kind (by rw [kind]; rfl), kind]
  have placedQ : q.Placed f d :=
    ⟨prunes.shrinks.kept placed.1 placed.2.2, by rw [kindQ]; rfl, by rw [kindQ]; rfl⟩
  have liveD := prunes.settled.sound.live_of_reached placedQ.1
  have child : body ∈ q.children d := by simp [Program.children, kindQ, NodeKind.children]
  have liveBody := prunes.settled.sound.forest.child_live liveD child
  have isBlock : p.Fits body .block :=
    (tidy.lawful (prunes.live liveD)).fits (by simp [kind, NodeKind.slots])
  have name : q.name f = p.name f := by
    have core := congrArg Symbol.name (prunes.shrinks.core f)
    exact core
  refine ⟨body, found, (prunes.shrinks.fnBody?_eq f).trans found, placedQ, name, ?_⟩
  rw [Builder.stmts, Builder.stmts, prunes.size]
  rw [Builder.keep_foldl prunes (fun c live there => Builder.keep_stmt tidy prunes _ live there)
    liveBody isBlock, Builder.keep_empty]

/-- The graph of a function without some assignments is its graph without their items. -/
theorem build_of_prunes (tidy : p.Tidy) (placed : p.Placed f d) (prunes : p.Prunes gone q)
    (built : build p f = .ok g) : ∃ g', build q f = .ok g' ∧
      g'.blocks = g.blocks.map (Block.keep (Item.isKept gone)) ∧ q.Placed f d := by
  obtain ⟨body, found, foundQ, placedQ, name, same⟩ := stmts_of_prunes tidy placed prunes
  rw [build, found] at built
  rw [build, foundQ, name]
  dsimp only at built ⊢
  rw [← same, Builder.resolveGotos_keep]
  cases resolves : (Builder.stmts p body {}).resolveGotos (p.name f) with
  | error e =>
    rw [resolves] at built
    cases built
  | ok c =>
    rw [resolves] at built
    cases built
    exact ⟨_, rfl, rfl, placedQ⟩

/-- A function without a graph gets none by losing assignments. -/
theorem build_error_of_prunes (tidy : p.Tidy) (placed : p.Placed f d) (prunes : p.Prunes gone q)
    {e : FlowError} (fails : build p f = .error e) : build q f = .error e := by
  obtain ⟨body, found, foundQ, _, name, same⟩ := stmts_of_prunes tidy placed prunes
  rw [build, found] at fails
  rw [build, foundQ, name]
  dsimp only at fails ⊢
  rw [← same, Builder.resolveGotos_keep]
  cases resolves : (Builder.stmts p body {}).resolveGotos (p.name f) with
  | error e =>
    rw [resolves] at fails
    cases fails
    rfl
  | ok c =>
    rw [resolves] at fails
    cases fails

end Graph

/-- Below a node that owns only expressions, what is read is as before. -/
theorem reads_of_prunes (tidy : p.Tidy) (prunes : p.Prunes gone q) {root : NodeId} (live : q.Live root)
    (other : (p.kind root).isBlock = false)
    (only : ∀ {slot : Slot} {c : NodeId}, (slot, c) ∈ (p.kind root).slots → slot = .expr) :
    reads q root = reads p root := by
  let inside (n : NodeId) : Prop := q.Live n ∧ (p.kind n).isBlock = false ∧
    ∀ slot c, (slot, c) ∈ (p.kind n).slots → slot = .expr
  have kinds (n : NodeId) (here : inside n) : q.kind n = p.kind n := prunes.shrinks.kind here.2.1
  have closed (n : NodeId) (here : inside n) (c : NodeId) (child : c ∈ p.children n) : inside c := by
    obtain ⟨slot, member, fits⟩ := tidy.slot_of_child (prunes.live here.1) child
    cases here.2.2 slot c member
    have expr : (p.kind c).isExpr = true := fits
    refine ⟨prunes.settled.sound.forest.child_live here.1 ?_, ?_, fun _ _ => NodeKind.slot_of_expr expr⟩
    · rwa [Program.children, kinds n here]
    · cases kind : p.kind c <;> simp_all [NodeKind.isExpr, NodeKind.isBlock]
  have sameRef (n : NodeId) : (q.kind n).symRef? = (p.kind n).symRef? := (prunes.shrinks.head n).symRef
  rw [reads, reads, Program.collectOwn_congr prunes.size closed kinds
    (fun n here => Eq.trans here.1 (prunes.live here.1).symm) _ ⟨live, other, fun _ _ => only⟩]
  simp only [sameRef]

/-- The items that stay do what they did. -/
theorem accesses_of_prunes (tidy : p.Tidy) (prunes : p.Prunes gone q) {item : Item}
    (live : q.Live item.node) (stands : item.Stands p) : accesses q item = accesses p item := by
  have lawful := tidy.lawful (prunes.live live)
  have ofExpr {n : NodeId} (liveN : q.Live n) (expr : (p.kind n).isExpr = true) :
      reads q n = reads p n := by
    refine reads_of_prunes tidy prunes liveN ?_ (NodeKind.slot_of_expr expr)
    cases kind : p.kind n <;> simp_all [NodeKind.isExpr, NodeKind.isBlock]
  have inside {c : NodeId} (other : (p.kind item.node).isBlock = false)
      (member : (Slot.expr, c) ∈ (p.kind item.node).slots) : reads q c = reads p c := by
    have fits : p.Fits c .expr := lawful.fits member
    have child : c ∈ q.children item.node := by
      rw [Program.children, prunes.shrinks.kind other]
      exact NodeKind.mem_children_iff.mpr ⟨_, member⟩
    exact ofExpr (prunes.settled.sound.forest.child_live live child) fits
  cases item with
  | branch test | loopTest test => exact ofExpr live stands
  | forHeader id =>
    obtain ⟨index, iterable, body, kind⟩ := stands
    have other : (p.kind id).isBlock = false := by rw [kind]; rfl
    have same : (q.kind index).defines? = (p.kind index).defines? := (prunes.shrinks.head index).defines
    simp only [accesses, prunes.shrinks.kind other, kind, same]
    rw [inside other (by simp [Item.node, kind, NodeKind.slots])]
  | stmt id =>
    have other : (p.kind id).isBlock = false := by
      obtain simple | ⟨value, kind⟩ := stands
      · cases kind : p.kind id <;> simp_all [NodeKind.isSimple, NodeKind.isBlock]
      · rw [kind]
        rfl
    have whole (only : ∀ slot c, (slot, c) ∈ (p.kind id).slots → slot = .expr) :
        reads q id = reads p id := reads_of_prunes tidy prunes live other fun member => only _ _ member
    simp only [accesses, prunes.shrinks.kind other]
    cases kind : p.kind id <;> simp only [Item.Stands, kind, Item.node] at stands inside whole lawful ⊢
    case assign target value =>
      have fits : p.Fits target .expr := lawful.fits (by simp [NodeKind.slots])
      have kindTarget : q.kind target = p.kind target := prunes.shrinks.kind (by
        cases kind : p.kind target <;> simp_all [Program.Fits, NodeKind.isExpr, NodeKind.isBlock])
      rw [inside rfl (by simp [NodeKind.slots]), kindTarget]
      split
      · rfl
      · rw [inside rfl (by simp [NodeKind.slots])]
    case define sym value =>
      cases value with
      | none => rfl
      | some value =>
        dsimp only
        rw [inside rfl (by simp [NodeKind.slots])]
    case symRef | literal | call | prim | namedArg =>
      exact whole fun _ _ => NodeKind.slot_of_expr rfl
    case ret value =>
      refine whole fun slot c member => ?_
      obtain ⟨_, _, same⟩ := List.mem_map.mp member
      exact congrArg Prod.fst same.symm
    all_goals simp [NodeKind.isSimple] at stands

end Flow

end MiddleEnd
