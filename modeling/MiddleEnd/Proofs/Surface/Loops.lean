import MiddleEnd.Flow.Liveness
import MiddleEnd.Proofs.Flow.Machine
import MiddleEnd.Proofs.Surface.Binding

/-! Where the blocks of a lowered program compute the conditions of its loops. -/

namespace MiddleEnd

/-- The statement runs in one step, and that gives a value to the variable that `test` refers to. -/
structure Program.Computes (p : Program) (d test : NodeId) : Prop where
  simple : (p.kind d).isSimple = true
  writes : ∃ t, p.kind test = .symRef t ∧ .write t ∈ Flow.accesses p (.stmt d)

/-- The condition variable of a loop is computed at the end of its body and, if the loop starts with
its test, right before the loop. -/
structure Program.Conditioned (p : Program) : Prop where
  at_end {loop test body : NodeId} {testFirst : Bool} : p.Reached loop →
    p.kind loop = .loop test body testFirst →
    ∃ inner d, p.kind body = .block (inner ++ [d]) ∧ p.Computes d test
  beforehand {block loop test body : NodeId} {done rest : List NodeId} : p.Reached block →
    p.kind block = .block (done ++ loop :: rest) → p.kind loop = .loop test body true →
    ∃ d, done.getLast? = some d ∧ p.Computes d test

namespace Surface

open Program

variable {p : Program} {frames : List Scope} {visible : List Visible} {n : NodeId}

theorem computes_of_define {d test value : NodeId} {t : SymbolId} (ref : p.kind test = .symRef t)
    (kind : p.kind d = .define t (some value)) : p.Computes d test := by
  refine ⟨by rw [kind]; rfl, t, ref, ?_⟩
  rw [Flow.accesses, kind]
  exact List.mem_append_right _ (List.mem_singleton.mpr rfl)

theorem computes_of_assign {d test target value : NodeId} {t : SymbolId}
    (ref : p.kind test = .symRef t) (kind : p.kind d = .assign target value)
    (store : p.kind target = .symRef t) : p.Computes d test := by
  refine ⟨by rw [kind]; rfl, t, ref, ?_⟩
  rw [Flow.accesses, kind]
  simp only [store]
  exact List.mem_append_right _ (List.mem_singleton.mpr rfl)

/-! What the nodes of a lowered program are. -/

/-- What a node is in the text of its program. -/
inductive Written (p : Program) (n : NodeId) : Prop where
  /-- A part of a statement. -/
  | simple : (p.kind n).isSimple = true → Written p n
  | stmt {frames : List Scope} {visible : List Visible} {st : Stmt} {nodes : List NodeId} :
      SpellsStmt p frames (resolveStmt visible st) nodes → n ∈ nodes → Written p n
  /-- The block of a loop ends with a statement that is not in the text. -/
  | block {frames : List Scope} {visible : List Visible} {body : List Stmt}
      {nodes more : List NodeId} : p.kind n = .block (nodes ++ more) →
      SpellsItems p frames (resolveItems visible body) nodes →
      (∀ m ∈ more, (p.kind m).tag = .assign) → Written p n

theorem isExpr_of_spells {e : Resolved.Expr} (spells : SpellsExpr p frames e n) :
    (p.kind n).isExpr = true := by
  cases e with
  | literal value =>
    have kind : p.kind n = .literal value := spells
    rw [kind]
    rfl
  | name naming =>
    obtain ⟨_, _, _, _, _, kind⟩ := spells
    rw [kind]
    rfl
  | call name target args =>
    obtain ⟨_, _, kind, _⟩ := spells
    rw [kind]
    rfl
  | named name value =>
    obtain ⟨_, kind, _⟩ := spells
    rw [kind]
    rfl
  | prim op args =>
    obtain ⟨_, kind, _⟩ := spells
    rw [kind]
    rfl

/-- A block with nothing in it but its text. -/
theorem Written.of_items {body : List Stmt} {nodes : List NodeId} (kind : p.kind n = .block nodes)
    (items : SpellsItems p frames (resolveItems visible body) nodes) : Written p n := by
  have whole : p.kind n = .block (nodes ++ []) := by rw [kind, List.append_nil]
  refine .block whole items fun m member => ?_
  cases member

/-- A statement of the text is no block, and its blocks hold statements of the text. -/
theorem spelled_blocks {st : Stmt} {nodes : List NodeId}
    (spells : SpellsStmt p frames (resolveStmt visible st) nodes) (member : n ∈ nodes) :
    (p.kind n).isBlock = false ∧ ∀ c, (Slot.block, c) ∈ (p.kind n).slots → Written p c := by
  have leaf {kind : NodeKind} (same : p.kind n = kind) (block : kind.isBlock = false)
      (none : ∀ c, (Slot.block, c) ∉ kind.slots) :
      (p.kind n).isBlock = false ∧ ∀ c, (Slot.block, c) ∈ (p.kind n).slots → Written p c := by
    subst same
    exact ⟨block, fun c slot => absurd slot (none c)⟩
  cases st with
  | var span name ty init flags =>
    obtain ⟨_, _, value, rfl, kind, _⟩ := spells
    cases List.mem_singleton.mp member
    exact leaf kind rfl (by simp [NodeKind.slots])
  | type span name =>
    obtain ⟨_, _, rfl, kind, _⟩ := spells
    cases List.mem_singleton.mp member
    exact leaf kind rfl (by simp [NodeKind.slots])
  | fn span name formals ret retTag flags body =>
    obtain ⟨_, _, defs, block, inner, rfl, kind, _, _, _, inside, _, items⟩ := spells
    cases List.mem_singleton.mp member
    rw [kind]
    refine ⟨rfl, fun c slot => ?_⟩
    obtain rfl : c = block := by simpa [NodeKind.slots] using slot
    exact .of_items inside items
  | assign span target value =>
    obtain ⟨_, _, _, rfl, kind, _⟩ := spells
    cases List.mem_singleton.mp member
    exact leaf kind rfl (by simp [NodeKind.slots])
  | cond span test thenBody elseBody =>
    cases elseBody with
    | none =>
      obtain ⟨_, _, block, inner, rfl, kind, _, inside, _, items⟩ := spells
      cases List.mem_singleton.mp member
      rw [kind]
      refine ⟨rfl, fun c slot => ?_⟩
      obtain rfl : c = block := by simpa [NodeKind.slots] using slot
      exact .of_items inside items
    | some elseBody =>
      obtain ⟨_, _, block, inner, other, others, rfl, kind, _, ⟨inside, _, items⟩, inOther, _,
        more⟩ := spells
      cases List.mem_singleton.mp member
      rw [kind]
      refine ⟨rfl, fun c slot => ?_⟩
      obtain rfl | rfl : c = block ∨ c = other := by simpa [NodeKind.slots] using slot
      · exact .of_items inside items
      · exact .of_items inOther more
  | loop span test body testFirst =>
    obtain ⟨_, _, _, init, tested, block, inner, assign, _, _, rfl, defined, _, kind, _, inside,
      assigns, _, _, _, items⟩ := spells
    obtain rfl | rfl := List.mem_pair.mp member
    · exact leaf defined rfl (by simp [NodeKind.slots])
    · rw [kind]
      refine ⟨rfl, fun c slot => ?_⟩
      obtain rfl : c = block := by simpa [NodeKind.slots] using slot
      refine .block inside items fun m last => ?_
      cases List.mem_singleton.mp last
      rw [assigns]
      rfl
  | forLoop span index iterable body =>
    obtain ⟨_, _, _, _, block, inner, rfl, kind, _, _, inside, _, _, _, items⟩ := spells
    cases List.mem_singleton.mp member
    rw [kind]
    refine ⟨rfl, fun c slot => ?_⟩
    obtain rfl : c = block := by simpa [NodeKind.slots] using slot
    exact .of_items inside items
  | ret span value =>
    obtain ⟨_, _, rfl, kind, _⟩ := spells
    cases List.mem_singleton.mp member
    exact leaf kind rfl (by simp [NodeKind.slots])
  | brk span | cont span | label span name | goto span name =>
    obtain ⟨_, rfl, kind⟩ := spells
    cases List.mem_singleton.mp member
    exact leaf kind rfl (by simp [NodeKind.slots])
  | expr span e =>
    obtain ⟨m, rfl, spelled⟩ := spells
    cases List.mem_singleton.mp member
    have expr := isExpr_of_spells spelled
    cases kind : p.kind n <;> simp [kind, NodeKind.isExpr] at expr <;>
      exact ⟨rfl, by simp [NodeKind.slots]⟩

theorem spelled_of_mem {body : List Stmt} {nodes : List NodeId}
    (items : SpellsItems p frames (resolveItems visible body) nodes) (member : n ∈ nodes) :
    Written p n := by
  induction body generalizing visible nodes with
  | nil =>
    cases items
    cases member
  | cons st rest ih =>
    obtain ⟨first, others, rfl, spells, items⟩ := items
    rcases List.mem_append.mp member with here | later
    · exact .stmt spells here
    · exact ih items later

/-- What stands in a node of the text stands in the text. -/
theorem Written.child (tidy : p.Tidy) {c : NodeId} (written : Written p n) (live : p.Live n)
    (child : c ∈ p.children n) : Written p c := by
  obtain ⟨slot, member, fits⟩ := tidy.slot_of_child live child
  have part : (p.kind c).isExpr = true ∨ (p.kind c).tag = .symRef ∨ (p.kind c).tag = .define →
      Written p c := by
    intro which
    refine .simple ?_
    cases kind : p.kind c <;>
      simp [kind, NodeKind.isExpr, NodeKind.tag, NodeKind.isSimple] at which ⊢
  cases slot with
  | expr => exact part (.inl fits)
  | test => exact part (.inr (.inl fits))
  | index | formal => exact part (.inr (.inr fits.1))
  | block =>
    cases written with
    | simple is =>
      cases kind : p.kind n <;> simp [kind, NodeKind.isSimple, NodeKind.slots] at is member
    | stmt spells here => exact (spelled_blocks spells here).2 c member
    | block kind => simp [kind, NodeKind.slots] at member
  | stmt =>
    have block := NodeKind.block_of_stmt_slot member
    cases written with
    | simple is => cases kind : p.kind n <;> simp [kind, NodeKind.isSimple, NodeKind.isBlock] at is block
    | stmt spells here =>
      rw [(spelled_blocks spells here).1] at block
      cases block
    | block kind items last =>
      rw [Program.children, kind] at child
      rcases List.mem_append.mp child with here | added
      · exact spelled_of_mem items here
      · refine .simple ?_
        have tag := last c added
        cases kind : p.kind c <;> simp [kind, NodeKind.tag] at tag
        rfl

/-- All that can be reached in a lowered program is written in its text. -/
theorem written_of_lowered {tree : ProgramTree} (lowered : tree.lower = .ok p)
    (reached : p.Reached n) : Written p n := by
  have settled := (ProgramTree.lowered lowered).1
  induction reached with
  | root isRoot =>
    obtain ⟨v, member, block⟩ := mem_roots.mp isRoot
    obtain ⟨i, bound, rfl⟩ := List.getElem_of_mem member
    have spelled := ProgramTree.lowered_spelled lowered
    obtain ⟨root, nodes, frame, found, kind, items⟩ :=
      spelled.get (spelled.length_eq ▸ bound) bound
    cases Option.some.inj (block.symm.trans found)
    exact .of_items kind items
  | child reached child ih =>
    exact ih.child settled.toTidy (settled.sound.live_of_reached reached) child

/-! Loops. -/

/-- A loop stands behind the definition of its condition variable, and its body computes the
variable at the end. -/
theorem loop_of_spells {st : Stmt} {nodes : List NodeId} {test body : NodeId} {testFirst : Bool}
    (spells : SpellsStmt p frames (resolveStmt visible st) nodes) (member : n ∈ nodes)
    (kind : p.kind n = .loop test body testFirst) :
    ∃ tempDef inner assign, nodes = [tempDef, n] ∧ (p.kind tempDef).tag = .define ∧
      p.kind body = .block (inner ++ [assign]) ∧ p.Computes assign test ∧
      (testFirst = true → p.Computes tempDef test) := by
  cases st with
  | loop span test' body' testFirst' =>
    obtain ⟨tempDef, loop, temp, init, tested, block, inner, assign, target, again, rfl, defined,
      initial, kind', ref, inside, assigns, store, _, _, _⟩ := spells
    obtain rfl | rfl := List.mem_pair.mp member
    · rw [defined] at kind
      cases kind
    · cases kind.symm.trans kind'
      refine ⟨tempDef, inner, assign, rfl, by rw [defined]; rfl, inside,
        computes_of_assign ref assigns store, fun first => ?_⟩
      subst first
      obtain ⟨value, rfl, _⟩ := initial
      exact computes_of_define ref defined
  | expr span e =>
    obtain ⟨m, rfl, spelled⟩ := spells
    cases List.mem_singleton.mp member
    have expr := isExpr_of_spells spelled
    rw [kind] at expr
    cases expr
  | cond span test thenBody elseBody => cases elseBody <;> grind [resolveStmt, SpellsStmt]
  | _ => grind [resolveStmt, SpellsStmt]

theorem loop_of_items {items : List Stmt} {done rest : List NodeId} {test body : NodeId}
    {testFirst : Bool}
    (spells : SpellsItems p frames (resolveItems visible items) (done ++ n :: rest))
    (kind : p.kind n = .loop test body testFirst) :
    ∃ d, done.getLast? = some d ∧ (testFirst = true → p.Computes d test) := by
  induction items generalizing visible done with
  | nil => simp [resolveItems, SpellsItems] at spells
  | cons st later ih =>
    obtain ⟨first, others, split, here, there⟩ := spells
    rcases List.append_eq_append_iff.mp split with ⟨more, firstEq, restEq⟩ | ⟨more, doneEq, rfl⟩
    · cases more with
      | nil =>
        -- The loop would be the first node of the next statement, with no definition before it.
        have alone : others = [] ++ n :: rest := restEq.symm
        rw [alone] at there
        obtain ⟨d, last, _⟩ := ih there
        cases last
      | cons m more =>
        obtain ⟨rfl, rfl⟩ := List.cons_eq_cons.mp restEq
        subst firstEq
        obtain ⟨tempDef, _, _, both, tag, _, _, computes⟩ :=
          loop_of_spells here (List.mem_append_right _ List.mem_cons_self) kind
        rcases done with _ | ⟨d, _ | ⟨e, done⟩⟩
        · cases (List.cons_eq_cons.mp both).1
          rw [kind] at tag
          cases tag
        · cases (List.cons_eq_cons.mp both).1
          exact ⟨tempDef, rfl, computes⟩
        · simp at both
    · subst doneEq
      obtain ⟨d, last, computes⟩ := ih there
      exact ⟨d, by rw [List.getLast?_append, last]; rfl, computes⟩

/-- Lowering computes the condition of a loop before each test. -/
theorem conditioned_of_lowered {tree : ProgramTree} (lowered : tree.lower = .ok p) :
    p.Conditioned where
  at_end {loop test body testFirst} reached kind := by
    cases written_of_lowered lowered reached with
    | simple is =>
      rw [kind] at is
      cases is
    | stmt spells member =>
      obtain ⟨_, inner, d, _, _, block, computes, _⟩ := loop_of_spells spells member kind
      exact ⟨inner, d, block, computes⟩
    | block block =>
      rw [kind] at block
      cases block
  beforehand {block loop test body done rest} reached kind loopKind := by
    cases written_of_lowered lowered reached with
    | simple is =>
      rw [kind] at is
      cases is
    | stmt spells member =>
      have none := (spelled_blocks spells member).1
      rw [kind] at none
      cases none
    | @block _ _ _ nodes more block items last =>
      rw [kind, NodeKind.block.injEq] at block
      rcases List.append_eq_append_iff.mp block with ⟨before, rfl, split⟩ | ⟨between, rfl, rfl⟩
      · cases before with
        | nil =>
          rw [List.nil_append] at split
          have tag := last loop (split ▸ List.mem_cons_self)
          rw [loopKind] at tag
          cases tag
        | cons m before =>
          cases (List.cons_eq_cons.mp split).1
          obtain ⟨d, ends, computes⟩ := loop_of_items items loopKind
          exact ⟨d, ends, computes rfl⟩
      · have tag := last loop (List.mem_append_right _ List.mem_cons_self)
        rw [loopKind] at tag
        cases tag

end Surface

end MiddleEnd
