import MiddleEnd.Proofs.Closure.Relocate

namespace MiddleEnd

open Outcome

namespace Closure

open Program TransformM

variable {p q : Program} {pending : NodeId → SymbolId → SymbolId → Prop} {E : Program → Prop}

/-! Moving functions out. -/

theorem moveBefore_ends {anchor node : NodeId} {m : SymbolId} (settled : p.Settled)
    (standing : p.Standing node) (leaves : p.stays node = false) (target : p.Standing anchor)
    (apart : ¬ p.Above node anchor) (member : m ∈ p.modules) (scope : p.scope? anchor = some m) :
    Ends (moveBefore anchor node) p
      (fun _ q => q.Settled ∧ Relocates p q ∧ q.scope? node = some m) E := by
  obtain ⟨t, q, detached, inserted⟩ := settled.move standing target apart
  unfold moveBefore
  refine Ends.bind (ends_edit_of_ok (Q := fun _ t' => t' = t) detached rfl) ?_
  rintro _ _ rfl
  exact ends_edit_of_ok inserted
    (move_relocates settled standing leaves target apart member scope detached inserted)

/-- The function can move in front of its anchor. -/
structure Movable (p : Program) (m : Move) : Prop where
  placed : p.Placed m.function m.fnDef
  anchor : ∃ g, p.Outer g m.anchor
  different : m.anchor ≠ m.fnDef

theorem Movable.relocates {m : Move} (movable : Movable p m) (change : Relocates p q) :
    Movable q m where
  placed := change.placed movable.placed
  anchor := by
    obtain ⟨g, outer⟩ := movable.anchor
    exact ⟨g, change.outer outer⟩
  different := movable.different

theorem relocates_flattened (s : SymbolId) : Relocates p (p.attachFlag s .flattened) := by
  have change := relabel_attachFlag (p := p) s .flattened
  exact
    { modules := change.modules
      sort := change.sort
      head := fun n => by
        rw [change.kind]
        exact .refl _
      reached := change.reached_iff
      scope := fun {n} _ => .inl (change.scope n)
      order := .of_kinds change.kind
      lasts := fun v => lasts_attachFlag s v (.inr rfl)
      span := fun _ => rfl }

/-- The types of a function are those that stand in it. -/
theorem mem_localTypes (tidy : p.Tidy) {f g : SymbolId} {d body n : NodeId} {formals : List NodeId}
    (placed : p.Placed f d) (kind : p.kind d = .fnDef g formals body) :
    n ∈ localTypes p body ↔ p.TypeDef n ∧ p.scope? n = some f := by
  have forest := tidy.sound.forest
  have liveD := tidy.sound.live_of_reached placed.1
  have child : body ∈ p.children d := by simp [children, kind, NodeKind.children]
  have live := forest.child_live liveD child
  have isBlock : p.Fits body .block := (tidy.lawful liveD).fits (by simp [kind, NodeKind.slots])
  have plain : (p.kind body).isFnDef = false := by
    cases kindB : p.kind body <;> simp [Fits, kindB, NodeKind.isBlock] at isBlock
    rfl
  have isType : (p.kind n).defines?.any (fun s => (p.symbol s).isType) = true ↔
      ∃ s, (p.kind n).defines? = some s ∧ (p.symbol s).kind.sort = .type := by
    simp only [Option.any_eq_true, Symbol.isType_iff]
  rw [localTypes, List.mem_filter, forest.mem_collectOwn live, isType]
  constructor
  · rintro ⟨⟨own, tag⟩, type⟩
    have different : d ≠ n := by
      rintro rfl
      rw [kind] at tag
      cases tag
    obtain ⟨reached, scope⟩ := (tidy.own_iff placed.1 placed.2.1 placed.2.2).mp
      ⟨.trans (.down .refl (.inl rfl) child) plain own, different⟩
    exact ⟨⟨reached, tag, type⟩, scope⟩
  · rintro ⟨⟨reached, tag, s, defines, sort⟩, scope⟩
    obtain ⟨own, different⟩ :=
      (tidy.own_iff placed.1 placed.2.1 placed.2.2).mpr ⟨reached, scope⟩
    obtain ⟨c, top, ownC, _⟩ := own.head different.symm
    rw [children, kind] at top
    rcases List.mem_append.mp top with formal | isBody
    · -- Formals define other symbols, and there are only expressions below them.
      obtain ⟨tagC, s', defines', sort'⟩ : p.Fits c .formal :=
        (tidy.lawful liveD).fits (by simp [kind, NodeKind.slots, formal])
      have liveC := forest.child_live liveD (by rw [children, kind]; exact top)
      by_cases same : c = n
      · subst same
        cases defines.symm.trans defines'
        cases sort.symm.trans sort'
      · have expr := tidy.expr_below (NodeKind.slot_of_define tagC) (forest.live_of_own liveC ownC)
          (forest.above_of_own liveC ownC) same
        cases kindN : p.kind n <;> simp [kindN, NodeKind.isExpr, NodeKind.tag] at expr tag
    · cases List.mem_singleton.mp isBody
      exact ⟨⟨ownC, tag⟩, s, defines, sort⟩

/-- The types of a function move in front of it. -/
theorem moveTypes_ends {f g : SymbolId} {fnDef body : NodeId} {formals : List NodeId}
    (settled : p.Settled) (outer : p.Outer f fnDef) (kind : p.kind fnDef = .fnDef g formals body) :
    Ends ((localTypes p body).forM (moveBefore fnDef)) p
      (fun _ q => q.Settled ∧ Relocates p q ∧ Hoists p q f) E := by
  have listed {n : NodeId} : n ∈ localTypes p body ↔ p.TypeDef n ∧ p.scope? n = some f :=
    mem_localTypes settled.toTidy outer.1 kind
  refine (Ends.forM (I := fun rest t => (t.Settled ∧ Relocates p t) ∧ (∀ n ∈ rest, p.TypeDef n) ∧
      ∀ n ∈ localTypes p body, n ∈ rest ∨ t.TopLevel n)
    ⟨⟨settled, .refl⟩, fun n member => (listed.mp member).1, fun n member => .inl member⟩ ?_).mono
    (fun _ q kept => ⟨kept.1.1, kept.1.2, fun n type scope =>
      (kept.2.2 n (listed.mpr ⟨type, scope⟩)).resolve_left (by simp)⟩) fun _ => id
  rintro n rest t ⟨⟨settledT, change⟩, types, moved⟩
  obtain ⟨reachedN, tag, s, defines, sort⟩ := types n (List.mem_cons_self ..)
  obtain ⟨placed, m, member, scope⟩ := change.outer outer
  have tagT := (change.head n).tag.trans tag
  have standing := settledT.standing_type (change.reached.mpr reachedN) tagT
    ((change.head n).defines.trans defines) ((change.sort s).trans sort)
  have target := settledT.standing_fnDef placed.1 placed.2.1
  have leaves : t.stays n = false := by
    rw [change.stays_eq, stays, defines, Option.any_some, Symbol.isType_iff.mpr sort]
    simp
  refine (moveBefore_ends settledT standing leaves target ?_ member scope).mono ?_ fun _ => id
  · -- Below the definition of a type there are only expressions.
    intro above
    have live := settledT.sound.live_of_reached placed.1
    have different : n ≠ fnDef := by
      rintro rfl
      have isFnDef := placed.2.1
      cases kind : t.kind n <;> simp [kind, NodeKind.isFnDef, NodeKind.tag] at isFnDef tagT
    have expr := settledT.expr_below (NodeKind.slot_of_define tagT) live above different
    have isFnDef := placed.2.1
    cases kind : t.kind fnDef <;> simp [kind, NodeKind.isFnDef, NodeKind.isExpr] at isFnDef expr
  · rintro _ q ⟨settledQ, move, scopeN⟩
    refine ⟨⟨settledQ, change.trans move⟩, fun n member => types n (List.mem_cons_of_mem _ member),
      fun other member' => ?_⟩
    rcases moved other member' with waiting | top
    · rcases List.mem_cons.mp waiting with rfl | later
      · exact .inr ⟨m, move.modules ▸ member, scopeN⟩
      · exact .inl later
    · exact .inr (move.topLevel (change.reached.mpr (listed.mp member').1.reached) top)

/-- The function and its types move out. -/
theorem relocate_ends {m : Move} (settled : p.Settled) (movable : Movable p m) :
    Ends (relocate m) p
      (fun _ q => q.Settled ∧ Relocates p q ∧ q.Outer m.function m.fnDef ∧ Hoists p q m.function)
      E := by
  obtain ⟨g, outer⟩ := movable.anchor
  obtain ⟨placedA, s, member, scope⟩ := outer
  have notFn := settled.sound.not_isFn_of_module member
  unfold relocate
  refine Ends.bind (moveBefore_ends settled
    (settled.standing_fnDef movable.placed.1 movable.placed.2.1)
    (by rw [stays, movable.placed.2.1]; rfl) (settled.standing_fnDef placedA.1 placedA.2.1)
    (settled.not_above_of_module_scope placedA.1 scope notFn movable.placed.2.1
      movable.different.symm) member scope) ?_
  rintro _ t ⟨settledT, change, scopeT⟩
  refine Ends.bind (Ends.modified (Q := fun _ u => u = t.attachFlag m.function .flattened) rfl) ?_
  rintro _ u equal
  have relabel : Relabel t u := equal ▸ relabel_attachFlag m.function .flattened
  have changeU : Relocates p u := change.trans (equal ▸ relocates_flattened m.function)
  clear equal
  have settledU := relabel.settled settledT
  have outerU : u.Outer m.function m.fnDef :=
    ⟨changeU.placed movable.placed, s, by rwa [changeU.modules], (relabel.scope _).trans scopeT⟩
  refine Ends.get_bind ?_
  obtain ⟨_, formals, body, kind, found⟩ := settledU.fnBody?_eq outerU.1
  rw [found]
  refine Ends.bind (moveTypes_ends settledU outerU kind) ?_
  rintro _ q ⟨settledQ, changeQ, types⟩
  exact Ends.pure
    ⟨settledQ, changeU.trans changeQ, changeQ.outer outerU, types.after changeU changeQ⟩

/-- Every function of the list ends up outside all functions, and so do its types. -/
theorem relocateAll_ends {moves : List Move} (settled : p.Settled)
    (movable : ∀ m ∈ moves, Movable p m) :
    Ends (moves.mapM relocate) p
      (fun _ q => q.Settled ∧ Relocates p q ∧
        ∀ m ∈ moves, q.Outer m.function m.fnDef ∧ Hoists p q m.function) E := by
  refine (Ends.mapM (I := fun rest t => t.Settled ∧ Relocates p t ∧
    (∀ m ∈ rest, Movable p m) ∧
    ∀ m ∈ moves, m ∈ rest ∨ t.Outer m.function m.fnDef ∧ Hoists p t m.function)
    ⟨settled, .refl, movable, fun m member => .inl member⟩ ?_).mono ?_ fun _ => id
  · rintro m rest t ⟨settledT, change, movable, done⟩
    refine (relocate_ends settledT ((movable m (List.mem_cons_self ..)).relocates change)).mono
      ?_ fun _ => id
    rintro _ q ⟨settledQ, changeQ, outer, types⟩
    refine ⟨settledQ, change.trans changeQ, fun m member => movable m (List.mem_cons_of_mem _ member),
      fun m' member => ?_⟩
    rcases done m' member with waiting | ⟨moved, hoists⟩
    · rcases List.mem_cons.mp waiting with rfl | later
      · exact .inr ⟨outer, types.after change changeQ⟩
      · exact .inl later
    · exact .inr ⟨changeQ.outer moved, hoists.before change changeQ⟩
  · rintro _ q ⟨settledQ, change, _, done⟩
    exact ⟨settledQ, change, fun m member => (done m member).resolve_left (by simp)⟩

/-! The whole conversion. -/

theorem mem_nestedFunctions (settled : p.Settled) {f : SymbolId} :
    f ∈ nestedFunctions p ↔ (∃ d, p.Placed f d) ∧ (p.declaringFn? f).isSome = true := by
  rw [nestedFunctions, List.mem_filter, List.mem_filterMap, isNestedFn, Bool.and_eq_true]
  constructor
  · rintro ⟨⟨d, member, defines⟩, _, nested⟩
    obtain ⟨r, root, collected⟩ := List.mem_flatMap.mp member
    obtain ⟨live, above, tag⟩ := settled.sound.forest.mem_collect.mp collected
    have reached := settled.sound.reached_iff.mpr ⟨live, r, root, above⟩
    exact ⟨⟨d, reached, NodeKind.isFnDef_iff.mpr tag, defines⟩, nested⟩
  · rintro ⟨⟨d, reached, fnDef, defines⟩, nested⟩
    obtain ⟨live, r, root, above⟩ := settled.sound.reached_iff.mp reached
    have collected := settled.sound.forest.mem_collect.mpr ⟨live, above, NodeKind.isFnDef_iff.mp fnDef⟩
    exact ⟨⟨d, List.mem_flatMap.mpr ⟨r, root, collected⟩, defines⟩,
      settled.isFn_of_fnDef live fnDef defines, nested⟩

theorem move?_eq_some (settled : p.Settled) {f : SymbolId} {d : NodeId} (placed : p.Placed f d)
    (nested : (p.declaringFn? f).isSome = true) :
    ∃ anchor, move? p f = some ⟨f, d, anchor⟩ ∧ Movable p ⟨f, d, anchor⟩ := by
  obtain ⟨g, last⟩ : ∃ g, (p.lexicalAncestors f).getLast? = some g := by
    obtain ⟨h, declared⟩ := Option.isSome_iff_exists.mp nested
    rw [settled.sound.lexicalAncestors_eq placed, declared]
    exact ⟨_, List.getLast?_cons⟩
  obtain ⟨outer, e, placedG, _, different⟩ := settled.outermost placed last
  have scope := settled.scope_of_declaringFn?_none placedG.1 placedG.2.2 outer
  refine ⟨e, ?_, placed, ⟨g, placedG, scope⟩, different⟩
  simp [move?, last, (settled.fnBody?_eq placed).1, (settled.fnBody?_eq placedG).1]

/-- What closure conversion makes of a program. -/
structure Converted (pending : NodeId → SymbolId → SymbolId → Prop) (p q : Program) : Prop where
  settled : q.Settled
  staged : ∃ t, Stage p pending t ∧ Relocates t q
  outer {f : SymbolId} {d : NodeId} : q.Placed f d → q.Outer f d
  -- Only the types of functions that were outside all functions stay.
  types {n : NodeId} : p.TypeDef n → q.TopLevel n ∨
    ∃ g, p.declaringFn? g = none ∧ p.scope? n = some g ∧ q.scope? n = some g

theorem Relocates.placed_iff {f : SymbolId} {d : NodeId} (change : Relocates p q) :
    q.Placed f d ↔ p.Placed f d := by
  rw [Placed, Placed, change.reached, (change.head d).isFnDef, (change.head d).defines]

theorem Stage.placed_of_placed {f : SymbolId} {d : NodeId} (stage : Stage p pending q)
    (placed : q.Placed f d) : p.Placed f d := by
  have reached := stage.frame.old placed.1 (.inr placed.2.1)
  have known := (stage.base_sound.live_of_reached reached).known
  exact ⟨reached, (isFnDef_of_tag (stage.frame.tag known)).symm.trans placed.2.1,
    (stage.frame.defines known).symm.trans placed.2.2⟩

theorem Stage.declaringFn?_eq_some {f g : SymbolId} {d : NodeId} (stage : Stage p pending q)
    (placed : p.Placed f d) (declared : p.declaringFn? f = some g) : q.declaringFn? f = some g := by
  have settled := stage.base_settled
  have placedQ := stage.frame.placed settled.sound placed
  have same := stage.frame.scope placed.1 (stage.settled.sound.live_of_reached placedQ.1)
  obtain ⟨scope, fn⟩ := Option.filter_eq_some_iff.mp declared
  rw [declaringScope?, settled.sound.bound placed.2.2] at scope
  refine stage.settled.declaringFn?_of_scope placedQ.2.2 (same.trans scope) ?_
  rw [stage.frame.isFn (settled.scope_known placed.1 scope)]
  exact fn

theorem Stage.typeDef {n : NodeId} (stage : Stage p pending q) (type : p.TypeDef n) :
    q.TypeDef n ∧ q.scope? n = p.scope? n := by
  have frame := stage.frame
  have known := (stage.base_sound.live_of_reached type.reached).known
  obtain ⟨s, defines, sort⟩ := type.type
  have plain : (p.kind n).isExpr = false := by
    have tag := type.tag
    cases kind : p.kind n <;> simp [kind, NodeKind.tag] at tag
    rfl
  have reached := frame.kept type.reached (.inl plain)
  have knownS : s.index < p.symbols.size :=
    (stage.base_settled.lawful (stage.base_sound.live_of_reached type.reached)).defines_known defines
  exact ⟨⟨reached, (frame.tag known).trans type.tag, s, (frame.defines known).trans defines,
    (frame.sort knownS).trans sort⟩,
    frame.scope type.reached (stage.settled.sound.live_of_reached reached)⟩

theorem converted_of_flat (settled : p.Settled) (leads : p.Leads pending)
    (flat : nestedFunctions p = []) : Converted pending p p := by
  have outermost {f : SymbolId} {d : NodeId} (placed : p.Placed f d) : p.declaringFn? f = none := by
    by_contra nested
    have member := (mem_nestedFunctions settled).mpr
      ⟨⟨d, placed⟩, Option.isSome_iff_ne_none.mpr nested⟩
    rw [flat] at member
    cases member
  refine ⟨settled, ⟨p, .refl settled leads, .refl⟩, fun {f d} placed => ⟨placed, ?_⟩,
    fun {n} type => ?_⟩
  · exact settled.scope_of_declaringFn?_none placed.1 placed.2.2 (outermost placed)
  · rcases settled.sound.scope_cases type.reached with ⟨m, member, scope, _⟩ | ⟨d, g, scope, inner⟩
    · exact .inl ⟨m, member, scope⟩
    · exact .inr ⟨g, outermost ⟨inner.reached, inner.fnDef, inner.defines⟩, scope, scope⟩

/-- Every planned move can be made. -/
theorem movable_of_move? {t : Program} (stage : Stage p pending t) {m : Move}
    (member : m ∈ (nestedFunctions p).filterMap (move? t)) : Movable t m := by
  obtain ⟨f, nested, move⟩ := List.mem_filterMap.mp member
  obtain ⟨⟨d, placed⟩, inner⟩ := (mem_nestedFunctions stage.base_settled).mp nested
  obtain ⟨g, declared⟩ := Option.isSome_iff_exists.mp inner
  obtain ⟨anchor, moveEq, movable⟩ := move?_eq_some stage.settled
    (stage.frame.placed stage.base_sound placed)
    (by rw [Stage.declaringFn?_eq_some stage placed declared]; rfl)
  rw [moveEq] at move
  cases move
  exact movable

/-- Functions that were nested have moved, and the others have always been outside. -/
theorem converted_of_moved {t : Program} (stage : Stage p pending t) (settled : q.Settled)
    (change : Relocates t q)
    (moved : ∀ m ∈ (nestedFunctions p).filterMap (move? t),
      q.Outer m.function m.fnDef ∧ Hoists t q m.function) :
    Converted pending p q := by
  have settledP := stage.base_settled
  have movedOut {f g : SymbolId} {d : NodeId} (placedP : p.Placed f d) (placedT : t.Placed f d)
      (declared : p.declaringFn? f = some g) : q.Outer f d ∧ Hoists t q f := by
    have member := (mem_nestedFunctions settledP).mpr ⟨⟨d, placedP⟩, by rw [declared]; rfl⟩
    have nested := Stage.declaringFn?_eq_some stage placedP declared
    obtain ⟨anchor, move, _⟩ := move?_eq_some stage.settled placedT (by rw [nested]; rfl)
    exact moved _ (List.mem_filterMap.mpr ⟨f, member, move⟩)
  refine ⟨settled, ⟨t, stage, change⟩, fun {f d} placed => ?_, fun {n} type => ?_⟩
  · have placedT := (Relocates.placed_iff change).mp placed
    have placedP := Stage.placed_of_placed stage placedT
    have scope := stage.frame.scope placedP.1 (stage.settled.sound.live_of_reached placedT.1)
    cases declared : p.declaringFn? f with
    | none =>
      obtain ⟨m, member, outer⟩ :=
        settledP.scope_of_declaringFn?_none placedP.1 placedP.2.2 declared
      refine change.outer ⟨placedT, m, ?_, scope.trans outer⟩
      rwa [stage.frame.modules]
    | some g => exact (movedOut placedP placedT declared).1
  · obtain ⟨typeT, scopeT⟩ := Stage.typeDef stage type
    rcases settledP.sound.scope_cases type.reached with ⟨m, member, scope, _⟩ | ⟨d, g, scope, inner⟩
    · refine .inl (change.topLevel typeT.reached ⟨m, ?_, scopeT.trans scope⟩)
      rwa [stage.frame.modules]
    · cases declared : p.declaringFn? g with
      | none =>
        rcases change.scope typeT.reached with same | ⟨m, member, top⟩
        · exact .inr ⟨g, declared, scope, same.trans (scopeT.trans scope)⟩
        · exact .inl ⟨m, change.modules ▸ member, top⟩
      | some h =>
        have placed : p.Placed g d := ⟨inner.reached, inner.fnDef, inner.defines⟩
        have hoists := (movedOut placed (stage.frame.placed settledP.sound placed) declared).2
        exact .inl (hoists n typeT (scopeT.trans scope))

/-- Without nested functions nothing is captured. -/
theorem captures_eq_nil (settled : p.Settled) (flat : nestedFunctions p = []) (g : SymbolId) :
    (Captures.compute p (.build p)).of g = [] := by
  refine List.eq_nil_iff_forall_not_mem.mpr fun v captured => ?_
  obtain ⟨d, placed⟩ := settled.placed_of_registered
    (Captures.registered_of_capturing (Captures.mem_capturing captured))
  have outer := Captures.isOuterVar_of_mem captured
  have nested : (p.declaringFn? g).isSome = true := by
    cases declared : p.declaringFn? g with
    | some h => rfl
    | none =>
      rw [isOuterVar, settled.sound.lexicalAncestors_eq placed, declared] at outer
      cases owner : p.declaringFn? v <;> simp [owner] at outer
  have listed := (mem_nestedFunctions settled).mpr ⟨⟨d, placed⟩, nested⟩
  rw [flat] at listed
  cases listed

/-- What closure conversion refuses to begin with: a call has no target, or one cannot supply what
its target captures. -/
def Refused (p : Program) : Prop :=
  unresolvedCall? p ≠ none ∨ ∃ error, planCalls p (.compute p (.build p)) = .error error

/-- Closure conversion succeeds with a sound program in which no function is nested, unless it
refuses the program and leaves it as it is: once begun it cannot fail. -/
theorem flatten_ends (settled : p.Settled)
    (leads : p.Leads (Open pending (.compute p (.build p)) (Captures.compute p (.build p)).capturing))
    (planned : ∀ plans, planCalls p (.compute p (.build p)) = .ok plans → ∀ plan ∈ plans,
      Planned p (Open pending (.compute p (.build p)) (Captures.compute p (.build p)).capturing) plan) :
    Ends flatten p (fun _ q => Converted pending p q ∧ unresolvedCall? p = none)
      fun q => q = p ∧ Refused p := by
  unfold flatten
  refine Ends.get_bind ?_
  cases unresolved : unresolvedCall? p with
  | some error => exact Ends.throw ⟨rfl, .inl (by simp [unresolved])⟩
  | none =>
    simp only
    split
    · rename_i empty
      have flat := List.isEmpty_iff.mp empty
      refine Ends.pure ⟨converted_of_flat settled (leads.mono ?_) flat, trivial⟩
      rintro n v g _ _ _ (old | ⟨_, captured⟩)
      · exact old
      · rw [captures_eq_nil settled flat g] at captured
        cases captured
    · split
      · rename_i error plansEq
        exact Ends.throw ⟨rfl, .inr ⟨error, plansEq⟩⟩
      · rename_i plans plansEq
        refine Ends.bind (passCaptures_ends settled leads (planned plans plansEq)
          (fun f => Captures.registered_of_capturing) fun f v => Captures.known_of_mem) ?_
        intro _ t stage
        refine Ends.get_bind ?_
        refine Ends.bind (relocateAll_ends stage.settled fun m => movable_of_move? stage) ?_
        rintro _ q ⟨settledQ, change, moved⟩
        exact Ends.pure ⟨converted_of_moved stage settledQ change moved, trivial⟩

end Closure

end MiddleEnd
