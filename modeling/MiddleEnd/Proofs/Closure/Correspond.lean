import MiddleEnd.Proofs.Closure.Closed
import MiddleEnd.Proofs.Closure.Converts

/-! Calls pass what functions expect after closure conversion. -/

namespace MiddleEnd

open Outcome

namespace Closure

open Program

variable {p q : Program}

/-- The node `d` defines the new formal that stands for the captured variable `s`. -/
structure FormalOf (p q : Program) (s formal : SymbolId) (d : NodeId) : Prop where
  define : q.kind d = .define formal none
  fresh : p.symbols.size ≤ formal.index
  name_eq : q.name formal = p.name s
  ty_eq : (q.symbol formal).ty = (p.symbol s).ty.refForm.getD (p.symbol s).ty

/-- The node is the address of `s`, or `s` itself where there are no references to it. -/
def Lends (p q : Program) (s : SymbolId) (init : NodeId) : Prop :=
  if (p.symbol s).ty.hasRefForm then ∃ ref, q.kind init = .prim .addrOf [ref] ∧ q.kind ref = .symRef s
  else q.kind init = .symRef s

/-- In the block that the statement `stmt` stands in, the node `d` stands before it. -/
def Precedes (q : Program) (d stmt : NodeId) : Prop :=
  ∃ b stmts, q.parent? stmt = some b ∧ q.kind b = .block stmts ∧ [d, stmt].Sublist stmts

/-- The actual `a` of `call` is a new variable of the type of the formal for `s`. It is defined in
front of the statement of the call, in the same block, and lends `s`. -/
def LentTo (p q : Program) (call : NodeId) (s : SymbolId) (a : NodeId) : Prop :=
  ∃ temp d init stmt, q.kind a = .symRef temp ∧ p.symbols.size ≤ temp.index ∧
    (q.symbol temp).ty = (p.symbol s).ty.refForm.getD (p.symbol s).ty ∧
    q.enclosingStmt? call = some stmt ∧ Precedes q d stmt ∧
    q.kind d = .define temp (some init) ∧ Lends p q s init

/-- The actual `a` is the new formal of `caller` for `s`. -/
def HandedOn (p q : Program) (caller s : SymbolId) (a : NodeId) : Prop :=
  ∃ d formal, (s, d) ∈ ((Captures.compute p (.build p)).of caller).zip
      ((q.formalDefs caller).drop (p.formalDefs caller).length) ∧
    q.kind d = .define formal none ∧ q.kind a = .symRef formal

/-- What a call of `g` passes for the variable `s` that `g` captures: a function that declares the
variable lends it, or passes it as it is to a function of the iterator protocol, and any other
function passes its own formal for it. -/
def Corresponds (p q : Program) (g : SymbolId) (call : NodeId) (s : SymbolId) (a : NodeId) : Prop :=
  ∃ caller, p.enclosingFn? call = some caller ∧
    if p.declaringFn? s = some caller then
      if isIteratorHelper p g then q.kind a = .symRef s else LentTo p q call s a
    else HandedOn p q caller s a

/-! Where a variable that is lent stands. -/

section

variable {t : Program} {w : Rework} {captures : Captures} {passed : List NodeId} {first : Rework}
  {start : Program}

/-- The statement of a call in the function of the call is neither a function nor a type. -/
theorem stays_of_enclosingStmt? (linked : Linked p) {call anchor : NodeId} (reached : p.Reached call)
    (isCall : (p.kind call).isCall = true) (found : p.enclosingStmt? call = some anchor)
    (scope : p.scope? anchor = p.scope? call) : p.stays anchor = true := by
  have settled := linked.settled
  have forest := settled.sound.forest
  have live := settled.sound.live_of_reached reached
  have above := (forest.enclosingStmt?_eq_some found).1
  have liveA := forest.live_of_above above live
  have reachedA := (standing_of_enclosingStmt? settled.sound reached found).1
  by_cases same : anchor = call
  · subst same
    cases kind : p.kind anchor <;> simp [kind, NodeKind.isCall] at isCall
    simp [stays, kind, NodeKind.isFnDef, NodeKind.defines?]
  have noFn : (p.kind anchor).isFnDef = false := by
    by_contra isFnDef
    rw [Bool.not_eq_false] at isFnDef
    rcases settled.sound.scope_cases reached with ⟨m, _, _, outside⟩ | ⟨d, f, scopeF, inner⟩
    · rw [outside anchor above same] at isFnDef
      cases isFnDef
    · have fn := settled.isFn_of_fnDef (settled.sound.live_of_reached inner.reached) inner.fnDef
        inner.defines
      obtain ⟨e, innerA⟩ := settled.sound.innermost_of_scope reachedA (scope.trans scopeF) fn
      cases settled.sound.bound_unique innerA.defines inner.defines
      exact innerA.ne (forest.above_antisymm innerA.above (inner.least above same isFnDef))
  have noType : ((p.kind anchor).defines?.any fun s => (p.symbol s).isType) = false := by
    obtain ⟨c, child, _⟩ := forest.child_above above live same
    cases kind : p.kind anchor with
    | define s value =>
      cases value with
      | none => simp [children, kind, NodeKind.children] at child
      | some c =>
        have value := linked.valued anchor s c liveA kind
        rw [Symbol.isValue_iff] at value
        rw [NodeKind.defines?, Option.any_some, Bool.eq_false_iff, Ne, Symbol.isType_iff]
        rcases value with sort | sort <;> simp [sort]
    | fnDef =>
      rw [kind] at noFn
      cases noFn
    | _ => rfl
  rw [stays, noFn, noType]
  rfl

theorem stays_eq_of_frame (sound : p.Sound) (frame : Frame p t) {n : NodeId} (live : p.Live n) :
    t.stays n = p.stays n := by
  rw [stays, stays, isFnDef_of_tag (frame.tag live.known), frame.defines live.known]
  cases defines : (p.kind n).defines? with
  | none => rfl
  | some s =>
    have same : (t.symbol s).isType = (p.symbol s).isType := by
      rw [Bool.eq_iff_iff, Symbol.isType_iff, Symbol.isType_iff, frame.sort (sound.bound_known defines)]
    simp [same]

/-- What came in front of a statement stands before it in the block. -/
theorem precedes_of_front (evolved : Evolved p w t) {anchor d : NodeId} (standing : p.Standing anchor)
    (live : t.Live anchor) (front : d ∈ w.front anchor) : Precedes t d anchor := by
  have soundP := evolved.stage.base_sound
  obtain ⟨reached, b, link, isBlock⟩ := standing
  have reachedB := soundP.forest.reached_owner soundP.rooted reached link
  have child := soundP.forest.owner_lists (soundP.live_of_reached reached) link
  have here := evolved.reworked.swap_of_live soundP evolved.sound evolved.stage.frame reachedB child
    live
  cases kind : p.kind b <;> simp [kind, NodeKind.isBlock] at isBlock
  rename_i stmts
  have reachedT := evolved.stage.frame.kept reachedB (.inl (by rw [kind]; rfl))
  have liveT := evolved.sound.live_of_reached reachedT
  have kindT := evolved.reworked.kind (soundP.live_of_reached reachedB).known liveT (by rw [kind]; rfl)
  rw [kind, Rework.kind] at kindT
  rw [children, kind, NodeKind.children] at child
  have inside : [d, anchor].Sublist (w.front anchor ++ [w.swap anchor]) := by
    rw [here]
    exact (List.singleton_sublist.mpr front).append (List.Sublist.refl [anchor])
  have sub : [d, anchor].Sublist (stmts.flatMap fun c => w.front c ++ [w.swap c]) := by
    obtain ⟨before, after, rfl⟩ := List.append_of_mem child
    rw [List.flatMap_append, List.flatMap_cons]
    exact (inside.trans (List.sublist_append_left _ _)).trans (List.sublist_append_right _ _)
  refine ⟨b, _, evolved.sound.forest.child_parent liveT ?_, kindT, sub⟩
  rw [children, kindT, NodeKind.children]
  exact sub.subset (by simp)

/-- Two statements that stay keep their order. -/
theorem Precedes.of_moved (moved : Relocates t q) (sound : t.Sound) (soundQ : q.Sound) {d stmt : NodeId}
    (before : Precedes t d stmt) (reached : t.Reached stmt) (first : t.stays d = true)
    (second : t.stays stmt = true) : Precedes q d stmt := by
  obtain ⟨b, stmts, link, kind, sub⟩ := before
  obtain ⟨stmts', kindQ, same⟩ := moved.order.block kind
  have subQ : [d, stmt].Sublist stmts' := by
    have kept := sub.filter t.stays
    rw [← same] at kept
    simpa [first, second] using kept.trans List.filter_sublist
  have reachedQ := moved.reached.mpr (sound.forest.reached_owner sound.rooted reached link)
  refine ⟨b, stmts', soundQ.forest.child_parent (soundQ.live_of_reached reachedQ) ?_, kindQ, subQ⟩
  rw [children, kindQ, NodeKind.children]
  exact subQ.subset (by simp)

/-- A variable that was made for an actual lends what it was made of. -/
theorem lentTo_of_tempFor (linked : Linked p) (evolved : Evolved p w t) (moved : Relocates t q)
    (soundQ : q.Sound) {call anchor a init tempDef : NodeId} {temp s : SymbolId}
    (reached : p.Reached call) (reachedT : t.Reached call) (isCall : (p.kind call).isCall = true)
    (found : p.enclosingStmt? call = some anchor) (scope : p.scope? anchor = p.scope? call)
    (reachedA : t.Reached a)
    (tempFor : TempFor p w t anchor init ((p.symbol s).ty.refForm.getD (p.symbol s).ty) temp tempDef a)
    (lends : Lends p q s init) : LentTo p q call s a := by
  have sound := evolved.sound
  have soundP := evolved.stage.base_sound
  have frame := evolved.stage.frame
  have foundT := (frame.enclosingStmt? soundP sound reached (sound.live_of_reached reachedT)).trans found
  have standing := standing_of_enclosingStmt? soundP reached found
  have reachedAnchor := (standing_of_enclosingStmt? sound reachedT foundT).1
  have staysA : t.stays anchor = true := by
    rw [stays_eq_of_frame soundP frame (soundP.live_of_reached standing.1)]
    exact stays_of_enclosingStmt? linked reached isCall found scope
  have staysD : t.stays tempDef = true := by
    have value := ((evolved.stage.settled.lawful (sound.live_of_reached reachedA)).ref_value
      (v := temp) (by rw [tempFor.ref_eq]; rfl)).2
    have noType : (t.symbol temp).isType = false := by
      rw [Symbol.isValue_iff] at value
      rw [Bool.eq_false_iff, Ne, Symbol.isType_iff]
      rcases value with sort | sort <;> simp [sort]
    simp [stays, tempFor.define, NodeKind.isFnDef, NodeKind.defines?, noType]
  have before := precedes_of_front evolved standing (sound.live_of_reached reachedAnchor) tempFor.front
  refine ⟨temp, tempDef, init, anchor, ?_, tempFor.fresh, (moved.ty temp).trans tempFor.ty_eq,
    moved.enclosingStmt? sound soundQ reachedT foundT staysA,
    before.of_moved moved sound soundQ reachedAnchor staysD staysA, ?_, lends⟩
  · rw [moved.order.kind (by rw [tempFor.ref_eq]; rfl), tempFor.ref_eq]
  · rw [moved.order.kind (by rw [tempFor.define]; rfl), tempFor.define]

end

/-- A function has its formals and the new ones behind them. -/
theorem Transforms.formalDefs_eq {passed : List NodeId} {first w : Rework} {start t : Program}
    (transforms : Transforms p (.compute p (.build p)) passed first start w t q)
    (settledQ : q.Settled) {g : SymbolId} {fnDef : NodeId} (placed : p.Placed g fnDef) :
    q.formalDefs g = p.formalDefs g ++ w.added fnDef := by
  have evolved := transforms.underway.evolved
  have settled := evolved.stage.base_settled
  have frame := evolved.stage.frame
  have placedT := frame.placed settled.sound placed
  obtain ⟨found, formals, body, kind, _⟩ := settled.fnBody?_eq placed
  have kindT := evolved.reworked.kind (settled.sound.live_of_reached placed.1).known
    (evolved.sound.live_of_reached placedT.1) (by rw [kind]; rfl)
  have unmoved : formals.map w.swap = formals := by
    refine (List.map_congr_left fun c member => ?_).trans (List.map_id' _)
    have child : c ∈ p.children fnDef := by simp [children, kind, NodeKind.children, member]
    have slot : (Slot.formal, c) ∈ (p.kind fnDef).slots := by
      rw [kind, NodeKind.slots]
      exact List.mem_append_left _ (List.mem_map.mpr ⟨c, member, rfl⟩)
    obtain ⟨tag, _⟩ := (settled.lawful (settled.sound.live_of_reached placed.1)).fits slot
    have plain : (p.kind c).isExpr = false := by
      cases kindC : p.kind c <;> simp [kindC, NodeKind.tag] at tag
      rfl
    have reachedC := frame.kept (placed.1.child child) (.inl plain)
    exact evolved.reworked.swap_of_live settled.sound evolved.sound frame placed.1 child
      (evolved.sound.live_of_reached reachedC)
  rw [kind, Rework.kind, unmoved] at kindT
  have kindQ := (transforms.moved.order.kind (n := fnDef) (by rw [kindT]; rfl)).trans kindT
  have foundQ := (settledQ.fnBody?_eq (transforms.moved.placed placedT)).1
  simp [formalDefs, found, foundQ, kind, kindQ]

namespace Converts

variable {passed : List NodeId} {first w : Rework} {start t : Program}
  (converts : Converts p (.compute p (.build p)) passed first start w t q)

include converts

/-- A call has as many actuals as before and the new ones behind them. -/
theorem callArgs {call : NodeId} {g : SymbolId} {name : String} {args : List NodeId}
    (reached : p.Reached call) (reachedT : t.Reached call)
    (kind : p.kind call = .call (some g) name args) :
    t.kind call = .call (some g) name (args.map w.swap ++ first.added call) := by
  have evolved := converts.underway.evolved
  have kindT := evolved.reworked.kind (evolved.stage.base_sound.live_of_reached reached).known
    (evolved.sound.live_of_reached reachedT) (by rw [kind]; rfl)
  rwa [kind, Rework.kind, converts.underway.added (by rw [kind]; rfl)] at kindT

/-- The actual of a call stands in the function of the call. -/
theorem scope_actual {call a : NodeId} (reached : p.Reached call) (added : a ∈ first.added call) :
    start.scope? a = p.scope? call := by
  have supplying := converts.supplying
  obtain ⟨reachedS, child⟩ := supplying.child_of_added added
  have isCall := (supplying.added added).2
  have frame := supplying.evolved.stage.frame
  have live := supplying.evolved.sound.live_of_reached reachedS
  have same := isCall_of_tag (frame.tag (supplying.evolved.stage.base_sound.live_of_reached reached).known)
  rw [isCall] at same
  rw [supplying.evolved.sound.scope_below reachedS child, (scopeBelow_of_call same).1]
  exact frame.scope reached live

end Converts

/-- Where every reference leads home, no function refers to a variable that it captures. -/
theorem not_ref_of_captured {t : Program} (stage : Stage p (fun _ _ _ => False) t)
    (lexical : p.Lexical) {a : NodeId} {f s : SymbolId} (reached : t.Reached a)
    (scope : t.scope? a = some f) (fn : p.isFn f = true) (known : f.index < p.symbols.size)
    (captured : s ∈ (Captures.compute p (.build p)).of f) : (t.kind a).symRef? ≠ some s := by
  intro ref
  have settled := stage.base_settled
  have frame := stage.frame
  have outer := Captures.isOuterVar_of_mem captured
  have fnT : t.isFn f = true := (frame.isFn known).trans fn
  have home := (stage.leads a s f reached ref scope fnT).resolve_right id
  -- The variable belongs to another function, before and after.
  obtain ⟨owner, declared, different⟩ : ∃ owner, p.declaringFn? s = some owner ∧ owner ≠ f := by
    cases declared : p.declaringFn? s <;> simp [isOuterVar, declared] at outer
    exact ⟨_, rfl, outer.2.1⟩
  obtain ⟨d, reachedD, defines, _⟩ := home_of_captured settled lexical captured declared
  obtain ⟨scopeD, fnD⟩ := Option.filter_eq_some_iff.mp declared
  rw [declaringScope?, settled.sound.bound defines] at scopeD
  have plain : (p.kind d).isExpr = false := by
    cases kind : p.kind d <;> simp [kind, NodeKind.defines?] at defines <;> rfl
  have liveD := stage.settled.sound.live_of_reached (frame.kept reachedD (.inl plain))
  have definesT := (frame.defines (settled.sound.live_of_reached reachedD).known).trans defines
  have declaredT := stage.settled.declaringFn?_of_scope definesT
    ((frame.scope reachedD liveD).trans scopeD)
    (by rw [frame.isFn (settled.scope_known reachedD scopeD)]; exact fnD)
  rcases stage.settled.declaringFn?_of_home home fnT with here | none
  · exact different (Option.some.inj (declaredT.symm.trans here))
  · cases declaredT.symm.trans none

/-- After the conversion no call passes on a variable that its function captures. -/
theorem Converted.not_passed_of_captured (converted : Converted (fun _ _ _ => False) p q)
    (lexical : p.Lexical) {call a : NodeId} {caller s : SymbolId} (reached : p.Reached call)
    (reachedQ : q.Reached call) (isCall : (p.kind call).isCall = true) (child : a ∈ q.children call)
    (scope : p.scope? call = some caller) (fn : p.isFn caller = true)
    (captured : s ∈ (Captures.compute p (.build p)).of caller) : q.kind a ≠ .symRef s := by
  intro ref
  obtain ⟨t, stage, change⟩ := converted.staged
  have settled := stage.base_settled
  have frame := stage.frame
  have reachedT := change.reached.mp reachedQ
  have live := stage.settled.sound.live_of_reached reachedT
  have isCallT : (t.kind call).isCall = true := by
    rw [isCall_of_tag (frame.tag (settled.sound.live_of_reached reached).known)]
    exact isCall
  have childT : a ∈ t.children call := by
    rwa [children, change.order.kind, ← children] at child
    cases kind : t.kind call <;> simp [kind, NodeKind.isCall] at isCallT
    rfl
  have scopeT : t.scope? a = some caller := by
    rw [stage.settled.sound.scope_below reachedT childT, (scopeBelow_of_call isCallT).1]
    exact (frame.scope reached live).trans scope
  refine not_ref_of_captured stage lexical (reachedT.child childT) scopeT fn
    (settled.scope_known reached scope) captured ?_
  rw [← (change.head a).symRef, ref]
  rfl

namespace Converts

variable {passed : List NodeId} {first w : Rework} {start t : Program}
  (converts : Converts p (.compute p (.build p)) passed first start w t q) (linked : Linked p)
  (converted : Converted (fun _ _ _ => False) p q)

include converts linked converted

theorem corresponds {call a : NodeId} {g s : SymbolId} {name : String} {args : List NodeId}
    (reachedQ : q.Reached call) (reached : p.Reached call)
    (kind : p.kind call = .call (some g) name args)
    (captured : s ∈ (Captures.compute p (.build p)).of g) (added : a ∈ first.added call)
    (passes : Passes p (.compute p (.build p)) passed first start g call s a) :
    Corresponds p q g call s a := by
  have settled := linked.settled
  have underway := converts.underway
  have moved := converts.moved
  have isCall : (p.kind call).isCall = true := by rw [kind]; rfl
  have reachedT := moved.reached.mp reachedQ
  have kindT := converts.callArgs reached reachedT kind
  have kindQ := (moved.order.kind (n := call) (by rw [kindT]; rfl)).trans kindT
  have childT : a ∈ t.children call := by simp [children, kindT, NodeKind.children, added]
  have childQ : a ∈ q.children call := by simp [children, kindQ, NodeKind.children, added]
  have ref {n : NodeId} {v : SymbolId} (ref : t.kind n = .symRef v) : q.kind n = .symRef v := by
    rw [moved.order.kind (by rw [ref]; rfl), ref]
  obtain ⟨actual, anchor, planned, found, supplied, direct⟩ := passes
  obtain ⟨caller, around, way⟩ := planActual_cases planned
  obtain ⟨scope, fn⟩ := Option.filter_eq_some_iff.mp around
  have scopeA := (converts.scope_actual reached added).trans scope
  have indirect (other : ∀ v, actual ≠ .direct v) : Supplied p w t anchor actual a :=
    supplied.retain converts.supplying.apart underway.retains converts.supplying.evolved.reworked
      underway.fronts fun v same => absurd same (other v)
  have onward {v : SymbolId} (isDirect : actual = .direct v) : t.kind a = .symRef v ∨
      ∃ formal, StandsFor p (Captures.compute p (.build p)).of w t caller v formal ∧
        t.kind a = .symRef formal := by
    subst isDirect
    cases supplied with
    | direct _ startRef =>
      refine (underway.passed_to (direct ⟨v, rfl⟩) startRef).imp_right ?_
      rintro ⟨f, formal, scopeF, stands, isFormal⟩
      cases scopeA.symm.trans scopeF
      exact ⟨formal, stands, isFormal⟩
  refine ⟨caller, around, ?_⟩
  rcases way with ⟨declared, way⟩ | ⟨other, capturedC, rfl⟩
  · rw [if_pos declared]
    have target : p.callee? call = some g := by rw [callee?, kind]; rfl
    have scopeAnchor :=
      scope_anchor settled linked.lexical reached target captured declared around found
    have lent {temp : SymbolId} {init tempDef : NodeId} (tempFor : TempFor p w t anchor init
        ((p.symbol s).ty.refForm.getD (p.symbol s).ty) temp tempDef a) (lends : Lends p q s init) :
        LentTo p q call s a :=
      lentTo_of_tempFor linked underway.evolved moved converted.settled.sound reached reachedT isCall
        found scopeAnchor (reachedT.child childT) tempFor lends
    rcases way with ⟨helper, rfl⟩ | ⟨helper, form, rfl⟩ | ⟨helper, form, rfl⟩
    · rw [if_pos helper]
      rcases onward rfl with same | ⟨formal, ⟨fnDef, d, _, pair, _⟩, _⟩
      · exact ref same
      · -- A function captures nothing that it declares.
        have outer := Captures.isOuterVar_of_mem (List.of_mem_zip pair).1
        simp [isOuterVar, declared] at outer
    · rw [if_neg (by rw [helper]; simp)]
      cases indirect (by simp) with
      | @address _ temp _ r init tempDef tempFor initNew address refNew of =>
        refine lent tempFor ?_
        rw [Lends, if_pos form]
        exact ⟨r, by rw [moved.order.kind (by rw [address]; rfl), address], ref of⟩
    · rw [if_neg (by rw [helper]; simp)]
      cases indirect (by simp) with
      | @copy _ temp _ init tempDef tempFor initNew of =>
        have none : (p.symbol s).ty.refForm = none := by
          simpa [Ty.hasRefForm] using form
        have typed : TempFor p w t anchor init ((p.symbol s).ty.refForm.getD (p.symbol s).ty) temp
            tempDef a := by
          rwa [none]
        refine lent typed ?_
        rw [Lends, if_neg (by rw [form]; simp)]
        exact ref of
  · rw [if_neg other]
    rcases onward rfl with same | ⟨formal, ⟨fnDef, d, placed, pair, define⟩, isFormal⟩
    · exact absurd (ref same) (converted.not_passed_of_captured linked.lexical reached reachedQ isCall
        childQ scope fn capturedC)
    · refine ⟨d, formal, ?_, ?_, ref isFormal⟩
      · rwa [converts.formalDefs_eq converted.settled placed, List.drop_left]
      · rw [moved.order.kind (by rw [define]; rfl), define]

end Converts

/-- The formal that was made for a captured variable stands behind the old ones. -/
theorem FormalFor.formalOf {t : Program} {s formal : SymbolId} {d : NodeId}
    (formalFor : FormalFor p t s formal d) (moved : Relocates t q) : FormalOf p q s formal d where
  define := by rw [moved.order.kind (by rw [formalFor.define]; rfl), formalFor.define]
  fresh := formalFor.fresh
  name_eq := (moved.name formal).trans formalFor.name_eq
  ty_eq := (moved.ty formal).trans formalFor.ty_eq

/-- Also where no call is listed yet, a function gets a formal for each variable that it captures. -/
theorem formals_of_convertible {result : TransformResult} (convertible : Convertible p)
    (converts : flatten p = .ok result q) {g : SymbolId} (member : g ∈ p.registries.fns) :
    ∃ new, q.formalDefs g = p.formalDefs g ++ new ∧
      List.Forall₂ (fun s d => ∃ formal, FormalOf p q s formal d)
        ((Captures.compute p (.build p)).of g) new := by
  have settled := convertible.settled
  obtain ⟨converted, _⟩ := (flatten_converts settled convertible.lexical).of_ok converts
  rcases (flatten_transforming convertible).of_ok converts with
    ⟨unnested, rfl⟩ | ⟨_, passed, first, start, w, t, _, _, _, way⟩
  · exact ⟨[], (List.append_nil _).symm, captures_eq_nil settled unnested g ▸ .nil⟩
  · obtain ⟨fnDef, placed⟩ := settled.placed_of_registered member
    exact ⟨_, way.formalDefs_eq converted.settled placed, (way.underway.formals placed).imp
      fun s d => Exists.imp fun formal formalFor => formalFor.formalOf way.moved⟩

section

variable {result : TransformResult} (linked : Linked p) (converts : flatten p = .ok result q)
include linked converts

/-- A function gets a formal for each variable that it captures. -/
theorem formals_of_flatten {g : SymbolId} (member : g ∈ p.registries.fns) :
    ∃ new, q.formalDefs g = p.formalDefs g ++ new ∧
      List.Forall₂ (fun s d => ∃ formal, FormalOf p q s formal d)
        ((Captures.compute p (.build p)).of g) new :=
  formals_of_convertible (convertible_of_linked linked) converts member

/-- A call keeps the number of its actuals and gets one for each variable that its function
captures. -/
theorem actuals_of_flatten {call : NodeId} {g : SymbolId} (reachedQ : q.Reached call)
    (target : q.callee? call = some g) : g ∈ p.registries.fns ∧
      ∃ args args' new, p.callArgs? call = some args ∧ q.callArgs? call = some (args' ++ new) ∧
        args'.length = args.length ∧
        List.Forall₂ (Corresponds p q g call) ((Captures.compute p (.build p)).of g) new := by
  have settled := linked.settled
  obtain ⟨converted, _⟩ := (flatten_converts settled linked.lexical).of_ok converts
  have isCall : (q.kind call).isCall = true := by
    rw [callee?] at target
    cases kind : q.kind call <;> simp_all [NodeKind.callee?, NodeKind.isCall]
  obtain ⟨reached, _, same⟩ := converted.call_before reachedQ isCall
  have targetP : p.callee? call = some g := same.symm.trans target
  obtain ⟨d, placed⟩ := settled.placed_of_callee linked.lexical reached targetP
  refine ⟨settled.registered_of_placed placed, ?_⟩
  obtain ⟨name, args, kind⟩ : ∃ name args, p.kind call = .call (some g) name args := by
    rw [callee?] at targetP
    cases kind : p.kind call <;> simp_all [NodeKind.callee?]
  rcases (flatten_converting linked).of_ok converts with
    ⟨unnested, rfl⟩ | ⟨passed, first, start, w, t, way⟩
  · refine ⟨args, args, [], by simp [callArgs?, kind], by simp [callArgs?, kind], rfl, ?_⟩
    exact captures_eq_nil settled unnested g ▸ .nil
  · have kindT := way.callArgs reached (way.moved.reached.mp reachedQ) kind
    have kindQ := (way.moved.order.kind (n := call) (by rw [kindT]; rfl)).trans kindT
    refine ⟨args, args.map w.swap, first.added call, by simp [callArgs?, kind],
      by simp [callArgs?, kindQ], List.length_map _, ?_⟩
    have passes := way.passes reached targetP
    rw [List.forall₂_iff_zip] at passes ⊢
    exact ⟨passes.1, fun {s a} pair => way.corresponds linked converted reachedQ reached kind
      (List.of_mem_zip pair).1 (List.of_mem_zip pair).2 (passes.2 pair)⟩

end

/-- After closure conversion a function has a new formal for each variable that it captures, in their
order, and every call of it has a new actual for each of them, so that the number of actuals of a call
differs from the number of formals of its function by as much as before. -/
theorem flatten_corresponds {result : TransformResult} (linked : Linked p)
    (converts : flatten p = .ok result q) :
    (∀ g ∈ p.registries.fns, ∃ new, q.formalDefs g = p.formalDefs g ++ new ∧
      List.Forall₂ (fun s d => ∃ formal, FormalOf p q s formal d)
        ((Captures.compute p (.build p)).of g) new) ∧
    ∀ call g, q.Reached call → q.callee? call = some g → g ∈ p.registries.fns ∧
      ∃ args args' new, p.callArgs? call = some args ∧ q.callArgs? call = some (args' ++ new) ∧
        args'.length = args.length ∧
        List.Forall₂ (Corresponds p q g call) ((Captures.compute p (.build p)).of g) new ∧
        (args' ++ new).length + (p.formalDefs g).length = args.length + (q.formalDefs g).length := by
  refine ⟨fun g => formals_of_flatten linked converts, fun call g reached target => ?_⟩
  obtain ⟨member, args, args', new, before, after, kept, corresponds⟩ :=
    actuals_of_flatten linked converts reached target
  refine ⟨member, args, args', new, before, after, kept, corresponds, ?_⟩
  obtain ⟨formals, behind, made⟩ := formals_of_flatten linked converts member
  have actualCount := corresponds.length_eq
  have formalCount := made.length_eq
  rw [behind, List.length_append, List.length_append]
  omega

/-- Both calls of `nestedTree` get two actuals: the outer function lends its formal and its variable,
and the inner one hands them on. -/
theorem nestedLinked_corresponds :
    let p := Surface.nestedLinked
    let q := left (flatten p)
    q.registries.calls.length = 2 ∧ ∀ call ∈ q.registries.calls, ∃ g args' new,
      q.callArgs? call = some (args' ++ new) ∧ new.length = 2 ∧
        List.Forall₂ (Corresponds p q g call) ((Captures.compute p (.build p)).of g) new := by
  have linked := Surface.nestedLinked_linked
  have success : succeeds (flatten Surface.nestedLinked) = true := by decide +kernel
  obtain ⟨result, converts⟩ := exists_ok_of_succeeds success
  obtain ⟨converted, _⟩ := (flatten_converts linked.settled linked.lexical).of_ok converts
  refine ⟨by decide +kernel, fun call member => ?_⟩
  have bound : ∀ call ∈ (left (flatten Surface.nestedLinked)).registries.calls,
      ∃ g ∈ Surface.nestedLinked.registries.fns,
        (left (flatten Surface.nestedLinked)).callee? call = some g ∧
        ((Captures.compute Surface.nestedLinked (.build Surface.nestedLinked)).of g).length = 2 := by
    decide +kernel
  obtain ⟨g, _, target, two⟩ := bound call member
  have reached := (converted.settled.sound.exact.mem_calls.mp member).1
  obtain ⟨_, _, args', new, _, after, _, corresponds, _⟩ :=
    (flatten_corresponds linked converts).2 call g reached target
  exact ⟨g, args', new, after, corresponds.length_eq.symm.trans two, corresponds⟩

end Closure

end MiddleEnd
