import MiddleEnd.Closure.Flatten
import MiddleEnd.Proofs.Closure.Stage

namespace MiddleEnd

open Outcome

namespace Program

variable {base p q : Program} {pending : NodeId → SymbolId → SymbolId → Prop}

theorem Stage.refl (settled : p.Settled) (leads : p.Leads pending) : Stage p pending p where
  base_settled := settled
  settled := settled
  frame := .refl
  leads := leads

theorem Stage.trans {earlier : NodeId → SymbolId → SymbolId → Prop}
    (first : Stage base earlier p) (second : Stage p pending q) :
    Stage base pending q where
  base_settled := first.base_settled
  settled := second.settled
  frame := first.frame.trans second.frame first.base_sound first.settled.sound
  leads := second.leads

theorem live_of_insertBefore (sound : p.Sound) {anchor t : NodeId}
    (result : p.insertBefore anchor t = .ok q) : p.Live anchor := by
  obtain ⟨_, ⟨live, _⟩, _⟩ := (insertNear_eq_ok_iff sound.forest).mp result
  exact live

theorem live_of_append (sound : p.Sound) {owner t : NodeId} (result : p.append owner t = .ok q) :
    p.Live owner :=
  ((append_eq_ok_iff sound.forest).mp result).1.owner_live

theorem live_of_replace (sound : p.Sound) {old t : NodeId} (result : p.replace old t = .ok q) :
    p.Live old := by
  obtain ⟨_, ⟨live, _⟩, _⟩ := (replace_eq_ok_iff sound.forest).mp result
  exact live

theorem standing_of_enclosingStmt? (sound : p.Sound) {n stmt : NodeId} (reached : p.Reached n)
    (found : p.enclosingStmt? n = some stmt) : p.Standing stmt := by
  obtain ⟨above, block, _⟩ := sound.forest.enclosingStmt?_eq_some found
  exact ⟨reached.of_below sound above, block⟩

/-- What can be reached and is no block stands in a statement, since the roots are blocks. -/
theorem exists_enclosingStmt? (sound : p.Sound) {n : NodeId} (reached : p.Reached n)
    (notBlock : (p.kind n).isBlock = false) : ∃ stmt, p.enclosingStmt? n = some stmt := by
  induction reached with
  | root root =>
    obtain ⟨m, member, block⟩ := mem_roots.mp root
    rw [sound.rooted.root_block member block] at notBlock
    cases notBlock
  | @child owner n reached child ih =>
    rw [sound.forest.enclosingStmt?_of_parent
      (sound.forest.child_parent (sound.live_of_reached reached) child)]
    cases isBlock : (p.kind owner).isBlock with
    | true => exact ⟨n, if_pos rfl⟩
    | false =>
      rw [if_neg Bool.false_ne_true]
      exact ih isBlock

theorem Frame.enclosingStmt? (frame : Frame p q) (sound : p.Sound) (soundQ : q.Sound) {n : NodeId}
    (reached : p.Reached n) (live : q.Live n) : q.enclosingStmt? n = p.enclosingStmt? n := by
  have link := frame.parent reached live
  induction reached with
  | root root =>
    have top := sound.rooted.top_of_root root
    rw [sound.forest.enclosingStmt?_of_top top, soundQ.forest.enclosingStmt?_of_top (link.trans top)]
  | @child owner n reached child ih =>
    have liveOwner := sound.live_of_reached reached
    have linkP := sound.forest.child_parent liveOwner child
    have linkQ := link.trans linkP
    have liveOwnerQ := soundQ.forest.owner_live live linkQ
    rw [sound.forest.enclosingStmt?_of_parent linkP, soundQ.forest.enclosingStmt?_of_parent linkQ,
      isBlock_of_tag (frame.tag liveOwner.known),
      ih liveOwnerQ (frame.parent reached liveOwnerQ)]

end Program

namespace Closure

open Program TransformM

/-! None of the runs below can fail: the edits are made where they are allowed. So what a failed run
would leave is free. -/

variable {base p : Program} {pending : NodeId → SymbolId → SymbolId → Prop}
  {targets : SymbolId → Prop} {E : Program → Prop}

/-- A variable with the value `init` stands in front of `anchor`, and `ref` refers to it. -/
structure Stored (base : Program) (pending : NodeId → SymbolId → SymbolId → Prop) (p : Program)
    (anchor ref : NodeId) (q : Program) : Prop where
  lives {n : NodeId} : p.Live n → q.Live n
  temp : ∃ temp, q.Sprig ref (· = temp) ∧ ∀ f, base.scope? anchor = some f → q.Home temp f
  stage : Stage base pending q
  tag : (q.kind ref).tag = .symRef

theorem supplyTemp_ends (stage : Stage base pending p) {anchor init : NodeId} {ty : Ty}
    {span : Span} (sprig : p.Sprig init targets) (expr : (p.kind init).isExpr = true)
    (standing : base.Standing anchor) (there : p.Live anchor)
    (fresh : ∀ n v f, targets v → base.scope? anchor = some f → p.isFn f = true →
      p.Home v f ∨ pending n f v) :
    Ends (supplyTemp anchor ty init span) p (Stored base pending p anchor) E := by
  have sound := stage.settled.sound
  unfold supplyTemp
  refine ends_build_bind ?_
  have stage1 : Stage base pending (p.addTemp ty).2 := stage.addSymbol rfl rfl
  have sprig1 : (p.addTemp ty).2.Sprig init targets := sprig.addSymbol sound _
  have undefined : (p.addTemp ty).2.Undefined (p.addTemp ty).1 :=
    undefined_addSymbol sound (by simp [SymbolKind.sort]) (by simp [SymbolKind.sort])
  have frame1 : Frame p (p.addTemp ty).2 := frame_addSymbol sound _
  have lives1 {n : NodeId} (live : p.Live n) : (p.addTemp ty).2.Live n := live
  have sort1 : ((p.addTemp ty).2.symbol (p.addTemp ty).1).kind.sort = .var := by
    rw [addTemp, symbol_addSymbol, if_pos rfl]
    rfl
  generalize (p.addTemp ty).1 = temp at *
  generalize (p.addTemp ty).2 = p1 at *
  refine ends_build_bind ?_
  obtain ⟨sprouts, defines⟩ := stage1.addDefinition undefined (some init)
    (fun c isInit => Option.some.inj isInit ▸ sprig1)
    (fun c isInit => by
      cases isInit
      rw [isExpr_of_tag (frame1.tag sprig.live.known)]
      exact expr) span
  generalize (p1.addDefinition temp (some init) span).1 = tempDef at *
  generalize (p1.addDefinition temp (some init) span).2 = p2 at *
  have frame2 := frame1.trans sprouts.frame sound stage1.settled.sound
  have live := sprouts.lives (lives1 there)
  have standing2 := sprouts.stage.frame.standing stage.base_sound standing live
  refine Ends.bind (ends_edit_of_exists (Q := fun _ p3 => Stage base pending p3 ∧ Frame p2 p3 ∧
    (∀ n, p2.Live n → p3.Live n) ∧ ∀ f, base.scope? anchor = some f → p3.Home temp f)
    (sprouts.sprig.insertBefore sprouts.stage.settled.sound standing2) fun p3 result => ?_) ?_
  · have scope := sprouts.stage.frame.scope standing.1 live
    obtain ⟨stage3, owner, below, attached⟩ :=
      sprouts.stage.insertBefore sprouts.sprig result standing2 fun n v f target scopeF fn => by
          rw [scope] at scopeF
          have known := (stage.base_settled.scope_known standing.1 scopeF).trans_le
            stage.frame.symbols_size
          rw [frame2.isFn known] at fn
          exact (fresh n v f target scopeF fn).imp_left
            (frame2.home sound sprouts.stage.settled.sound)
    refine ⟨stage3, attached.frame, fun n => attached.lives, fun f scopeF =>
      ⟨tempDef, attached.reached, attached.defines.trans defines, .inl ?_⟩⟩
    rw [attached.scope, below, scope, scopeF]
  · rintro _ p3 ⟨stage3, frame3, lives3, home⟩
    have known : temp.index < p2.symbols.size :=
      undefined.known.trans_le sprouts.frame.symbols_size
    have value : (p3.symbol temp).isValue = true := by
      rw [Symbol.isValue_iff, frame3.sort known, sprouts.frame.sort undefined.known]
      exact .inl sort1
    have last := stage3.addRef (known.trans_le frame3.symbols_size) value span
    refine ends_build ⟨fun live => last.lives (lives3 _ (sprouts.lives (lives1 live))),
      ⟨temp, last.sprig, fun f scopeF => ?_⟩, last.stage, last.tag_eq⟩
    exact last.frame.home stage3.settled.sound last.stage.settled.sound (home f scopeF)

def Actual.var : Actual → SymbolId
  | addressOf v | copy v | direct v => v

/-- The caller may refer to the variable, and a new variable in front of the call's statement is the
caller's own, unless references may lead anywhere. -/
structure Available (p : Program) (pending : NodeId → SymbolId → SymbolId → Prop) (call : NodeId)
    (actual : Actual) : Prop where
  known : actual.var.index < p.symbols.size
  value : (p.symbol actual.var).isValue = true
  leads (n : NodeId) (f : SymbolId) : p.scope? call = some f → p.isFn f = true →
    p.Home actual.var f ∨ pending n f actual.var
  inside {anchor : NodeId} : (∀ v, actual ≠ .direct v) → p.enclosingStmt? call = some anchor →
    p.scope? anchor = p.scope? call ∨ ∀ n f v, pending n f v

/-- A detached reference that the call may take as an actual. -/
structure Supplies (base : Program) (pending : NodeId → SymbolId → SymbolId → Prop) (p : Program)
    (call : NodeId) (supplied : NodeId × Bool) (q : Program) : Prop where
  lives {n : NodeId} : p.Live n → q.Live n
  stage : Stage base pending q
  tag : (q.kind supplied.1).tag = .symRef
  sprig : ∃ targets, q.Sprig supplied.1 targets ∧
    ∀ n v f, targets v → base.scope? call = some f → base.isFn f = true →
      q.Home v f ∨ pending n f v

theorem supply_ends (stage : Stage base pending p) {call anchor : NodeId} {actual : Actual}
    {span : Span} (available : Available base pending call actual) (reached : base.Reached call)
    (found : base.enclosingStmt? call = some anchor) (there : p.Live anchor) :
    Ends (supply anchor span actual) p (Supplies base pending p call) E := by
  have standing := standing_of_enclosingStmt? stage.base_sound reached found
  have known := available.known.trans_le stage.frame.symbols_size
  have value : (p.symbol actual.var).isValue = true := by
    rw [Symbol.isValue_iff, stage.frame.sort available.known, ← Symbol.isValue_iff]
    exact available.value
  have leads {q : Program} (stageQ : Stage base pending q) (n : NodeId) (v f : SymbolId)
      (same : v = actual.var) (scope : base.scope? call = some f) (fn : base.isFn f = true) :
      q.Home v f ∨ pending n f v := by
    subst same
    exact (available.leads n f scope fn).imp_left
      (stageQ.frame.home stage.base_sound stageQ.settled.sound)
  have stored {q : Program} {init : NodeId} {ty : Ty} (stageQ : Stage base pending q)
      (lives : ∀ {n}, p.Live n → q.Live n) (indirect : ∀ v, actual ≠ .direct v) (sprig : q.Sprig init (· = actual.var))
      (expr : (q.kind init).isExpr = true) :
      Ends (do pure (← supplyTemp anchor ty init span, false)) q (Supplies base pending p call)
        E := by
    refine Ends.bind (supplyTemp_ends stageQ sprig expr standing (lives there) ?_) ?_
    · intro n v f same scope fn
      have knownF := stage.base_settled.scope_known standing.1 scope
      rw [stageQ.frame.isFn knownF] at fn
      rcases available.inside indirect found with sameScope | anywhere
      · rw [sameScope] at scope
        exact leads stageQ n v f same scope fn
      · exact .inr (anywhere n f v)
    · rintro ref t ⟨livesT, ⟨temp, sprigT, home⟩, stageT, tag⟩
      refine Ends.pure ⟨fun live => livesT (lives live), stageT, tag, _, sprigT,
        fun n v f same scope fn => ?_⟩
      subst same
      rcases available.inside indirect found with sameScope | anywhere
      · rw [← sameScope] at scope
        exact .inl (home f scope)
      · exact .inr (anywhere n f v)
  cases actual with
  | direct v =>
    refine ends_build_bind ?_
    have sprouts := stage.addRef known value span
    exact Ends.pure ⟨sprouts.lives, sprouts.stage, sprouts.tag_eq, _, sprouts.sprig, leads sprouts.stage⟩
  | addressOf v =>
    unfold supply
    refine Ends.get_bind ?_
    refine ends_build_bind ?_
    refine ends_build_bind ?_
    have ref := stage.addRef known value span
    have isExpr : ((p.addRef v span).2.kind (p.addRef v span).1).isExpr = true :=
      NodeKind.isExpr_iff.mpr (.inl ref.tag_eq)
    have address := ref.stage.addPrim ref.sprig isExpr .addrOf span
    exact stored address.stage (fun live => address.lives (ref.lives live)) nofun address.sprig
      (NodeKind.isExpr_iff.mpr (.inr (.inr (.inr (.inr address.tag_eq)))))
  | copy v =>
    unfold supply
    refine Ends.get_bind (ends_build_bind ?_)
    have ref := stage.addRef known value span
    exact stored ref.stage ref.lives nofun ref.sprig
      (NodeKind.isExpr_iff.mpr (.inl ref.tag_eq))

theorem scopeBelow_of_call {call : NodeId} (isCall : (p.kind call).isCall = true) :
    p.scopeBelow call = p.scope? call ∧ (p.kind call).listSlot = .expr ∧
      ∃ args, (p.kind call).childList? = some args := by
  cases kind : p.kind call <;> simp [kind, NodeKind.isCall] at isCall
  exact ⟨by rw [scopeBelow, kind], rfl, _, rfl⟩

/-- Nothing has been destroyed. -/
def Extended (p : Program) (pending : NodeId → SymbolId → SymbolId → Prop) (q : Program) : Prop :=
  Stage p pending q ∧ ∀ n, p.Live n → q.Live n

/-- A call gets its new actuals, and nothing else that refers to a symbol comes into being. -/
theorem extendCall_ends (settled : p.Settled) (leads : p.Leads pending) {plan : CallPlan}
    (reached : p.Reached plan.call) (isCall : (p.kind plan.call).isCall = true)
    (available : ∀ actual ∈ plan.actuals, Available p pending plan.call actual) :
    Ends (extendCall plan) p (fun _ => Extended p pending) E := by
  have notBlock : (p.kind plan.call).isBlock = false := by
    cases kind : p.kind plan.call <;> simp [kind, NodeKind.isCall] at isCall
    rfl
  obtain ⟨anchor, found⟩ := exists_enclosingStmt? settled.sound reached notBlock
  have standing := standing_of_enclosingStmt? settled.sound reached found
  unfold extendCall
  refine Ends.get_bind ?_
  rw [found]
  refine Ends.bind (Ends.mapM (I := fun rest t => Extended p pending t ∧
    ∀ actual ∈ rest, Available p pending plan.call actual) ⟨⟨.refl settled leads, fun _ => id⟩,
      available⟩ ?_) fun _ _ kept => Ends.pure kept.1
  rintro actual rest t ⟨⟨stage, lives⟩, available⟩
  refine Ends.bind (supply_ends stage (available actual (List.mem_cons_self ..)) reached found
    (lives _ (settled.sound.live_of_reached standing.1))) ?_
  rintro ⟨arg, passesOn⟩ t' ⟨lives', stage', tag, targets, sprig, fresh⟩
  have live := lives' (lives _ (settled.sound.live_of_reached reached))
  have isCall' : (t'.kind plan.call).isCall = true := by
    rw [isCall_of_tag (stage'.frame.tag (settled.sound.live_of_reached reached).known)]
    exact isCall
  have reached' := stage'.frame.kept reached (.inr live)
  obtain ⟨scope, slot, args, list⟩ := scopeBelow_of_call isCall'
  refine Ends.bind (ends_edit_of_exists (Q := fun _ => Extended p pending)
    (sprig.append stage'.settled.sound reached' list) fun q result => ?_) fun _ q kept =>
      Ends.pure ⟨kept, fun other member => available other (List.mem_cons_of_mem _ member)⟩
  obtain ⟨stageQ, attached⟩ := stage'.append sprig result
    (by
      rw [slot]
      exact NodeKind.isExpr_iff.mpr (.inl tag))
    reached' fun n v f target scopeF fn => by
      rw [scope, stage'.frame.scope reached live] at scopeF
      rw [stage'.frame.isFn (settled.scope_known reached scopeF)] at fn
      exact fresh n v f target scopeF fn
  exact ⟨stageQ, fun n liveN => attached.lives (lives' (lives n liveN))⟩

theorem Available.frame {q : Program} {call : NodeId} {actual : Actual}
    (available : Available p pending call actual) (reached : p.Reached call)
    (extended : Extended p pending q) : Available q pending call actual := by
  obtain ⟨stage, lives⟩ := extended
  have sound := stage.base_settled.sound
  have live := lives call (sound.live_of_reached reached)
  have scope := stage.frame.scope reached live
  refine
    { known := available.known.trans_le stage.frame.symbols_size
      value := ?_
      leads := fun n f scopeF fn => ?_
      inside := fun {anchor} indirect found => ?_ }
  · rw [Symbol.isValue_iff, stage.frame.sort available.known, ← Symbol.isValue_iff]
    exact available.value
  · rw [scope] at scopeF
    rw [stage.frame.isFn (stage.base_settled.scope_known reached scopeF)] at fn
    exact (available.leads n f scopeF fn).imp_left (stage.frame.home sound stage.settled.sound)
  · rw [stage.frame.enclosingStmt? sound stage.settled.sound reached live] at found
    have reachedA := (standing_of_enclosingStmt? sound reached found).1
    rw [stage.frame.scope reachedA (lives anchor (sound.live_of_reached reachedA)), scope]
    exact available.inside indirect found

end Closure

end MiddleEnd
