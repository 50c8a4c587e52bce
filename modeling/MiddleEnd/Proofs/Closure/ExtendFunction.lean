import MiddleEnd.Proofs.Closure.ExtendCall

namespace MiddleEnd

open Outcome

namespace NodeKind

theorem loop_of_test_slot {k : NodeKind} {c : NodeId} (member : (Slot.test, c) ∈ k.slots) :
    k.tag = .loop := by
  cases k <;> simp [slots] at member
  rfl

end NodeKind

namespace Program

variable {p : Program}

theorem Fits.of_prim {c t : NodeId} {slot : Slot} (fits : p.Fits c slot)
    (tag : (p.kind c).tag = .prim) (expr : (p.kind t).isExpr = true) : p.Fits t slot := by
  cases kind : p.kind c <;> simp [kind, NodeKind.tag] at tag
  cases slot <;> simp [Fits, kind, NodeKind.tag, NodeKind.isBlock] at fits ⊢
  exact expr

theorem Fits.of_symRef {c t : NodeId} {slot : Slot} (fits : p.Fits c slot)
    (tag : (p.kind c).tag = .symRef) (same : (p.kind t).tag = .symRef) : p.Fits t slot := by
  have expr : (p.kind t).isExpr = true := NodeKind.isExpr_iff.mpr (.inl same)
  cases kind : p.kind c <;> simp [kind, NodeKind.tag] at tag
  cases slot <;> simp [Fits, kind, NodeKind.tag, NodeKind.isBlock] at fits ⊢
  · exact expr
  · exact same

/-- Away from the condition of a loop, any expression may take the place of a reference. -/
theorem Fits.of_symRef_of_not_test {c t : NodeId} {slot : Slot} (fits : p.Fits c slot)
    (tag : (p.kind c).tag = .symRef) (other : slot ≠ .test) (expr : (p.kind t).isExpr = true) :
    p.Fits t slot := by
  cases kind : p.kind c <;> simp [kind, NodeKind.tag] at tag
  cases slot <;> simp [Fits, kind, NodeKind.tag, NodeKind.isBlock] at fits other ⊢
  exact expr

end Program

namespace Closure

open Program TransformM

variable {base p : Program} {pending : NodeId → SymbolId → SymbolId → Prop} {E : Program → Prop}

theorem bind_supplyTemp {α : Type} (anchor : NodeId) (ty : Ty) (init : NodeId) (span : Span)
    (rest : NodeId → TransformM α) :
    supplyTemp anchor ty init span >>= rest = (do
      let temp ← build (·.addTemp ty)
      let tempDef ← build (·.addDefinition temp (some init) span)
      edit (·.insertBefore anchor tempDef)
      let ref ← build (·.addRef temp span)
      rest ref) := by
  simp only [supplyTemp, bind_assoc]

/-- A reference of the function `f`, and the formal that is to take its place. -/
structure Redirects (p : Program) (f formal : SymbolId) (ref : NodeId) : Prop where
  reached : p.Reached ref
  tag : (p.kind ref).tag = .symRef
  scope : p.scope? ref = some f
  fn : p.isFn f = true
  known : formal.index < p.symbols.size
  value : (p.symbol formal).isValue = true
  home : p.Home formal f

theorem Redirects.frame {q : Program} {f formal : SymbolId} {ref : NodeId}
    (redirects : Redirects p f formal ref) (frame : Frame p q) (settled : p.Settled)
    (settledQ : q.Settled) (live : q.Live ref) : Redirects q f formal ref where
  reached := frame.kept redirects.reached (.inr live)
  tag := (frame.tag (settled.sound.live_of_reached redirects.reached).known).trans redirects.tag
  scope := (frame.scope redirects.reached live).trans redirects.scope
  fn := by
    rw [frame.isFn (settled.scope_known redirects.reached redirects.scope)]
    exact redirects.fn
  known := redirects.known.trans_le frame.symbols_size
  value := by
    rw [Symbol.isValue_iff, frame.sort redirects.known, ← Symbol.isValue_iff]
    exact redirects.value
  home := frame.home settled.sound settledQ.sound redirects.home

theorem Redirects.isExpr {f formal : SymbolId} {ref : NodeId} (redirects : Redirects p f formal ref) :
    (p.kind ref).isExpr = true :=
  NodeKind.isExpr_iff.mpr (.inl redirects.tag)

theorem Redirects.replace {q : Program} {f formal v : SymbolId} {ref t : NodeId}
    (redirects : Redirects p f formal ref) (stage : Stage base pending p)
    (sprig : p.Sprig t (· = v)) (home : p.Home v f) (result : p.replace ref t = .ok q)
    (fits : ∀ {owner slot}, p.parent? ref = some owner → (slot, ref) ∈ (p.kind owner).slots →
      p.Fits t slot) : Stage base pending q ∧ ¬ q.Live ref := by
  obtain ⟨stageQ, _, dead⟩ := stage.replace sprig result redirects.isExpr redirects.reached fits
    fun n w g same scope _ => by
      rw [redirects.scope] at scope
      cases scope
      subst same
      exact .inl home
  exact ⟨stageQ, dead ref .refl⟩

theorem Redirects.setRef {f formal : SymbolId} {ref : NodeId} (redirects : Redirects p f formal ref)
    (live : p.Live ref) : ∃ q, p.setRef ref formal = .ok q := by
  have tag := redirects.tag
  cases kind : p.kind ref <;> simp [kind, NodeKind.tag] at tag
  rename_i old
  exact ⟨_, setRef_eq_ok_iff.mpr ⟨live, ⟨old, kind⟩, rfl⟩⟩

theorem useOf_cases (p : Program) (ref : NodeId) :
    (∃ prim args, useOf p ref = .addressOf prim ∧ p.parent? ref = some prim ∧
      p.kind prim = .prim .addrOf args) ∨
    (∃ owner value, useOf p ref = .store ∧ p.parent? ref = some owner ∧
      p.kind owner = .assign ref value) ∨ useOf p ref = .read := by
  rw [useOf]
  split
  · exact .inr (.inr rfl)
  · rename_i owner link
    split
    · rename_i args kind
      exact .inl ⟨owner, args, rfl, link, kind⟩
    · rename_i target value kind
      split
      · rename_i same
        subst same
        exact .inr (.inl ⟨owner, value, rfl, link, kind⟩)
      · exact .inr (.inr rfl)
    · exact .inr (.inr rfl)

section

variable {f formal : SymbolId} {ref t : NodeId} (settled : p.Settled)
  (redirects : Redirects p f formal ref)

include settled in
/-- Any expression may take the place of an operator. -/
theorem fits_of_prim {prim : NodeId} (live : p.Live prim) (tag : (p.kind prim).tag = .prim)
    (expr : (p.kind t).isExpr = true) {owner : NodeId} {slot : Slot}
    (link : p.parent? prim = some owner) (member : (slot, prim) ∈ (p.kind owner).slots) :
    p.Fits t slot :=
  ((settled.lawful (settled.sound.forest.owner_live live link)).fits member).of_prim tag expr

include settled redirects

/-- Where no statement of the body stands around a reference, any expression may take its place: it
is not the condition of a loop. -/
theorem Redirects.fits_outside (expr : (p.kind t).isExpr = true)
    (outside : ((p.enclosingStmt? ref).filter fun stmt =>
      (p.fnBody? f).any fun body => p.isAncestor body stmt) = none) {owner : NodeId} {slot : Slot}
    (link : p.parent? ref = some owner) (member : (slot, ref) ∈ (p.kind owner).slots) :
    p.Fits t slot := by
  have sound := settled.sound
  have placed := settled.sound.innermost_of_scope redirects.reached redirects.scope redirects.fn
  have live := sound.live_of_reached redirects.reached
  have liveOwner := sound.forest.owner_live live link
  refine ((settled.lawful liveOwner).fits member).of_symRef_of_not_test redirects.tag ?_ expr
  -- The condition of a loop has the loop as its statement, and that stands in the body.
  rintro rfl
  have loop := NodeKind.loop_of_test_slot member
  have reachedOwner := sound.forest.reached_owner sound.rooted redirects.reached link
  have scope : p.scope? owner = some f := by
    have child := sound.forest.owner_lists live link
    rw [← redirects.scope, sound.scope_below reachedOwner child, scopeBelow_eq]
    cases kind : p.kind owner <;> simp [kind, NodeKind.tag] at loop
    rfl
  have notExpr : (p.kind owner).isExpr = false := by
    cases kind : p.kind owner <;> simp [kind, NodeKind.tag] at loop
    rfl
  obtain ⟨body, found, above⟩ :=
    settled.body_above reachedOwner notExpr (by rw [loop]; decide) scope redirects.fn
  have notBlock : (p.kind owner).isBlock = false := by
    cases kind : p.kind owner <;> simp [kind, NodeKind.tag] at loop
    rfl
  have enclosing : p.enclosingStmt? ref = some owner := by
    obtain ⟨b, linkB⟩ : ∃ b, p.parent? owner = some b := by
      cases linkB : p.parent? owner with
      | some b => exact ⟨b, rfl⟩
      | none =>
        obtain ⟨d, inner⟩ := placed
        have aboveD := inner.above.owner_of_ne link inner.ne
        have same := aboveD.eq_of_top linkB
        have fnDef := inner.fnDef
        rw [same] at fnDef
        cases kind : p.kind owner <;> simp [kind, NodeKind.tag, NodeKind.isFnDef] at loop fnDef
    rw [sound.forest.enclosingStmt?_of_parent link, notBlock, if_neg Bool.false_ne_true,
      sound.forest.enclosingStmt?_of_parent linkB]
    have isBlock := settled.block_of_owner liveOwner linkB fun slot fits => by
      cases kind : p.kind owner <;> simp [kind, NodeKind.tag] at loop
      cases slot <;> simp [Fits, kind, NodeKind.isExpr, NodeKind.tag, NodeKind.isBlock] at fits ⊢
    rw [isBlock, if_pos rfl]
  rw [enclosing, Option.filter_eq_none_iff] at outside
  refine outside owner rfl ?_
  rw [found, Option.any_some]
  exact sound.forest.isAncestor_iff.mpr above

/-- The statement in front of which a read is moved belongs to the function. -/
theorem Redirects.scope_inside {stmt : NodeId}
    (inside : ((p.enclosingStmt? ref).filter fun stmt =>
      (p.fnBody? f).any fun body => p.isAncestor body stmt) = some stmt) :
    p.Standing stmt ∧ p.scope? stmt = some f := by
  have sound := settled.sound
  obtain ⟨enclosing, inBody⟩ := Option.filter_eq_some_iff.mp inside
  have standing := standing_of_enclosingStmt? sound redirects.reached enclosing
  refine ⟨standing, ?_⟩
  rcases settled.enclosingStmt?_scope redirects.reached enclosing with same | ⟨fnDef, defines⟩
  · rw [same, redirects.scope]
  · -- The function itself does not stand in its own body.
    exfalso
    rw [redirects.scope] at defines
    obtain ⟨_, formals, body, kind, found⟩ :=
      settled.fnBody?_eq ⟨standing.1, fnDef, defines.symm⟩
    rw [found, Option.any_some] at inBody
    have above := sound.forest.isAncestor_iff.mp inBody
    have live := sound.live_of_reached standing.1
    have child : body ∈ p.children stmt := by
      rw [children, kind]
      simp [NodeKind.children]
    have below := Above.of_parent (sound.forest.child_parent live child)
    exact sound.forest.child_ne live child (sound.forest.above_antisymm above below)

end

/-- Taking the address of a variable becomes the formal itself, which holds the address. -/
theorem replaceAddress_ends {f formal : SymbolId} {ref prim : NodeId} {args : List NodeId}
    {span : Span} (stage : Stage p pending p) (redirects : Redirects p f formal ref)
    (link : p.parent? ref = some prim) (kind : p.kind prim = .prim .addrOf args) :
    Ends (edit (·.replace prim (p.addRef formal span).1)) (p.addRef formal span).2
      (fun _ q => Stage p pending q ∧ ¬ q.Live ref) E := by
  have sound := stage.settled.sound
  have sprouts := stage.addRef redirects.known redirects.value span
  have soundT := sprouts.stage.settled.sound
  have reached := sound.forest.reached_owner sound.rooted redirects.reached link
  have known := (sound.live_of_reached reached).known
  have tag : ((p.addRef formal span).2.kind prim).tag = .prim := by
    rw [sprouts.frame.tag known, kind]
    rfl
  have expr := NodeKind.isExpr_iff.mpr (.inr (.inr (.inr (.inr tag))))
  have live := sprouts.lives (sound.live_of_reached reached)
  have reachedT := sprouts.frame.kept reached (.inr live)
  refine ends_edit_of_exists (sprouts.sprig.replace soundT reachedT expr) fun q result => ?_
  have scope : (p.addRef formal span).2.scope? prim = some f := by
    have child := sound.forest.owner_lists (sound.live_of_reached redirects.reached) link
    rw [sprouts.frame.scope reached live, ← redirects.scope, sound.scope_below reached child,
      scopeBelow, kind]
  obtain ⟨stageQ, _, dead⟩ := sprouts.stage.replace sprouts.sprig result expr reachedT
    (fits_of_prim sprouts.stage.settled live tag (NodeKind.isExpr_iff.mpr (.inl sprouts.tag_eq)))
    (fun n v g same scopeG _ => by
      rw [scope] at scopeG
      cases scopeG
      subst same
      exact .inl (sprouts.frame.home sound soundT redirects.home))
  refine ⟨stageQ, dead ref (.of_parent ?_)⟩
  rw [sprouts.frame.parent redirects.reached
    (sprouts.lives (sound.live_of_reached redirects.reached))]
  exact link

/-- A read goes through a variable in front of its statement, if that stands in the body. -/
theorem replaceRead_ends {f formal : SymbolId} {ref deref : NodeId} {ty : Ty} {span : Span}
    (settled : p.Settled) (leads : p.Leads pending) (redirects : Redirects p f formal ref)
    (sprig : p.Sprig deref (· = formal)) (expr : (p.kind deref).isExpr = true) :
    Ends (match (p.enclosingStmt? ref).filter fun stmt =>
        (p.fnBody? f).any fun body => p.isAncestor body stmt with
      | none => edit (·.replace ref deref)
      | some stmt => do
        let temp ← build (·.addTemp ty)
        let tempDef ← build (·.addDefinition temp (some deref) span)
        edit (·.insertBefore stmt tempDef)
        let tempRef ← build (·.addRef temp span)
        edit (·.replace ref tempRef)) p
      (fun _ q => Stage p pending q ∧ ¬ q.Live ref) E := by
  have stage : Stage p pending p := .refl settled leads
  split
  · rename_i outside
    refine ends_edit_of_exists
      (sprig.replace settled.sound redirects.reached redirects.isExpr) fun q result => ?_
    exact redirects.replace stage sprig redirects.home result
      (redirects.fits_outside settled expr outside)
  · rename_i stmt inside
    obtain ⟨standing, scope⟩ := redirects.scope_inside settled inside
    rw [← bind_supplyTemp]
    refine Ends.bind (supplyTemp_ends stage sprig expr standing
      (settled.sound.live_of_reached standing.1) ?_) ?_
    · intro n v g same scopeG _
      rw [scope] at scopeG
      cases scopeG
      subst same
      exact .inl redirects.home
    · rintro tempRef t ⟨lives, ⟨temp, sprigT, home⟩, stageT, tag⟩
      have live := lives (settled.sound.live_of_reached redirects.reached)
      have redirectsT := redirects.frame stageT.frame settled stageT.settled live
      refine ends_edit_of_exists
        (sprigT.replace stageT.settled.sound redirectsT.reached redirectsT.isExpr) fun q result => ?_
      refine redirectsT.replace stageT sprigT (home f scope) result fun link member => ?_
      have owner := stageT.settled.sound.forest.owner_live live link
      exact ((stageT.settled.lawful owner).fits member).of_symRef redirectsT.tag tag

theorem throughRef_ends {f formal : SymbolId} {ref : NodeId} (settled : p.Settled)
    (leads : p.Leads pending) (redirects : Redirects p f formal ref) :
    Ends (throughRef f ref formal) p (fun _ q => Stage p pending q ∧ ¬ q.Live ref) E := by
  have sound := settled.sound
  have stage : Stage p pending p := .refl settled leads
  have live := sound.live_of_reached redirects.reached
  unfold throughRef
  refine Ends.get_bind (ends_build_bind ?_)
  have formalRef := stage.addRef redirects.known redirects.value (p.span ref)
  have isRef := NodeKind.isExpr_iff.mpr (.inl formalRef.tag_eq)
  have deref := formalRef.stage.addPrim formalRef.sprig isRef .deref (p.span ref)
  have isExpr := NodeKind.isExpr_iff.mpr (.inr (.inr (.inr (.inr deref.tag_eq))))
  have liveT := deref.lives (formalRef.lives live)
  have redirectsT := redirects.frame deref.stage.frame settled deref.stage.settled liveT
  rcases useOf_cases p ref with ⟨prim, args, use, link, kind⟩ | ⟨owner, value, use, link, kind⟩ | use
  · rw [use]
    exact replaceAddress_ends stage redirects link kind
  · rw [use]
    refine ends_build_bind (ends_edit_of_exists (deref.sprig.replace deref.stage.settled.sound
      redirectsT.reached redirectsT.isExpr) fun q result => ?_)
    refine redirectsT.replace deref.stage deref.sprig redirectsT.home result
      fun {owner' slot} link' member => ?_
    rw [deref.stage.frame.parent redirects.reached liveT, link] at link'
    cases link'
    have reachedOwner := sound.forest.reached_owner sound.rooted redirects.reached link
    have tag := deref.stage.frame.tag (sound.live_of_reached reachedOwner).known
    rw [kind] at tag
    cases NodeKind.slot_of_assign tag member
    exact isExpr
  · rw [use]
    refine ends_build_bind (Ends.get_bind ?_)
    exact (replaceRead_ends deref.stage.settled deref.stage.leads redirectsT deref.sprig isExpr).mono
      (fun _ q kept => ⟨deref.stage.trans kept.1, kept.2⟩) fun _ => id

theorem redirect_ends {f formal : SymbolId} {ref : NodeId} {asItIs : NodeId → Bool}
    (settled : p.Settled) (leads : p.Leads pending)
    (redirects : p.Live ref → Redirects p f formal ref) :
    Ends (redirect f formal asItIs ref) p
      (fun _ q => Stage p pending q ∧ (q.Live ref → (q.kind ref).symRef? = some formal)) E := by
  unfold redirect
  refine Ends.get_bind ?_
  split
  · rename_i live
    have here := redirects live
    split
    · refine ends_edit_of_exists (here.setRef live) fun q result => ?_
      obtain ⟨stage, _, ref⟩ := (Stage.refl settled leads).setRef result here.known here.value
        here.scope here.home
      exact ⟨stage, fun _ => ref⟩
    · exact (throughRef_ends settled leads here).mono
        (fun _ q kept => ⟨kept.1, fun live => absurd live kept.2⟩) fun _ => id
  · rename_i dead
    exact Ends.pure ⟨.refl settled leads, fun live => absurd live dead⟩

/-- The references to `var` in `f` that are still to be redirected. -/
def Waiting (pending : NodeId → SymbolId → SymbolId → Prop) (f var : SymbolId) (rest : List NodeId)
    (n : NodeId) (g v : SymbolId) : Prop :=
  pending n g v ∨ g = f ∧ v = var ∧ n ∈ rest

theorem redirectAll_ends {f formal var : SymbolId} {asItIs : NodeId → Bool} {uses : List NodeId}
    (settled : p.Settled) (leads : p.Leads (Waiting pending f var uses))
    (redirects : ∀ ref ∈ uses, Redirects p f formal ref) (other : formal ≠ var) :
    Ends (uses.forM (redirect f formal asItIs)) p (fun _ => Stage p pending) E := by
  refine (Ends.forM (I := fun rest t => Stage p (Waiting pending f var rest) t ∧
    ∀ ref ∈ rest, Redirects p f formal ref) ⟨.refl settled leads, redirects⟩ ?_).mono ?_ fun _ => id
  · rintro ref rest t ⟨stage, redirects⟩
    refine (redirect_ends stage.settled stage.leads fun live =>
      (redirects ref (List.mem_cons_self ..)).frame stage.frame settled stage.settled live).mono
      ?_ fun _ => id
    rintro _ q ⟨stageQ, done⟩
    refine ⟨?_, fun r member => redirects r (List.mem_cons_of_mem _ member)⟩
    refine { stage.trans stageQ with leads := stageQ.leads.mono ?_ }
    rintro n v g reached target _ (old | ⟨rfl, rfl, member⟩)
    · exact .inl old
    · rcases List.mem_cons.mp member with rfl | later
      · rw [done (stageQ.settled.sound.live_of_reached reached)] at target
        exact absurd (Option.some.inj target) other
      · exact .inr ⟨rfl, rfl, later⟩
  · rintro _ t ⟨stage, _⟩
    refine { stage with leads := stage.leads.mono ?_ }
    rintro n v g _ _ _ (old | ⟨_, _, member⟩)
    · exact old
    · cases member

end Closure

end MiddleEnd
