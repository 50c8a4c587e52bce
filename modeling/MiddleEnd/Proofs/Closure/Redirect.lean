import MiddleEnd.Proofs.Closure.Supply

namespace MiddleEnd

open Outcome

namespace Closure

open Program TransformM

variable {p t q u : Program} {w w' : Rework}

/-! What a use becomes. -/

/-- From `t` to `q` references and what is new stay as they are, and new references lead to new
symbols. -/
structure Keeps (p t q : Program) : Prop where
  frame : Frame t q
  retains (loose : NodeId → Prop) : Retains p.nodes.size loose t q
  refs {n : NodeId} {v : SymbolId} : t.kind n = .symRef v → q.kind n = .symRef v
  fresh {n : NodeId} {v : SymbolId} : t.nodes.size ≤ n.index → q.kind n = .symRef v →
    p.symbols.size ≤ v.index

theorem Keeps.trans (first : Keeps p t q) (second : Keeps p q u) (size : p.nodes.size ≤ t.nodes.size)
    (soundT : t.Sound) (soundQ : q.Sound) : Keeps p t u where
  frame := first.frame.trans second.frame soundT soundQ
  retains loose := (first.retains loose).trans (second.retains loose)
  refs ref := second.refs (first.refs ref)
  fresh {n v} above ref := by
    by_cases known : n.index < q.nodes.size
    · rw [(second.retains fun _ => False).kind (size.trans above) known id] at ref
      exact first.fresh above ref
    · exact second.fresh (Nat.not_lt.mp known) ref

theorem keeps_of_makes {targets : SymbolId → Prop} {kind : NodeKind} {id : NodeId}
    (makes : Makes p w t targets kind id q)
    (fresh : ∀ v, kind = .symRef v → p.symbols.size ≤ v.index) : Keeps p t q where
  frame := makes.frame
  retains := makes.retains
  refs ref := by rw [makes.others (known_of_ref ref), ref]
  fresh above ref := by
    cases makes.eq_id above (known_of_ref ref)
    exact fresh _ (makes.kind_id.symm.trans ref)

theorem keeps_of_stores {anchor init tempDef ref : NodeId} {ty : Ty} {temp : SymbolId}
    (stores : Stores p w t anchor init ty temp tempDef ref q) : Keeps p t q where
  frame := stores.frame
  retains := stores.retains
  refs {n v} isRef := by rw [stores.others (known_of_ref isRef) (by rw [isRef]; rfl), isRef]
  fresh {n v} above isRef := by
    rcases stores.new above (known_of_ref isRef) with rfl | rfl
    · cases stores.holds.define.symm.trans isRef
    · cases stores.holds.ref_eq.symm.trans isRef
      exact stores.holds.fresh

/-- What a use of a captured variable is there for stays, as long as it is there. -/
theorem useOf_eq (evolved : Evolved p w t) {ref : NodeId} (reached : p.Reached ref)
    (live : t.Live ref) : useOf t ref = useOf p ref := by
  have soundP := evolved.stage.base_sound
  have link : (t.node ref).parent = (p.node ref).parent := evolved.stage.frame.parent reached live
  rw [useOf, useOf, link]
  cases linkP : (p.node ref).parent with
  | none => rfl
  | some owner =>
    have reachedO := soundP.forest.reached_owner soundP.rooted reached linkP
    have child := soundP.forest.owner_lists (soundP.live_of_reached reached) linkP
    have noRef : (p.kind owner).symRef? = none := by
      rw [children] at child
      cases kind : p.kind owner <;> simp [kind, NodeKind.children] at child <;> rfl
    have liveO := evolved.sound.forest.owner_live live (link.trans linkP)
    have here := evolved.reworked.swap_of_live soundP evolved.sound evolved.stage.frame reachedO
      child live
    have known := (soundP.live_of_reached reached).known
    simp only
    rw [evolved.reworked.kind (soundP.live_of_reached reachedO).known liveO noRef]
    cases p.kind owner with
    | assign target value =>
      simp only [Rework.kind, NodeKind.mapChildren, evolved.reworked.swap_eq_iff known here]
    | prim op args => cases op <;> rfl
    | _ => rfl

/-- A read that stays in place stands in no statement of its function. -/
theorem Redirects.scope_outside {f formal : SymbolId} {ref stmt : NodeId} (settled : p.Settled)
    (redirects : Redirects p f formal ref)
    (outside : ((p.enclosingStmt? ref).filter fun stmt =>
      (p.fnBody? f).any fun body => p.isAncestor body stmt) = none)
    (found : p.enclosingStmt? ref = some stmt) : p.scope? stmt ≠ some f := by
  intro scope
  have standing := standing_of_enclosingStmt? settled.sound redirects.reached found
  obtain ⟨_, b, link, block⟩ := id standing
  obtain ⟨reachedB, below⟩ := standing.scopeBelow settled.sound link
  have plain : (p.kind b).isExpr = false ∧ (p.kind b).tag ≠ .define ∧
      (p.kind b).isFnDef = false := by
    cases kind : p.kind b <;> simp [kind, NodeKind.isBlock] at block
    exact ⟨rfl, by simp [NodeKind.tag], rfl⟩
  rw [scopeBelow_eq, plain.2.2, if_neg Bool.false_ne_true, scope] at below
  obtain ⟨body, bodyEq, above⟩ :=
    settled.body_above reachedB plain.1 plain.2.1 below redirects.fn
  rw [found, Option.filter_eq_none_iff] at outside
  refine outside stmt rfl ?_
  rw [bodyEq, Option.any_some]
  exact settled.sound.forest.isAncestor_iff.mpr (.up link above)

/-- How one use of a captured variable gives way to the formal that stands for it. -/
inductive Turn (p : Program) (w : Rework) (t : Program) (f formal : SymbolId) (direct : Bool)
    (ref : NodeId) (q : Program) : Rework → Prop where
  /-- It went with what was around it. -/
  | gone (dead : ¬ t.Live ref) (same : q = t) : Turn p w t f formal direct ref q w
  /-- It refers to the formal now. -/
  | aim (isDirect : direct = true) (live : t.Live ref) (kind : q.kind ref = .symRef formal) :
      Turn p w t f formal direct ref q w
  /-- The formal holds the address that was taken here. -/
  | address {prim x : NodeId} (indirect : direct = false) (use : useOf p ref = .addressOf prim)
      (isNew : p.nodes.size ≤ x.index) (made : q.kind x = .symRef formal) (live : t.Live ref) :
      Turn p w t f formal direct ref q (w.replace prim x)
  /-- What the formal refers to stands in its place. -/
  | place {d x : NodeId} (indirect : direct = false)
      (use : useOf p ref = .store ∨ useOf p ref = .read ∧
        ∀ stmt, p.enclosingStmt? ref = some stmt → p.scope? stmt ≠ some f)
      (isNew : p.nodes.size ≤ d.index) (deref : q.kind d = .prim .deref [x])
      (refNew : p.nodes.size ≤ x.index) (made : q.kind x = .symRef formal) (live : t.Live ref) :
      Turn p w t f formal direct ref q (w.replace ref d)
  /-- What the formal refers to is read in front of the statement. -/
  | hoist {stmt d x tempDef r : NodeId} {ty : Ty} {temp : SymbolId} (indirect : direct = false)
      (use : useOf p ref = .read) (found : p.enclosingStmt? ref = some stmt)
      (scope : p.scope? stmt = some f)
      (holds : TempFor p (w.insert stmt tempDef) q stmt d ty temp tempDef r)
      (isNew : p.nodes.size ≤ d.index) (deref : q.kind d = .prim .deref [x])
      (refNew : p.nodes.size ≤ x.index) (made : q.kind x = .symRef formal) (live : t.Live ref) :
      Turn p w t f formal direct ref q ((w.insert stmt tempDef).replace ref r)

/-- What stands in the place of a node stays there when another node gives way, unless it takes the
address of that. -/
theorem Turn.swap_cases {f formal : SymbolId} {direct : Bool} {ref n : NodeId}
    (turn : Turn p w t f formal direct ref q w') (other : w.swap n ≠ ref) :
    w'.swap n = w.swap n ∨
      (∃ args, p.kind (w.swap n) = .prim .addrOf args) ∧ q.kind (w'.swap n) = .symRef formal := by
  cases turn with
  | gone => exact .inl rfl
  | aim => exact .inl rfl
  | @address prim x _ use _ made =>
    rcases useOf_cases p ref with ⟨prim', args, here, _, kind⟩ | ⟨_, _, here, _⟩ | here
    · cases use.symm.trans here
      by_cases same : w.swap n = prim
      · refine .inr ⟨⟨args, same ▸ kind⟩, ?_⟩
        rw [Rework.swap_replace_of_eq same, made]
      · exact .inl (Rework.swap_replace_of_ne same)
    · cases use.symm.trans here
    · cases use.symm.trans here
  | place => exact .inl (Rework.swap_replace_of_ne other)
  | hoist => exact .inl (Rework.swap_replace_of_ne other)

/-- What redirecting one use keeps. -/
structure Turned (p t : Program) (ref : NodeId) (w' : Rework) (q : Program) : Prop where
  evolved : Evolved p w' q
  frame : Frame t q
  retains : Retains p.nodes.size (· = ref) t q
  refs {n : NodeId} {v : SymbolId} : n ≠ ref → t.kind n = .symRef v → q.kind n = .symRef v
  fresh {n : NodeId} {v : SymbolId} : t.nodes.size ≤ n.index → q.kind n = .symRef v →
    p.symbols.size ≤ v.index

theorem turned_of_keeps {ref : NodeId} (evolved : Evolved p w' q) (keeps : Keeps p t q) :
    Turned p t ref w' q :=
  ⟨evolved, keeps.frame, keeps.retains _, fun _ => keeps.refs, keeps.fresh⟩

/-- A new tree takes the place of an old expression. -/
theorem replace_turned {targets : SymbolId → Prop} (ref : NodeId) {old new : NodeId} (evolved : Evolved p w t)
    (evolvedU : Evolved p w' u) (keeps : Keeps p t u) (sprig : u.Sprig new targets)
    (result : u.replace old new = .ok q) (expr : (u.kind old).isExpr = true)
    (reached : u.Reached old)
    (fits : ∀ {owner slot}, u.parent? old = some owner → (slot, old) ∈ (u.kind owner).slots →
      u.Fits new slot)
    (known : old.index < p.nodes.size) (isNew : p.nodes.size ≤ new.index) :
    Turned p t ref (w'.replace old new) q ∧ Keeps p u q := by
  obtain ⟨attaches, _, refs⟩ := evolvedU.replace sprig result expr reached fits known isNew
  have last : Keeps p u q :=
    { frame := attaches.frame
      retains := attaches.retains
      refs := fun {n v} => refs n v
      fresh := fun {n v} above ref => by
        have below := known_of_ref ref
        rw [attaches.size] at below
        omega }
  exact ⟨turned_of_keeps attaches.evolved
    (keeps.trans last evolved.size evolved.sound evolvedU.sound), last⟩

/-- A dereference of the formal, still detached. -/
structure Dereferences (p : Program) (w : Rework) (t : Program) (formal : SymbolId) (x d : NodeId)
    (q : Program) : Prop where
  evolved : Evolved p w q
  keeps : Keeps p t q
  lives {n : NodeId} : t.Live n → q.Live n
  sprig : q.Sprig d (· = formal)
  refNew : p.nodes.size ≤ x.index
  ref : q.kind x = .symRef formal
  isNew : p.nodes.size ≤ d.index
  deref : q.kind d = .prim .deref [x]

namespace Dereferences

variable {formal : SymbolId} {x d : NodeId} (derefs : Dereferences p w t formal x d u)

include derefs

theorem isExpr : (u.kind d).isExpr = true := by
  rw [derefs.deref]
  rfl

theorem deref_of_keeps (keeps : Keeps p u q) : q.kind d = .prim .deref [x] := by
  rw [(keeps.retains fun _ => False).kind derefs.isNew
    (known_of_kind (by rw [derefs.deref]; simp)) id, derefs.deref]

end Dereferences

section

variable {f formal : SymbolId} {ref : NodeId} (evolved : Evolved p w t)
  (redirects : Redirects t f formal ref) (reached : p.Reached ref)
  (fresh : p.symbols.size ≤ formal.index)

include evolved redirects fresh

theorem makesRef_keeps (span : Span) :
    Makes p w t (· = formal) (.symRef formal) (t.addRef formal span).1 (t.addRef formal span).2 ∧
      Keeps p t (t.addRef formal span).2 := by
  have makes := evolved.makesRef redirects.known redirects.value span
  refine ⟨makes, keeps_of_makes makes fun v same => ?_⟩
  cases same
  exact fresh

theorem makesDeref (span : Span) :
    let x := (t.addRef formal span).1
    Dereferences p w t formal x ((t.addRef formal span).2.addNode (.prim .deref [x]) span).1
      ((t.addRef formal span).2.addNode (.prim .deref [x]) span).2 := by
  obtain ⟨makes, keeps⟩ := makesRef_keeps evolved redirects fresh span
  have newX := makes.isNew evolved
  have makesD := makes.evolved.makesPrim makes.sprig (by rw [makes.kind_id]; rfl) newX .deref span
  have keepsD := keeps_of_makes makesD (by simp)
  exact
    { evolved := makesD.evolved
      keeps := keeps.trans keepsD evolved.size evolved.sound makes.evolved.sound
      lives := fun live => makesD.lives (makes.lives live)
      sprig := makesD.sprig
      refNew := newX
      ref := keepsD.refs makes.kind_id
      isNew := makesD.isNew makes.evolved
      deref := makesD.kind_id }

include reached

/-- Taking the address of a variable becomes the formal, which holds the address. -/
theorem replaceAddress_turns {prim : NodeId} {args : List NodeId} {span : Span}
    (use : useOf p ref = .addressOf prim) (link : p.parent? ref = some prim)
    (kind : p.kind prim = .prim .addrOf args) :
    Ends (edit (·.replace prim (t.addRef formal span).1)) (t.addRef formal span).2
      (fun _ q => ∃ w', Turned p t ref w' q ∧ Turn p w t f formal false ref q w') fun _ => True := by
  have soundP := evolved.stage.base_sound
  have reachedPrim := soundP.forest.reached_owner soundP.rooted reached link
  have known := (soundP.live_of_reached reachedPrim).known
  obtain ⟨makes, keeps⟩ := makesRef_keeps evolved redirects fresh span
  have isNew := makes.isNew evolved
  generalize (t.addRef formal span).1 = x at *
  generalize (t.addRef formal span).2 = t1 at *
  have tag : (t1.kind prim).tag = .prim := by
    rw [makes.evolved.stage.frame.tag known, kind]
    rfl
  refine ends_edit (fun q result => ?_) trivial
  have live := live_of_replace makes.evolved.sound result
  obtain ⟨turned, last⟩ := replace_turned ref evolved makes.evolved keeps makes.sprig
    result (NodeKind.isExpr_iff.mpr (.inr (.inr (.inr (.inr tag)))))
    (makes.evolved.stage.frame.kept reachedPrim (.inr live))
    (fits_of_prim makes.evolved.stage.settled live tag (by rw [makes.kind_id]; rfl)) known isNew
  exact ⟨_, turned, .address rfl use isNew (last.refs makes.kind_id)
    (evolved.sound.live_of_reached redirects.reached)⟩

omit fresh

variable {x d : NodeId} {t2 : Program} (derefs : Dereferences p w t formal x d t2)

include derefs

theorem replaceInPlace_turns (use : useOf p ref = .store ∨ useOf p ref = .read ∧
      ∀ stmt, p.enclosingStmt? ref = some stmt → p.scope? stmt ≠ some f)
    (fits : ∀ {owner slot}, t2.parent? ref = some owner → (slot, ref) ∈ (t2.kind owner).slots →
      t2.Fits d slot) :
    Ends (edit (·.replace ref d)) t2
      (fun _ q => ∃ w', Turned p t ref w' q ∧ Turn p w t f formal false ref q w') fun _ => True := by
  refine ends_edit (fun q result => ?_) trivial
  have live := live_of_replace derefs.evolved.sound result
  have redirects2 := redirects.frame derefs.keeps.frame evolved.stage.settled
    derefs.evolved.stage.settled live
  obtain ⟨turned, last⟩ := replace_turned ref evolved derefs.evolved derefs.keeps
    derefs.sprig result (NodeKind.isExpr_iff.mpr (.inl redirects2.tag)) redirects2.reached fits
    (evolved.stage.base_sound.live_of_reached reached).known derefs.isNew
  exact ⟨_, turned, .place rfl use derefs.isNew (derefs.deref_of_keeps last) derefs.refNew
    (last.refs derefs.ref) (evolved.sound.live_of_reached redirects.reached)⟩

/-- A read goes through a variable in front of its statement, if that belongs to the function. -/
theorem replaceRead_turns {ty : Ty} {span : Span} (use : useOf p ref = .read) :
    Ends (match (t2.enclosingStmt? ref).filter fun stmt =>
        (t2.fnBody? f).any fun body => t2.isAncestor body stmt with
      | none => edit (·.replace ref d)
      | some stmt => do
        let temp ← build (·.addTemp ty)
        let tempDef ← build (·.addDefinition temp (some d) span)
        edit (·.insertBefore stmt tempDef)
        let tempRef ← build (·.addRef temp span)
        edit (·.replace ref tempRef)) t2
      (fun _ q => ∃ w', Turned p t ref w' q ∧ Turn p w t f formal false ref q w') fun _ => True := by
  have soundP := evolved.stage.base_sound
  have known := (soundP.live_of_reached reached).known
  have settled2 := derefs.evolved.stage.settled
  have frame2 := derefs.evolved.stage.frame
  have live := derefs.lives (evolved.sound.live_of_reached redirects.reached)
  have redirects2 := redirects.frame derefs.keeps.frame evolved.stage.settled settled2 live
  have enclosing := frame2.enclosingStmt? soundP settled2.sound reached live
  split
  · rename_i outside
    refine replaceInPlace_turns evolved redirects reached derefs (.inr ⟨use, fun stmt found => ?_⟩)
      (redirects2.fits_outside settled2 derefs.isExpr outside)
    have standing := standing_of_enclosingStmt? soundP reached found
    have standing2 := standing_of_enclosingStmt? settled2.sound redirects2.reached
      (enclosing.trans found)
    rw [← frame2.scope standing.1 (settled2.sound.live_of_reached standing2.1)]
    exact redirects2.scope_outside settled2 outside (enclosing.trans found)
  · rename_i stmt inside
    obtain ⟨standing2, scope2⟩ := redirects2.scope_inside settled2 inside
    have found : p.enclosingStmt? ref = some stmt :=
      enclosing.symm.trans (Option.filter_eq_some_iff.mp inside).1
    have standing := standing_of_enclosingStmt? soundP reached found
    have scope : p.scope? stmt = some f := by
      rw [← frame2.scope standing.1 (settled2.sound.live_of_reached standing2.1), scope2]
    rw [← bind_supplyTemp]
    refine Ends.bind (supplyTemp_stores derefs.evolved derefs.sprig derefs.isExpr derefs.isNew
      standing) ?_
    rintro r t3 ⟨temp, tempDef, stores⟩
    have keepsS := keeps_of_stores stores
    have keeps3 := derefs.keeps.trans keepsS evolved.size evolved.sound settled2.sound
    refine ends_edit (fun q result => ?_) trivial
    have live3 := live_of_replace stores.evolved.sound result
    have settled3 := stores.evolved.stage.settled
    have redirects3 := redirects.frame keeps3.frame evolved.stage.settled settled3 live3
    obtain ⟨turned, last⟩ := replace_turned ref evolved stores.evolved keeps3
      stores.sprig result (NodeKind.isExpr_iff.mpr (.inl redirects3.tag)) redirects3.reached
      (fun link member => by
        have owner := settled3.sound.forest.owner_live live3 link
        exact ((settled3.lawful owner).fits member).of_symRef redirects3.tag
          (by rw [stores.holds.ref_eq]; rfl)) known stores.holds.ref_new
    have keepsQ := keepsS.trans last derefs.evolved.size settled2.sound settled3.sound
    exact ⟨_, turned, .hoist rfl use found scope (stores.holds.retain .of_none (last.retains _)
      (fun member => member) stores.evolved.reworked) derefs.isNew (derefs.deref_of_keeps keepsQ)
      derefs.refNew (keepsQ.refs derefs.ref) (evolved.sound.live_of_reached redirects.reached)⟩

end

theorem throughRef_turns (evolved : Evolved p w t) {f formal : SymbolId} {ref : NodeId}
    (redirects : Redirects t f formal ref) (known : ref.index < p.nodes.size)
    (fresh : p.symbols.size ≤ formal.index) :
    Ends (throughRef f ref formal) t
      (fun _ q => ∃ w', Turned p t ref w' q ∧ Turn p w t f formal false ref q w') fun _ => True := by
  have soundP := evolved.stage.base_sound
  have reached := evolved.reworked.reached_of_reached evolved.sound evolved.stage.frame
    redirects.reached known
  unfold throughRef
  refine Ends.get_bind (ends_build_bind ?_)
  rw [useOf_eq evolved reached (evolved.sound.live_of_reached redirects.reached)]
  have derefs := makesDeref evolved redirects fresh (t.span ref)
  rcases useOf_cases p ref with ⟨prim, args, use, link, kind⟩ | ⟨owner, value, use, link, kind⟩ | use
  · rw [use]
    exact replaceAddress_turns evolved redirects reached fresh use link kind
  · rw [use]
    refine ends_build_bind (replaceInPlace_turns evolved redirects reached derefs (.inl use)
      fun {owner' slot} link' member => ?_)
    have frame2 := derefs.evolved.stage.frame
    have live := derefs.lives (evolved.sound.live_of_reached redirects.reached)
    rw [frame2.parent reached live, link] at link'
    cases link'
    have reachedOwner := soundP.forest.reached_owner soundP.rooted reached link
    have tag := frame2.tag (soundP.live_of_reached reachedOwner).known
    rw [kind] at tag
    cases NodeKind.slot_of_assign tag member
    exact derefs.isExpr
  · rw [use]
    refine ends_build_bind ?_
    refine Ends.get_bind ?_
    exact replaceRead_turns evolved redirects reached derefs use

theorem redirect_turns (evolved : Evolved p w t) {f formal : SymbolId} {ref : NodeId}
    {asItIs : NodeId → Bool} (redirects : t.Live ref → Redirects t f formal ref)
    (source : asItIs ref = false → ref.index < p.nodes.size)
    (fresh : p.symbols.size ≤ formal.index) :
    Ends (redirect f formal asItIs ref) t
      (fun _ q => ∃ w', Turned p t ref w' q ∧ Turn p w t f formal (asItIs ref) ref q w')
      fun _ => True := by
  unfold redirect
  refine Ends.get_bind ?_
  split
  · rename_i live
    have here := redirects live
    cases direct : asItIs ref with
    | true =>
      rw [if_pos rfl]
      refine ends_edit (fun q result => ⟨w, ?_, ?_⟩) trivial
      · obtain ⟨evolvedQ, frame, kinds⟩ :=
          evolved.setRef result here.known here.value here.scope here.home
        refine ⟨evolvedQ, frame, .setRef result (.inr rfl), fun {n v} other ref => ?_,
          fun {n v} above ref => ?_⟩
        · rw [kinds, if_neg other, ref]
        · have below := known_of_ref ref
          rw [(setRef_retarget result).size] at below
          omega
      · exact .aim rfl live (by rw [kind_of_setRef result, if_pos rfl])
    | false =>
      rw [if_neg Bool.false_ne_true]
      exact throughRef_turns evolved here (source direct) fresh
  · rename_i dead
    refine Ends.pure ⟨w, turned_of_keeps evolved ⟨.refl, fun _ => .refl, id, fun above ref => ?_⟩,
      .gone dead rfl⟩
    exact absurd (known_of_ref ref) (Nat.not_lt.mpr above)

end Closure

end MiddleEnd
