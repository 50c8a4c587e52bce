import MiddleEnd.Proofs.Closure.PassCaptures
import MiddleEnd.Proofs.Closure.Redirect

namespace MiddleEnd

open Outcome

namespace Program

variable {p : Program}

/-- Definitions of functions are as different as the functions. -/
theorem Sound.placed_apart (sound : p.Sound) {f g : SymbolId} {d e : NodeId} (placed : p.Placed f d)
    (other : p.Placed g e) : g = f ∧ e = d ∨ g ≠ f ∧ e ≠ d := by
  by_cases same : g = f
  · subst same
    exact .inl ⟨rfl, sound.bound_unique other.2.2 placed.2.2⟩
  · refine .inr ⟨same, ?_⟩
    rintro rfl
    exact same (Option.some.inj (other.2.2.symm.trans placed.2.2))

theorem Forest.collectOwn_nodup (forest : p.Forest) (tag : NodeTag) (root : NodeId) :
    (p.collectOwn tag root).Nodup := by
  rw [forest.collectOwn_eq]
  exact ((forest.order_sublist_preorder _ root).nodup (forest.preorder_nodup root)).filter _

end Program

namespace Closure

open Program TransformM

variable {p t q : Program} {w w' : Rework} {passed : List NodeId} {f v : SymbolId}

/-! One new formal. -/

/-- A definition of a new formal for the captured variable `v`. -/
structure FormalFor (p t : Program) (v formal : SymbolId) (d : NodeId) : Prop where
  define : t.kind d = .define formal none
  isNew : p.nodes.size ≤ d.index
  fresh : p.symbols.size ≤ formal.index
  known : formal.index < t.symbols.size
  name_eq : t.name formal = p.name v
  ty_eq : (t.symbol formal).ty = (p.symbol v).ty.refForm.getD (p.symbol v).ty

theorem FormalFor.retain {formal : SymbolId} {d : NodeId} {loose : NodeId → Prop}
    (formalFor : FormalFor p t v formal d) (retains : Retains p.nodes.size loose t q)
    (tight : ¬ loose d) : FormalFor p q v formal d where
  define := by
    rw [retains.kind formalFor.isNew (known_of_kind (by rw [formalFor.define]; simp)) tight,
      formalFor.define]
  isNew := formalFor.isNew
  fresh := formalFor.fresh
  known := formalFor.known.trans_le retains.symbols_size
  name_eq := (retains.name formalFor.known).trans formalFor.name_eq
  ty_eq := (retains.ty formalFor.known).trans formalFor.ty_eq

/-- What giving a function a formal for one variable does, before the uses follow. -/
structure Introduces (p : Program) (w : Rework) (t : Program) (f : SymbolId) (fnDef : NodeId)
    (v formal : SymbolId) (d : NodeId) (q : Program) : Prop where
  evolved : Evolved p (w.add fnDef d) q
  keeps : Keeps p t q
  formalFor : FormalFor p q v formal d
  value : (q.symbol formal).isValue = true
  home : q.Home formal f

theorem keeps_addSymbol (sound : t.Sound) (sym : Symbol) : Keeps p t (t.addSymbol sym).2 where
  frame := frame_addSymbol sound sym
  retains _ := .addSymbol sym
  refs := id
  fresh above ref := absurd (known_of_ref ref) (Nat.not_lt.mpr above)

theorem keeps_captured (s : SymbolId) : Keeps p t (t.attachFlag s .captured) where
  frame := (relabel_attachFlag s .captured).frame
  retains _ := .captured s
  refs := id
  fresh above ref := absurd (known_of_ref ref) (Nat.not_lt.mpr above)

/-- What stands at the end of a function's formals is at home in the function. -/
theorem home_of_added (evolved : Evolved p w t) {fnDef d : NodeId} {formal : SymbolId}
    (placed : p.Placed f fnDef) (added : d ∈ w.added fnDef)
    (define : (t.kind d).defines? = some formal) : t.Home formal f := by
  have settled := evolved.stage.settled
  have placedT := evolved.stage.frame.placed evolved.stage.base_sound placed
  obtain ⟨_, formals, body, kind, _⟩ := evolved.stage.base_settled.fnBody?_eq placed
  have now := evolved.reworked.kind (evolved.stage.base_sound.live_of_reached placed.1).known
    (settled.sound.live_of_reached placedT.1) (by rw [kind]; rfl)
  rw [kind, Rework.kind] at now
  have child : d ∈ t.children fnDef := by
    rw [children, now]
    simp [NodeKind.children, added]
  refine ⟨d, placedT.1.child child, define, .inl ?_⟩
  rw [settled.sound.scope_below placedT.1 child, scopeBelow, now]

theorem append_introduces (evolved : Evolved p w t) {fnDef : NodeId} {sym : Symbol} {span : Span}
    {flagged : SymbolId} (placed : p.Placed f fnDef)
    (result : ((t.addSymbol sym).2.addDefinition (t.addSymbol sym).1 none span).2.append fnDef
      ((t.addSymbol sym).2.addDefinition (t.addSymbol sym).1 none span).1 = .ok q)
    (isArg : sym.kind.sort = .arg) (live : sym.live = true) (uncalled : sym.callers = [])
    (name : sym.name = p.name v)
    (ty : sym.ty = (p.symbol v).ty.refForm.getD (p.symbol v).ty) :
    Introduces p w t f fnDef v (t.addSymbol sym).1
      ((t.addSymbol sym).2.addDefinition (t.addSymbol sym).1 none span).1
      (q.attachFlag flagged .captured) := by
  have evolved1 := evolved.addSymbol live uncalled
  have keeps1 : Keeps p t (t.addSymbol sym).2 := keeps_addSymbol evolved.sound sym
  have undefined : (t.addSymbol sym).2.Undefined (t.addSymbol sym).1 :=
    undefined_addSymbol evolved.sound (by rw [isArg]; decide) (by rw [isArg]; decide)
  have symbol1 : (t.addSymbol sym).2.symbol (t.addSymbol sym).1 = sym := by
    rw [symbol_addSymbol, if_pos rfl]
  have fresh : p.symbols.size ≤ (t.addSymbol sym).1.index := evolved.stage.frame.symbols_size
  generalize (t.addSymbol sym).1 = formal at *
  generalize (t.addSymbol sym).2 = t1 at *
  have makes : Makes p w t1 (fun _ => False) (.define formal none) _ _ :=
    evolved1.makesDefinition undefined none (fun c none => absurd none.symm (Option.some_ne_none c))
      (fun c none => absurd none.symm (Option.some_ne_none c))
      (fun c none => absurd none.symm (Option.some_ne_none c)) span
  have keeps2 := keeps1.trans (keeps_of_makes makes (by simp)) evolved.size evolved.sound
    evolved1.sound
  have isNew := makes.isNew evolved1
  generalize (t1.addDefinition formal none span).1 = d at *
  generalize (t1.addDefinition formal none span).2 = t2 at *
  have placed2 := makes.evolved.stage.frame.placed evolved.stage.base_sound placed
  have sort2 : (t2.symbol formal).kind.sort = .arg := by
    rw [makes.frame.sort undefined.known, symbol1, isArg]
  obtain ⟨_, formals, body, kind, _⟩ := makes.evolved.stage.settled.fnBody?_eq placed2
  obtain ⟨attaches, _, others⟩ := makes.evolved.append makes.sprig result
    (by
      rw [kind]
      refine ⟨by rw [makes.kind_id]; rfl, formal, by rw [makes.kind_id]; rfl, sort2⟩)
    placed.1 (.inr (NodeKind.isFnDef_iff.mp placed.2.1)) isNew
  have keeps3 : Keeps p t2 q :=
    { frame := attaches.frame
      retains := attaches.retains
      refs := fun {n u} ref => by
        rw [others, ref]
        rintro rfl
        rw [kind] at ref
        cases ref
      fresh := fun {n u} above ref => by
        have below := known_of_ref ref
        rw [attaches.size] at below
        omega }
  have keeps4 := keeps3.trans (keeps_captured flagged) makes.evolved.size
    makes.evolved.sound attaches.evolved.sound
  have evolved4 := attaches.evolved.attachFlag flagged .captured
  have retains := keeps4.retains fun _ => False
  have known2 := undefined.known.trans_le makes.frame.symbols_size
  have formalFor : FormalFor p t2 v formal d :=
    { define := makes.kind_id
      isNew := isNew
      fresh := fresh
      known := known2
      name_eq := by
        rw [(makes.retains fun _ => False).name undefined.known, Program.name, symbol1, name]
      ty_eq := by rw [(makes.retains fun _ => False).ty undefined.known, symbol1, ty] }
  have formalForQ := formalFor.retain retains id
  exact
    { evolved := evolved4
      keeps := keeps2.trans keeps4 evolved.size evolved.sound makes.evolved.sound
      formalFor := formalForQ
      value := by
        rw [Symbol.isValue_iff, keeps4.frame.sort known2]
        exact .inr sort2
      home := home_of_added (d := d) evolved4 placed (by simp) (by rw [formalForQ.define]; rfl) }

/-! The conversion of functions, step by step. -/


/-- Is a use of `v` in `f` to refer to the new formal as it is? -/
def isDirect (p : Program) (passed : List NodeId) (f v : SymbolId) (ref : NodeId) : Bool :=
  (p.symbol v).ty.refForm.isNone || isIteratorHelper p f || passed.contains ref

/-- The programs between the one in which all calls have got their actuals and the end of the
conversion, with the variables that have got a formal in each function. -/
inductive Converting (p : Program) (captures : Captures) (passed : List NodeId) (first : Rework)
    (start : Program) : (SymbolId → List SymbolId) → Rework → Program → Prop where
  | start : Converting p captures passed first start (fun _ => []) first start
  /-- A function gets a formal for the next variable that it captures. -/
  | formal {given : SymbolId → List SymbolId} {w : Rework} {t q : Program} {f v formal : SymbolId}
      {fnDef d : NodeId} (before : Converting p captures passed first start given w t)
      (placed : p.Placed f fnDef) (next : given f ++ [v] <+: captures.of f)
      (introduces : Introduces p w t f fnDef v formal d q) :
      Converting p captures passed first start (Function.update given f (given f ++ [v]))
        (w.add fnDef d) q
  /-- A use of the variable that got its formal last goes to the formal. -/
  | use {given : SymbolId → List SymbolId} {w w' : Rework} {t q : Program} {f v formal : SymbolId}
      {fnDef d ref : NodeId} {vars : List SymbolId} {ds : List NodeId}
      (before : Converting p captures passed first start given w t) (placed : p.Placed f fnDef)
      (last : given f = vars ++ [v]) (added : w.added fnDef = ds ++ [d])
      (define : t.kind d = .define formal none) (ref_eq : t.kind ref = .symRef v)
      (inside : t.Live ref → t.Reached ref ∧ t.scope? ref = some f)
      (source : ref.index < p.nodes.size ∨ ref ∈ passed) (turned : Turned p t ref w' q)
      (turn : Turn p w t f formal (isDirect p passed f v ref) ref q w') :
      Converting p captures passed first start given w' q

theorem Turn.added {formal : SymbolId} {direct : Bool} {ref : NodeId}
    (turn : Turn p w t f formal direct ref q w') : w'.added = w.added := by
  cases turn <;> rfl

theorem Turn.fronts {formal : SymbolId} {direct : Bool} {ref : NodeId}
    (turn : Turn p w t f formal direct ref q w') {s d : NodeId} (member : d ∈ w.front s) :
    d ∈ w'.front s := by
  cases turn with
  | @hoist stmt _ _ tempDef =>
    by_cases same : s = stmt
    · subst same
      simp [member]
    · rwa [Rework.front_replace, Rework.front_insert_of_ne _ _ same]
  | _ => exact member

/-- The symbol `formal` is the formal of `f` for the variable `v`. -/
def StandsFor (p : Program) (given : SymbolId → List SymbolId) (w : Rework) (t : Program)
    (f v formal : SymbolId) : Prop :=
  ∃ fnDef d, p.Placed f fnDef ∧ (v, d) ∈ (given f).zip (w.added fnDef) ∧
    t.kind d = .define formal none

/-- What every step of the conversion keeps. -/
structure Underway (p : Program) (captures : Captures) (passed : List NodeId) (first : Rework)
    (start : Program) (given : SymbolId → List SymbolId) (w : Rework) (t : Program) : Prop where
  evolved : Evolved p w t
  frame : Frame start t
  retains : Retains p.nodes.size (· ∈ passed) start t
  fronts {s d : NodeId} : d ∈ first.front s → d ∈ w.front s
  added {o : NodeId} : (p.kind o).isFnDef = false → w.added o = first.added o
  given_le (f : SymbolId) : given f <+: captures.of f
  formals {f : SymbolId} {d : NodeId} : p.Placed f d →
    List.Forall₂ (fun v d => ∃ formal, FormalFor p t v formal d) (given f) (w.added d)
  fresh {n : NodeId} {v : SymbolId} : start.nodes.size ≤ n.index → t.kind n = .symRef v →
    p.symbols.size ≤ v.index
  passed_to {n : NodeId} {v : SymbolId} : n ∈ passed → start.kind n = .symRef v →
    t.kind n = .symRef v ∨ ∃ f formal, start.scope? n = some f ∧
      StandsFor p given w t f v formal ∧ t.kind n = .symRef formal

section

variable {captures : Captures} {first : Rework} {start : Program}
  {given given' : SymbolId → List SymbolId} {loose : NodeId → Prop}

theorem StandsFor.retain {formal : SymbolId} (stands : StandsFor p given w t f v formal)
    (evolved : Evolved p w t) (retains : Retains p.nodes.size loose t q)
    (tight : ∀ n s, t.kind n = .define s none → ¬ loose n)
    (more : ∀ fnDef, p.Placed f fnDef →
      (given f).zip (w.added fnDef) ⊆ (given' f).zip (w'.added fnDef)) :
    StandsFor p given' w' q f v formal := by
  obtain ⟨fnDef, d, placed, pair, define⟩ := stands
  refine ⟨fnDef, d, placed, more fnDef placed pair, ?_⟩
  rw [retains.kind (evolved.reworked.added (List.of_mem_zip pair).2)
    (known_of_kind (by rw [define]; simp)) (tight d formal define), define]

namespace Underway

variable (underway : Underway p captures passed first start given w t)

include underway

theorem known_of_given (known : ∀ f, ∀ v ∈ captures.of f, v.index < p.symbols.size)
    (member : v ∈ given f) : v.index < p.symbols.size :=
  known f v ((underway.given_le f).subset member)

theorem length_given {fnDef : NodeId} (placed : p.Placed f fnDef) :
    (given f).length = (w.added fnDef).length :=
  (underway.formals placed).length_eq

theorem formalFor_of_standsFor {formal : SymbolId} (stands : StandsFor p given w t f v formal) :
    ∃ d, FormalFor p t v formal d := by
  obtain ⟨fnDef, d, placed, pair, define⟩ := stands
  obtain ⟨formal', formalFor⟩ := (List.forall₂_iff_zip.mp (underway.formals placed)).2 pair
  cases define.symm.trans formalFor.define
  exact ⟨d, formalFor⟩

/-- The variable that got its formal last. -/
theorem standsFor_last {formal : SymbolId} {fnDef d : NodeId} {vars : List SymbolId}
    {ds : List NodeId} (placed : p.Placed f fnDef) (last : given f = vars ++ [v])
    (added : w.added fnDef = ds ++ [d]) (define : t.kind d = .define formal none) :
    StandsFor p given w t f v formal := by
  have lengths := underway.length_given placed
  rw [last, added, List.length_append, List.length_append] at lengths
  refine ⟨fnDef, d, placed, ?_, define⟩
  rw [last, added, List.zip_append (by simpa using lengths)]
  simp

/-- Old symbols keep their names and types. -/
theorem symbol_eq (supplying : Supplying p first passed start) {s : SymbolId}
    (known : s.index < p.symbols.size) :
    t.name s = p.name s ∧ (t.symbol s).ty = (p.symbol s).ty := by
  have knownS := known.trans_le supplying.retains.symbols_size
  rw [underway.retains.name knownS, underway.retains.ty knownS]
  exact ⟨supplying.retains.name known, supplying.retains.ty known⟩

/-- A new formal comes behind those that are there. -/
theorem standsFor_introduced {formal formal' g u : SymbolId} {fnDef d : NodeId} (soundP : p.Sound)
    (placed : p.Placed f fnDef) (introduces : Introduces p w t f fnDef v formal d q)
    (stands : StandsFor p given w t g u formal') :
    StandsFor p (Function.update given f (given f ++ [v])) (w.add fnDef d) q g u formal' := by
  refine stands.retain underway.evolved (introduces.keeps.retains fun _ => False)
    (fun _ _ _ => id) ?_
  intro e placedG
  rcases soundP.placed_apart placed placedG with ⟨rfl, rfl⟩ | ⟨other, otherDef⟩
  · rw [Function.update_self, Rework.added_add_self,
      List.zip_append (underway.length_given placedG)]
    exact List.subset_append_left _ _
  · rw [Function.update_of_ne other, Rework.added_add_of_ne _ _ otherDef]
    exact List.Subset.refl _

/-- Formals stay what they are when a use of a variable goes to one. -/
theorem standsFor_turned {formal formal' g u : SymbolId} {direct : Bool} {ref : NodeId}
    (isRef : t.kind ref = .symRef v) (turned : Turned p t ref w' q)
    (turn : Turn p w t f formal direct ref q w') (stands : StandsFor p given w t g u formal') :
    StandsFor p given w' q g u formal' := by
  refine stands.retain underway.evolved turned.retains ?_ ?_
  · rintro n s define rfl
    cases define.symm.trans isRef
  · intro e _
    rw [turn.added]
    exact List.Subset.refl _

/-- A function gets the next formal. -/
theorem formal {formal : SymbolId} {fnDef d : NodeId} (soundP : p.Sound) (soundS : start.Sound)
    (size : p.nodes.size ≤ start.nodes.size) (placed : p.Placed f fnDef)
    (next : given f ++ [v] <+: captures.of f) (introduces : Introduces p w t f fnDef v formal d q) :
    Underway p captures passed first start (Function.update given f (given f ++ [v]))
      (w.add fnDef d) q := by
  have keeps := introduces.keeps
  have retains := keeps.retains fun _ => False
  refine
    { evolved := introduces.evolved
      frame := underway.frame.trans keeps.frame soundS underway.evolved.sound
      retains := underway.retains.trans (keeps.retains _)
      fronts := underway.fronts
      added := fun {o} other => ?_
      given_le := fun g => ?_
      formals := fun {g e} placedG => ?_
      fresh := fun {n u} above ref => ?_
      passed_to := fun {n u} member ref => ?_ }
  · rw [Rework.added_add_of_ne, underway.added other]
    rintro rfl
    rw [placed.2.1] at other
    cases other
  · by_cases same : g = f
    · subst same
      rwa [Function.update_self]
    · rw [Function.update_of_ne same]
      exact underway.given_le g
  · have kept := (underway.formals placedG).imp fun u e made =>
      made.imp fun formal formalFor => formalFor.retain retains id
    rcases soundP.placed_apart placed placedG with ⟨rfl, rfl⟩ | ⟨other, otherDef⟩
    · rw [Function.update_self, Rework.added_add_self]
      exact List.rel_append kept (.cons ⟨formal, introduces.formalFor⟩ .nil)
    · rwa [Function.update_of_ne other, Rework.added_add_of_ne _ _ otherDef]
  · by_cases known : n.index < t.nodes.size
    · rw [retains.kind (size.trans above) known id] at ref
      exact underway.fresh above ref
    · exact keeps.fresh (Nat.not_lt.mp known) ref
  · refine (underway.passed_to member ref).imp keeps.refs ?_
    rintro ⟨g, formal', scope, stands, kind⟩
    exact ⟨g, formal', scope, underway.standsFor_introduced soundP placed introduces stands,
      keeps.refs kind⟩

/-- A use of the variable that got its formal last goes to the formal. -/
theorem use (supplying : Supplying p first passed start)
    (known : ∀ f, ∀ v ∈ captures.of f, v.index < p.symbols.size) {formal : SymbolId}
    {fnDef d ref : NodeId} {vars : List SymbolId} {ds : List NodeId} (placed : p.Placed f fnDef)
    (last : given f = vars ++ [v]) (added : w.added fnDef = ds ++ [d])
    (define : t.kind d = .define formal none) (isRef : t.kind ref = .symRef v)
    (inside : t.Live ref → t.Reached ref ∧ t.scope? ref = some f)
    (source : ref.index < p.nodes.size ∨ ref ∈ passed) (turned : Turned p t ref w' q)
    (turn : Turn p w t f formal (isDirect p passed f v ref) ref q w') :
    Underway p captures passed first start given w' q := by
  have soundS := supplying.evolved.sound
  have size := supplying.evolved.size
  have tight (n : NodeId) (s : SymbolId) (define : t.kind n = .define s none) : n ≠ ref := by
    rintro rfl
    cases define.symm.trans isRef
  have same := turn.added
  have kept {g u formal : SymbolId} (stands : StandsFor p given w t g u formal) :
      StandsFor p given w' q g u formal := underway.standsFor_turned isRef turned turn stands
  refine
    { evolved := turned.evolved
      frame := underway.frame.trans turned.frame soundS underway.evolved.sound
      retains := underway.retains.trans (turned.retains.mono fun n isNew here => ?_)
      fronts := fun member => turn.fronts (underway.fronts member)
      added := fun other => by rw [same, underway.added other]
      given_le := underway.given_le
      formals := fun {g e} placedG => ?_
      fresh := fun {n u} above ref' => ?_
      passed_to := fun {n u} member ref' => ?_ }
  · subst here
    exact source.resolve_left (Nat.not_lt.mpr isNew)
  · rw [same]
    exact (underway.formals placedG).imp fun u e made => made.imp fun formal formalFor =>
      formalFor.retain turned.retains (tight e formal formalFor.define)
  · by_cases below : n.index < t.nodes.size
    · rw [turned.retains.kind (size.trans above) below] at ref'
      · exact underway.fresh above ref'
      · -- A use was there before the first function got a formal.
        rintro rfl
        rcases source with isOld | member
        · exact absurd isOld (Nat.not_lt.mpr (size.trans above))
        · obtain ⟨_, _, _, before⟩ := supplying.passed_ref member
          exact absurd (known_of_ref before) (Nat.not_lt.mpr above)
    · exact turned.fresh (Nat.not_lt.mp below) ref'
  · by_cases here : n = ref
    · subst here
      rcases underway.passed_to member ref' with unchanged | ⟨g, formal', _, stands, kind⟩
      · cases unchanged.symm.trans isRef
        have direct : isDirect p passed f v n = true := by simp [isDirect, member]
        cases turn with
        | gone _ equal =>
          rw [equal]
          exact .inl unchanged
        | aim _ live kind =>
          refine .inr ⟨f, formal, ?_, kept (underway.standsFor_last placed last added define), kind⟩
          rw [← (inside live).2, underway.frame.scope (supplying.reached_of_passed member) live]
        | address indirect _ _ _ => cases direct.symm.trans indirect
        | place indirect _ _ _ _ _ => cases direct.symm.trans indirect
        | hoist indirect _ _ _ _ _ _ _ _ => cases direct.symm.trans indirect
      · -- It would refer to a formal already, which is no variable of the program before.
        obtain ⟨_, formalFor⟩ := underway.formalFor_of_standsFor stands
        cases kind.symm.trans isRef
        have old := underway.known_of_given known (f := f) (v := v) (by simp [last])
        exact absurd old (Nat.not_lt.mpr formalFor.fresh)
    · refine (underway.passed_to member ref').imp (turned.refs here) ?_
      rintro ⟨g, formal', scope, stands, kind⟩
      exact ⟨g, formal', scope, kept stands, turned.refs here kind⟩

end Underway

/-- What holds all along the conversion of functions. -/
theorem Converting.underway (supplying : Supplying p first passed start)
    (known : ∀ f, ∀ v ∈ captures.of f, v.index < p.symbols.size)
    (run : Converting p captures passed first start given w t) :
    Underway p captures passed first start given w t := by
  induction run with
  | start =>
    exact
      { evolved := supplying.evolved
        frame := .refl
        retains := .refl
        fronts := id
        added := fun _ => rfl
        given_le := fun f => List.nil_prefix
        formals := fun {f d} placed => by
          have bare : first.added d = [] := List.eq_nil_iff_forall_not_mem.mpr fun c member => by
            have isCall := (supplying.added member).2
            have isFnDef := placed.2.1
            cases kind : p.kind d <;> simp [kind, NodeKind.isCall, NodeKind.isFnDef] at isCall isFnDef
          rw [bare]
          exact .nil
        fresh := fun above ref => absurd (known_of_ref ref) (Nat.not_lt.mpr above)
        passed_to := fun _ => .inl }
  | formal _ placed next introduces ih =>
    exact ih.formal supplying.evolved.stage.base_sound supplying.evolved.sound
      supplying.evolved.size placed next introduces
  | use _ placed last added define isRef inside source turned turn ih =>
    exact ih.use supplying known placed last added define isRef inside source turned turn

/-- A use of a captured variable was there before the conversion, or is passed on by a call. -/
theorem Underway.source (underway : Underway p captures passed first start given w t)
    (supplying : Supplying p first passed start) {n : NodeId} (outer : p.isOuterVar v f = true)
    (scope : t.scope? n = some f) (ref : t.kind n = .symRef v) :
    n.index < p.nodes.size ∨ n ∈ passed := by
  by_contra neither
  obtain ⟨isNew, notPassed⟩ := not_or.mp neither
  have isNew := Nat.not_lt.mp isNew
  have known := known_of_isOuterVar outer
  have before : n.index < start.nodes.size := by
    by_contra unknown
    exact absurd known (Nat.not_lt.mpr (underway.fresh (Nat.not_lt.mp unknown) ref))
  have startRef := ref
  rw [underway.retains.kind isNew before notPassed] at startRef
  rcases supplying.fresh isNew startRef with passes | above | ⟨anchor, g, standing, operand, at_, own⟩
  · exact notPassed passes
  · exact absurd known (Nat.not_lt.mpr above)
  · -- Only a function that declares a variable has got new operands that name it.
    have now := operand.retain supplying.apart underway.retains supplying.evolved.reworked
      underway.fronts
    obtain ⟨_, _, _, _, here⟩ := now.stands underway.evolved standing
    cases scope.symm.trans (here.trans at_)
    rw [isOuterVar, own] at outer
    simp at outer

/-! The loops. -/

section

variable (supplying : Supplying p first passed start)
  (outer : ∀ f, ∀ v ∈ captures.of f, p.isOuterVar v f = true)

include supplying outer

theorem redirectAll_runs (run : Converting p captures passed first start given w t)
    {vars : List SymbolId} {formal : SymbolId} {fnDef d : NodeId} {ds uses : List NodeId}
    {asItIs : NodeId → Bool} (placed : p.Placed f fnDef) (last : given f = vars ++ [v])
    (added : w.added fnDef = ds ++ [d]) (define : t.kind d = .define formal none)
    (distinct : uses.Nodup)
    (redirects : ∀ ref ∈ uses, Redirects t f formal ref ∧ t.kind ref = .symRef v)
    (same : ∀ ref, asItIs ref = isDirect p passed f v ref) :
    Ends (uses.forM (redirect f formal asItIs)) t
      (fun _ q => ∃ w', Converting p captures passed first start given w' q) fun _ => True := by
  have known (f v : SymbolId) (member : v ∈ captures.of f) := known_of_isOuterVar (outer f v member)
  have underway := run.underway supplying known
  have captured : v ∈ captures.of f := (underway.given_le f).subset (by simp [last])
  have fresh : p.symbols.size ≤ formal.index := by
    obtain ⟨_, formalFor⟩ := underway.formalFor_of_standsFor
      (underway.standsFor_last placed last added define)
    exact formalFor.fresh
  refine (Ends.forM (I := fun rest u => ∃ w', Converting p captures passed first start given w' u ∧
    Frame t u ∧ rest.Nodup ∧ (∀ ref ∈ rest, ref ∈ uses ∧ u.kind ref = .symRef v) ∧
    w'.added fnDef = ds ++ [d] ∧ u.kind d = .define formal none)
    ⟨w, run, .refl, distinct, fun ref member => ⟨member, (redirects ref member).2⟩, added, define⟩
    ?_).mono (fun _ q done => done.imp fun _ all => all.1) fun _ => id
  rintro ref rest u ⟨w', runU, frame, distinctR, members, addedU, defineU⟩
  have underwayU := runU.underway supplying known
  obtain ⟨here, isRef⟩ := members ref List.mem_cons_self
  obtain ⟨redirectsT, isRefT⟩ := redirects ref here
  have source := underway.source supplying (outer f v captured) redirectsT.scope isRefT
  have redirectsU (live : u.Live ref) : Redirects u f formal ref :=
    redirectsT.frame frame underway.evolved.stage.settled underwayU.evolved.stage.settled live
  refine (redirect_turns underwayU.evolved redirectsU (fun indirect => source.resolve_right
    fun passes => ?_) fresh).mono ?_ fun _ => id
  · rw [same, isDirect] at indirect
    simp [passes] at indirect
  · rintro _ q ⟨w2, turned, turn⟩
    rw [same] at turn
    have isNew := underwayU.evolved.reworked.added (o := fnDef) (c := d) (by simp [addedU])
    refine ⟨w2, runU.use placed last addedU defineU isRef (fun live => ⟨(redirectsU live).reached,
      (redirectsU live).scope⟩) source turned turn,
      frame.trans turned.frame underway.evolved.sound underwayU.evolved.sound,
      (List.nodup_cons.mp distinctR).2, fun other later => ?_, by rw [turn.added, addedU], ?_⟩
    · obtain ⟨isUse, otherRef⟩ := members other (List.mem_cons_of_mem _ later)
      refine ⟨isUse, turned.refs ?_ otherRef⟩
      rintro rfl
      exact (List.nodup_cons.mp distinctR).1 later
    · rw [turned.retains.kind isNew (known_of_kind (by rw [defineU]; simp)), defineU]
      rintro rfl
      cases defineU.symm.trans isRef

theorem captureVar_runs (run : Converting p captures passed first start given w t)
    {fnDef : NodeId} (placed : p.Placed f fnDef) (next : given f ++ [v] <+: captures.of f) :
    Ends (captureVar f fnDef passed v) t
      (fun _ q => ∃ w', Converting p captures passed first start
        (Function.update given f (given f ++ [v])) w' q) fun _ => True := by
  have known (f v : SymbolId) (member : v ∈ captures.of f) := known_of_isOuterVar (outer f v member)
  have underway := run.underway supplying known
  obtain ⟨nameV, tyV⟩ := underway.symbol_eq supplying (known f v (next.subset (by simp)))
  have nameF := (underway.symbol_eq supplying
    (supplying.evolved.stage.base_sound.bound_known placed.2.2)).1
  have evolved := underway.evolved
  unfold captureVar
  refine Ends.get_bind (ends_build_bind (ends_build_bind ?_))
  refine Ends.bind (ends_edit (Q := fun _ t3 => Introduces p w t f fnDef v _ _
    (t3.attachFlag v .captured)) (fun t3 result => append_introduces evolved placed result rfl rfl
      rfl nameV (by rw [tyV])) trivial) ?_
  intro _ t3 introduces
  refine Ends.bind (Ends.modified (Q := fun _ t4 => t4 = t3.attachFlag v .captured) rfl) ?_
  rintro _ t4 rfl
  refine Ends.get_bind ?_
  have runQ := run.formal placed next introduces
  have settled := introduces.evolved.stage.settled
  have placedQ := introduces.evolved.stage.frame.placed evolved.stage.base_sound placed
  refine redirectAll_runs supplying outer runQ placed (Function.update_self ..)
    (Rework.added_add_self ..) introduces.formalFor.define
    ((settled.sound.forest.collectOwn_nodup .symRef fnDef).filter _) (fun ref member => ?_)
    fun ref => ?_
  · obtain ⟨reached, scope, target⟩ := (mem_usesOf settled placedQ).mp member
    have tag : ((t3.attachFlag v .captured).kind ref).tag = .symRef :=
      NodeKind.symRef?_isSome_iff.mp (by rw [target]; rfl)
    refine ⟨⟨reached, tag, scope, settled.isFn_of_fnDef (settled.sound.live_of_reached placedQ.1)
      placedQ.2.1 placedQ.2.2, introduces.formalFor.known, introduces.value, introduces.home⟩, ?_⟩
    cases kind : (t3.attachFlag v .captured).kind ref <;> simp [kind, NodeKind.tag] at tag
    rw [kind] at target
    exact congrArg _ (Option.some.inj target)
  · simp only [isDirect, isIteratorHelper, nameF, tyV]

theorem extendFunction_runs (run : Converting p captures passed first start given w t)
    {fnDef : NodeId} (placed : p.Placed f fnDef) (bare : given f = []) :
    Ends (extendFunction captures passed f) t
      (fun _ q => ∃ w', Converting p captures passed first start
        (Function.update given f (captures.of f)) w' q) fun _ => True := by
  have known (f v : SymbolId) (member : v ∈ captures.of f) := known_of_isOuterVar (outer f v member)
  have evolved := (run.underway supplying known).evolved
  unfold extendFunction
  refine Ends.get_bind ?_
  rw [(evolved.stage.settled.fnBody?_eq
    (evolved.stage.frame.placed evolved.stage.base_sound placed)).1]
  refine (Ends.forM (I := fun rest q => ∃ w' vars, captures.of f = vars ++ rest ∧
    Converting p captures passed first start (Function.update given f vars) w' q)
    ⟨w, [], rfl, ?_⟩ ?_).mono ?_ fun _ => id
  · rwa [← bare, Function.update_eq_self]
  · rintro v rest u ⟨w', vars, split, runU⟩
    have next : Function.update given f vars f ++ [v] <+: captures.of f := by
      rw [Function.update_self, split]
      exact ⟨rest, by simp⟩
    refine (captureVar_runs supplying outer runU placed next).mono ?_ fun _ => id
    rintro _ q ⟨w2, runQ⟩
    rw [Function.update_self, Function.update_idem] at runQ
    exact ⟨w2, vars ++ [v], by simp [split], runQ⟩
  · rintro _ q ⟨w', vars, split, runQ⟩
    rw [List.append_nil] at split
    rw [split]
    exact ⟨w', runQ⟩

/-- All functions that capture something get their formals. -/
theorem extendFunctions_run (distinct : captures.capturing.Nodup)
    (placed : ∀ f ∈ captures.capturing, ∃ fnDef, p.Placed f fnDef)
    (others : ∀ f, f ∉ captures.capturing → captures.of f = []) :
    Ends (captures.capturing.forM (extendFunction captures passed)) start
      (fun _ q => ∃ w', Converting p captures passed first start captures.of w' q)
      fun _ => True := by
  refine (Ends.forM (I := fun rest q => ∃ w' done, captures.capturing = done ++ rest ∧
    Converting p captures passed first start (fun f => if f ∈ done then captures.of f else []) w' q)
    ⟨first, [], rfl, by simpa using .start⟩ ?_).mono ?_ fun _ => id
  · rintro f rest u ⟨w', done, split, runU⟩
    obtain ⟨fnDef, placed⟩ := placed f (by simp [split])
    have new : f ∉ done := by
      rw [split] at distinct
      exact fun member => (List.nodup_append.mp distinct).2.2 f member f List.mem_cons_self rfl
    refine (extendFunction_runs supplying outer runU placed (if_neg new)).mono ?_ fun _ => id
    rintro _ q ⟨w2, runQ⟩
    refine ⟨w2, done ++ [f], by simp [split], ?_⟩
    convert runQ using 1
    funext g
    by_cases same : g = f
    · subst same
      simp
    · simp [same]
  · rintro _ q ⟨w', done, split, runQ⟩
    rw [List.append_nil] at split
    refine ⟨w', ?_⟩
    convert runQ using 1
    funext g
    split
    · rfl
    · rename_i missing
      exact others g (split ▸ missing)

end

end

end Closure

end MiddleEnd
