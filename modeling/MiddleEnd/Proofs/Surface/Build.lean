import MiddleEnd.Proofs.Surface.Ordered
import MiddleEnd.Surface.Lower

namespace MiddleEnd

namespace Program

variable {p q : Program}

/-- Only variables and formals are defined with a value. -/
def Valued (p : Program) : Prop :=
  ∀ n s v, p.Live n → p.kind n = .define s (some v) → (p.symbol s).isValue = true

end Program

namespace Surface

open Program

namespace Lower

variable {α β : Type}

/-- From the state `s`, a run that succeeds ends with `Q`, and one that fails does so for a reason
in `E`. -/
def Meets (m : Lower α) (s : Lowering) (E : LowerError → Prop) (Q : α → Lowering → Prop) : Prop :=
  match m s with
  | .ok (a, t) => Q a t
  | .error e => E e

namespace Meets

variable {s : Lowering} {E : LowerError → Prop}

theorem mono {m : Lower α} {F : LowerError → Prop} {Q R : α → Lowering → Prop} (meets : Meets m s E Q)
    (weaker : ∀ a t, Q a t → R a t) (within : ∀ e, E e → F e) : Meets m s F R := by
  unfold Meets at meets ⊢
  cases result : m s with
  | ok pair =>
    rw [result] at meets
    exact weaker _ _ meets
  | error e =>
    rw [result] at meets
    exact within e meets

theorem pure {a : α} {Q : α → Lowering → Prop} (here : Q a s) :
    Meets (Pure.pure a : Lower α) s E Q := here

theorem throw {e : LowerError} {Q : α → Lowering → Prop} (here : E e) :
    Meets (MonadExcept.throw e : Lower α) s E Q := here

theorem bind {m : Lower α} {f : α → Lower β} {Q : α → Lowering → Prop} {R : β → Lowering → Prop}
    (first : Meets m s E Q) (rest : ∀ a t, Q a t → Meets (f a) t E R) : Meets (m >>= f) s E R := by
  unfold Meets at first
  show Meets (StateT.bind m f) s E R
  unfold Meets StateT.bind
  cases result : m s with
  | ok pair =>
    rw [result] at first
    exact rest _ _ first
  | error e =>
    rw [result] at first
    exact first

theorem map {m : Lower α} {f : α → β} {Q : β → Lowering → Prop}
    (meets : Meets m s E fun a t => Q (f a) t) : Meets (f <$> m) s E Q := by
  rw [map_eq_pure_bind]
  exact meets.bind fun a t done => pure done

theorem get_bind {f : Lowering → Lower β} {R : β → Lowering → Prop} (rest : Meets (f s) s E R) :
    Meets (MonadState.get >>= f) s E R := rest

theorem modify_bind {change : Lowering → Lowering} {f : PUnit → Lower β} {R : β → Lowering → Prop}
    (rest : Meets (f ⟨⟩) (change s) E R) : Meets (modify change >>= f) s E R := rest

/-- What every turn of a loop keeps holds after the loop. -/
theorem forM {f : α → Lower PUnit} {I : List α → Lowering → Prop} {items : List α}
    (start : I items s)
    (turn : ∀ a rest t, I (a :: rest) t → Meets (f a) t E (fun _ => I rest)) :
    Meets (items.forM f) s E (fun _ => I []) := by
  induction items generalizing s with
  | nil => exact start
  | cons a rest ih =>
    show Meets (f a >>= fun _ => rest.forM f) s E _
    exact bind (turn a rest s start) fun _ t kept => ih kept

theorem mapM {f : α → Lower β} {I : List α → List β → Lowering → Prop} {items : List α}
    (done : List β) (start : I items done s)
    (turn : ∀ a rest done t, I (a :: rest) done t →
      Meets (f a) t E (fun b => I rest (done ++ [b]))) :
    Meets (items.mapM f) s E (fun found => I [] (done ++ found)) := by
  induction items generalizing s done with
  | nil =>
    rw [List.mapM_nil]
    refine pure ?_
    rwa [List.append_nil]
  | cons a rest ih =>
    rw [List.mapM_cons]
    refine bind (turn a rest done s start) fun b t kept => ?_
    refine bind (ih _ kept) fun found u whole => pure ?_
    rwa [List.append_assoc] at whole

theorem build_bind {f : Program → α × Program} {g : α → Lower β} {R : β → Lowering → Prop}
    (rest : Meets (g (f s.program).1) { s with program := (f s.program).2 } E R) :
    Meets (build f >>= g) s E R := rest

theorem build {f : Program → α × Program} {Q : α → Lowering → Prop}
    (done : Q (f s.program).1 { s with program := (f s.program).2 }) :
    Meets (Lower.build f) s E Q := done

theorem change_bind {f : Program → Program} {g : Unit → Lower β} {R : β → Lowering → Prop}
    (rest : Meets (g ()) { s with program := f s.program } E R) :
    Meets (change f >>= g) s E R := rest

end Meets

/-- From the state `s`, a run that succeeds ends with `Q`. One that fails is not refused by the
arena. -/
def Ends (m : Lower α) (s : Lowering) (Q : α → Lowering → Prop) : Prop :=
  match m s with
  | .ok (a, t) => Q a t
  | .error e => ∀ fault, e ≠ .arena fault

namespace Ends

variable {s : Lowering}

theorem mono {m : Lower α} {Q R : α → Lowering → Prop} (ends : Ends m s Q)
    (weaker : ∀ a t, Q a t → R a t) : Ends m s R := Meets.mono ends weaker fun _ => id

theorem pure {a : α} {Q : α → Lowering → Prop} (here : Q a s) :
    Ends (Pure.pure a : Lower α) s Q := here

theorem throw {e : LowerError} {Q : α → Lowering → Prop} (faultless : ∀ fault, e ≠ .arena fault) :
    Ends (MonadExcept.throw e : Lower α) s Q := faultless

theorem bind {m : Lower α} {f : α → Lower β} {Q : α → Lowering → Prop} {R : β → Lowering → Prop}
    (first : Ends m s Q) (rest : ∀ a t, Q a t → Ends (f a) t R) : Ends (m >>= f) s R :=
  Meets.bind first rest

theorem map {m : Lower α} {f : α → β} {Q : β → Lowering → Prop}
    (ends : Ends m s fun a t => Q (f a) t) : Ends (f <$> m) s Q := Meets.map ends

theorem get_bind {f : Lowering → Lower β} {R : β → Lowering → Prop} (rest : Ends (f s) s R) :
    Ends (MonadState.get >>= f) s R := rest

theorem forM {f : α → Lower PUnit} {I : List α → Lowering → Prop} {items : List α}
    (start : I items s)
    (turn : ∀ a rest t, I (a :: rest) t → Ends (f a) t (fun _ => I rest)) :
    Ends (items.forM f) s (fun _ => I []) := Meets.forM start turn

theorem mapM {f : α → Lower β} {I : List α → List β → Lowering → Prop} {items : List α}
    (done : List β) (start : I items done s)
    (turn : ∀ a rest done t, I (a :: rest) done t →
      Ends (f a) t (fun b => I rest (done ++ [b]))) :
    Ends (items.mapM f) s (fun found => I [] (done ++ found)) := Meets.mapM done start turn

theorem build_bind {f : Program → α × Program} {g : α → Lower β} {R : β → Lowering → Prop}
    (rest : Ends (g (f s.program).1) { s with program := (f s.program).2 } R) :
    Ends (build f >>= g) s R := rest

theorem build {f : Program → α × Program} {Q : α → Lowering → Prop}
    (done : Q (f s.program).1 { s with program := (f s.program).2 }) :
    Ends (Lower.build f) s Q := done

theorem change_bind {f : Program → Program} {g : Unit → Lower β} {R : β → Lowering → Prop}
    (rest : Ends (g ()) { s with program := f s.program } R) :
    Ends (change f >>= g) s R := rest

end Ends

/-- The symbols that the scopes declare. -/
def declaredIn (scopes : List Scope) : List SymbolId := scopes.flatMap (·.map Prod.snd)

theorem mem_declaredIn_of_lookup {scopes : List Scope} {name : String} {v : SymbolId}
    (found : lookup? scopes name = some v) : v ∈ declaredIn scopes := by
  obtain ⟨scope, member, here⟩ := List.exists_of_findSome?_eq_some found
  obtain ⟨before, after, equal, _⟩ := List.lookup_eq_some_iff.mp here
  refine List.mem_flatMap.mpr ⟨scope, member, List.mem_map.mpr ⟨(name, v), ?_, rfl⟩⟩
  rw [equal]
  simp

/-- What holds of the program and the scopes between any two steps. -/
structure Ready (s : Lowering) : Prop where
  settled : s.program.Settled
  valued : s.program.Valued
  ordered : s.program.Ordered
  known : ∀ v ∈ declaredIn s.scopes, v.index < s.program.symbols.size

theorem Ready.forest {s : Lowering} (ready : Ready s) : s.program.Forest := ready.settled.sound.forest

/-- The way from `s` to `t` has built the trees `trees`, which name nothing from around them but
`outer`, and has given definitions to `claimed`. -/
structure Yields (s : Lowering) (claimed outer : List SymbolId) (trees : List NodeId) (t : Lowering) :
    Prop where
  ready : Ready t
  grows : Grows s.program [] claimed t.program
  loose : ∀ n ∈ trees, t.program.Loose n outer
  fresh : ∀ n ∈ trees, ¬ s.program.Live n
  nodup : trees.Nodup

namespace Yields

variable {s t u : Lowering} {claimed claimed' outer outer' : List SymbolId}
  {trees trees' : List NodeId}

theorem nothing (ready : Ready s) : Yields s [] outer [] s where
  ready := ready
  grows := .refl
  loose := nofun
  fresh := nofun
  nodup := List.nodup_nil

theorem kind_eq (second : Yields t claimed outer trees u) {n : NodeId} (live : t.program.Live n) :
    u.program.kind n = t.program.kind n :=
  second.grows.kind live List.not_mem_nil

/-- What was built first stays as it is while more is built. -/
theorem append (first : Yields s claimed outer trees t) (second : Yields t claimed' outer' trees' u)
    (wider : outer ⊆ outer') (new : ∀ v ∈ claimed', v.index < s.program.symbols.size → v ∈ claimed) :
    Yields s claimed outer' (trees ++ trees') u where
  ready := second.ready
  grows := first.grows.trans second.grows nofun new
  loose n member := by
    rcases List.mem_append.mp member with old | added
    · exact (second.grows.loose first.ready.forest second.ready.forest (first.loose n old) nofun
        List.not_mem_nil).mono wider
    · exact second.loose n added
  fresh n member := by
    rcases List.mem_append.mp member with old | added
    · exact first.fresh n old
    · exact fun live => second.fresh n added (first.grows.live live)
  nodup := by
    refine List.nodup_append'.mpr ⟨first.nodup, second.nodup, fun n old added => ?_⟩
    exact second.fresh n added (first.loose n old).live

theorem mono (yields : Yields s claimed outer trees t) (wider : outer ⊆ outer') :
    Yields s claimed outer' trees t :=
  { yields with loose := fun n member => (yields.loose n member).mono wider }

/-- What may be built from loose trees. -/
theorem buildable (yields : Yields s claimed outer trees t) {kind : NodeKind} {rest : List NodeId}
    (children : trees.Perm (kind.children ++ rest)) (lawful : t.program.Lawful kind)
    (new : ∀ v, kind.defines? = some v → (t.program.symbol v).decl = none) :
    t.program.Buildable kind := by
  have sound := yields.ready.settled.sound
  have inside (c : NodeId) (child : c ∈ kind.children) : c ∈ trees :=
    children.mem_iff.mpr (List.mem_append_left _ child)
  exact
    { child_live := fun child => (yields.loose _ (inside _ child)).live
      child_top := fun child => (yields.loose _ (inside _ child)).top
      child_free := fun child => (yields.loose _ (inside _ child)).free
      children_nodup := (List.nodup_append'.mp (children.nodup yields.nodup)).1
      defines_known := lawful.defines_known
      defines_local := fun {v} defines isModule => by
        obtain ⟨block, found⟩ := sound.rooted.sort_module isModule
        refine lawful.defines_local defines ?_
        rw [Program.moduleBlock?, Symbol.moduleBlock?] at found
        cases kind : (t.program.symbol v).kind <;> simp_all [SymbolKind.sort]
      defines_new := fun {v} defines n defined => by
        have missing := new v defines
        rw [sound.bound defined] at missing
        cases missing }

end Yields

theorem valued_built {p q : Program} {kind : NodeKind} {id : NodeId} (built : Built p kind id q)
    (valued : p.Valued)
    (value : ∀ v value, kind = .define v (some value) → (p.symbol v).isValue = true) : q.Valued := by
  intro n v defined live equal
  have same : (q.symbol v).isValue = (p.symbol v).isValue := by
    rw [Symbol.isValue, built.symbol_kind, Symbol.isValue]
  rw [same]
  rcases built.live_iff.mp live with rfl | old
  · exact value v defined (built.kind_id.symm.trans equal)
  · rw [built.kind_of_ne (built.ne_of_live old)] at equal
    exact valued n v defined old equal

section

variable {s t : Lowering} {claimed outer : List SymbolId} {trees : List NodeId} {span : Span}

/-- Builds a node over some of the trees. -/
theorem node_ends {kind : NodeKind} (yields : Yields s claimed outer trees t) (rest : List NodeId)
    (children : trees.Perm (kind.children ++ rest)) (lawful : t.program.Lawful kind)
    (names : ∀ v, kind.Names v → v ∈ outer)
    (new : ∀ v, kind.defines? = some v → (t.program.symbol v).decl = none ∧
      (v.index < s.program.symbols.size → v ∈ claimed))
    (value : ∀ v value, kind = .define v (some value) → (t.program.symbol v).isValue = true) :
    Ends (build (·.addNode kind span)) t fun id u => Yields s claimed outer (id :: rest) u ∧
      Built t.program kind id u.program ∧ u.scopes = t.scopes := by
  refine Ends.build ?_
  have settled := yields.ready.settled
  have buildable := yields.buildable children lawful fun v defines => (new v defines).1
  have built := addNode_built buildable span
  have grows := built.grows buildable
  have settledU := built.settled buildable lawful settled
  have inside (c : NodeId) (child : c ∈ kind.children) : c ∈ trees :=
    children.mem_iff.mpr (List.mem_append_left _ child)
  have outside (c : NodeId) (member : c ∈ rest) : c ∈ trees :=
    children.mem_iff.mpr (List.mem_append_right _ member)
  have distinct := List.nodup_append'.mp (children.nodup yields.nodup)
  have loose : (t.program.addNode kind span).2.Loose _ outer := built.loose buildable settled.sound
    (fun c child => (yields.loose c (inside c child)).bound) names
  refine ⟨?_, built, rfl⟩
  exact
    { ready :=
        { settled := settledU
          valued := valued_built built yields.ready.valued value
          ordered := yields.ready.ordered.grow grows settled.sound settledU.sound
            (fun c child => not_reached_of_top settled.sound (yields.loose c (inside c child)).top
              (yields.loose c (inside c child)).free) built.registries
          known := fun v member => grows.known (yields.ready.known v member) }
      grows := yields.grows.trans grows
        (fun c child live => absurd live (yields.fresh c (inside c child)))
        fun v member known => (new v (Option.mem_toList.mp member)).2 known
      loose := fun n member => by
        rcases List.mem_cons.mp member with rfl | member
        · exact loose
        · refine grows.loose settled.sound.forest settledU.sound.forest
            (yields.loose n (outside n member))
            (fun c child => (yields.loose c (inside c child)).top) ?_
          exact fun child => distinct.2.2 child member
      fresh := fun n member => by
        rcases List.mem_cons.mp member with rfl | member
        · exact fun live => built.ne_of_live (yields.grows.live live) rfl
        · exact yields.fresh n (outside n member)
      nodup := by
        refine List.nodup_cons.mpr ⟨fun member => ?_, distinct.2.1⟩
        exact built.ne_of_live (yields.loose _ (outside _ member)).live rfl }

/-- Builds a node that names no symbol. -/
theorem silent_ends {kind : NodeKind} (yields : Yields s claimed outer trees t) (rest : List NodeId)
    (children : trees.Perm (kind.children ++ rest)) (defines : kind.defines? = none)
    (ref : kind.symRef? = none) (callee : kind.callee? = none)
    (fits : ∀ slot c, (slot, c) ∈ kind.slots → t.program.Fits c slot) :
    Ends (node kind span) t fun id u => Yields s claimed outer (id :: rest) u ∧
      Built t.program kind id u.program ∧ u.scopes = t.scopes := by
  refine node_ends yields rest children (.of_silent defines ref callee fits) ?_ ?_ ?_
  · rintro v (named | named)
    · rw [ref] at named
      cases named
    · rw [callee] at named
      cases named
  · intro v found
    rw [defines] at found
    cases found
  · rintro v value rfl
    cases defines

end

/-- What lowering an expression or some expressions ends with. -/
structure Evaluates (s : Lowering) (trees : List NodeId) (t : Lowering) : Prop
    extends Yields s [] (declaredIn s.scopes) trees t where
  scopes : t.scopes = s.scopes
  expr : ∀ n ∈ trees, (t.program.kind n).isExpr = true

theorem Evaluates.nothing {s : Lowering} (ready : Ready s) : Evaluates s [] s where
  toYields := .nothing ready
  scopes := rfl
  expr := nofun

/-- The expression over some expressions. -/
theorem Evaluates.over {s t : Lowering} {kind : NodeKind} {id : NodeId} {u : Lowering}
    {trees : List NodeId} (evaluates : Evaluates s trees t) (expr : kind.isExpr = true)
    (done : Yields s [] (declaredIn s.scopes) [id] u ∧ Built t.program kind id u.program ∧
      u.scopes = t.scopes) : Evaluates s [id] u where
  toYields := done.1
  scopes := done.2.2.trans evaluates.scopes
  expr n member := by
    cases List.mem_singleton.mp member
    rwa [done.2.1.kind_id]

theorem Evaluates.append {s t u : Lowering} {trees trees' : List NodeId}
    (first : Evaluates s trees t) (second : Evaluates t trees' u) :
    Evaluates s (trees ++ trees') u where
  toYields := by
    refine first.toYields.append (second.toYields.mono ?_) (List.Subset.refl _) nofun
    rw [first.scopes]
    exact List.Subset.refl _
  scopes := second.scopes.trans first.scopes
  expr n member := by
    rcases List.mem_append.mp member with old | added
    · rw [second.kind_eq (first.loose n old).live]
      exact first.expr n old
    · exact second.expr n added

section

variable {s t : Lowering} {trees : List NodeId} {span : Span}

/-- An expression that names nothing itself. -/
theorem Evaluates.silent_ends {kind : NodeKind} (evaluates : Evaluates s trees t)
    (children : kind.children = trees) (expr : kind.isExpr = true) (ref : kind.symRef? = none)
    (callee : kind.callee? = none) : Ends (node kind span) t fun id => Evaluates s [id] := by
  refine (Lower.silent_ends evaluates.toYields [] ?_ (NodeKind.defines?_of_expr expr) ref
    callee ?_).mono fun id u => evaluates.over expr
  · rw [children, List.append_nil]
  · intro slot c member
    cases NodeKind.slot_of_expr expr member
    exact evaluates.expr c (children ▸ NodeKind.mem_children_iff.mpr ⟨_, member⟩)

theorem ref_ends {outer : List SymbolId} {claimed : List SymbolId} {v : SymbolId}
    (yields : Yields s claimed outer trees t) (known : v.index < t.program.symbols.size)
    (value : (t.program.symbol v).isValue = true) (member : v ∈ outer) :
    Ends (build (·.addRef v span)) t fun id u => Yields s claimed outer (id :: trees) u ∧
      Built t.program (.symRef v) id u.program ∧ u.scopes = t.scopes := by
  have lawful : t.program.Lawful (.symRef v) :=
    { fits := nofun
      defines_known := nofun
      defines_fn := nofun
      defines_local := nofun
      ref_value := fun ref => by cases ref; exact ⟨known, value⟩
      callee_fn := nofun }
  refine node_ends yields trees (.refl _) lawful ?_ nofun nofun
  rintro w (named | named)
  · cases named
    exact member
  · cases named

theorem valueNamed_ends (ready : Ready s) (name : String) :
    Ends (valueNamed name span) s fun v t => t = s ∧ v ∈ declaredIn s.scopes ∧
      v.index < s.program.symbols.size ∧ (s.program.symbol v).isValue = true := by
  refine Ends.get_bind ?_
  cases found : (lookup? s.scopes name).filter fun sym => (s.program.symbol sym).isValue with
  | none => exact Ends.throw nofun
  | some v =>
    obtain ⟨here, value⟩ := Option.filter_eq_some_iff.mp found
    have member := mem_declaredIn_of_lookup here
    exact Ends.pure ⟨rfl, member, ready.known v member, value⟩

theorem function?_ends (name : String) :
    Ends (function? name) s fun callee t => t = s ∧ ∀ f, callee = some f →
      f ∈ declaredIn s.scopes ∧ s.program.isFn f = true := by
  refine Ends.get_bind (Ends.pure ⟨rfl, fun f found => ?_⟩)
  obtain ⟨here, fn⟩ := Option.filter_eq_some_iff.mp found
  exact ⟨mem_declaredIn_of_lookup here, fn⟩

theorem call_ends {callee : Option SymbolId} {name : String} (evaluates : Evaluates s trees t)
    (fn : ∀ f, callee = some f → f ∈ declaredIn s.scopes ∧ t.program.isFn f = true) :
    Ends (node (.call callee name trees) span) t fun id => Evaluates s [id] := by
  have lawful : t.program.Lawful (.call callee name trees) :=
    { fits := fun {slot c} member => by
        cases NodeKind.slot_of_expr (k := .call callee name trees) rfl member
        exact evaluates.expr c (NodeKind.mem_children_iff.mpr ⟨_, member⟩)
      defines_known := nofun
      defines_fn := nofun
      defines_local := nofun
      ref_value := nofun
      callee_fn := fun {f} found => (fn f found).2 }
  refine (node_ends evaluates.toYields [] ?_ lawful ?_ nofun nofun).mono
    fun id u => evaluates.over rfl
  · exact List.append_nil _ ▸ .refl _
  · rintro f (named | named)
    · cases named
    · exact (fn f named).1

end

mutual

theorem expr_ends {s : Lowering} (ready : Ready s) (span : Span) (e : Expr) :
    Ends (expr span e) s fun t => Evaluates s [t] := by
  cases e with
  | int value | bool value | str value =>
    rw [expr]
    exact (Evaluates.nothing ready).silent_ends rfl rfl rfl rfl
  | name name =>
    rw [expr]
    refine (valueNamed_ends ready name).bind ?_
    rintro v _ ⟨rfl, member, known, value⟩
    refine (ref_ends (Evaluates.nothing ready).toYields known value member).mono fun id u => ?_
    exact (Evaluates.nothing ready).over rfl
  | call name args =>
    rw [expr]
    refine (exprs_ends ready span args).bind fun trees t evaluates => ?_
    refine (function?_ends name).bind ?_
    rintro callee _ ⟨rfl, fn⟩
    exact call_ends evaluates fun f found => evaluates.scopes ▸ fn f found
  | named name value =>
    rw [expr]
    refine (expr_ends ready span value).bind fun n t evaluates => ?_
    exact evaluates.silent_ends rfl rfl rfl rfl
  | prim op args =>
    rw [expr]
    refine (exprs_ends ready span args).bind fun trees t evaluates => ?_
    exact evaluates.silent_ends rfl rfl rfl rfl
  | addrOf operand | deref operand =>
    rw [expr]
    refine (expr_ends ready span operand).bind fun n t evaluates => ?_
    exact evaluates.silent_ends rfl rfl rfl rfl

theorem exprs_ends {s : Lowering} (ready : Ready s) (span : Span) (es : List Expr) :
    Ends (exprs span es) s (Evaluates s) := by
  cases es with
  | nil =>
    rw [exprs]
    exact Ends.pure (.nothing ready)
  | cons e rest =>
    rw [exprs]
    refine (expr_ends ready span e).bind fun n t first => ?_
    refine (exprs_ends first.ready span rest).bind fun trees u others => ?_
    exact Ends.pure (first.append others)

end

/-- An expression in the place of a statement. -/
theorem exprStmt_ends {s : Lowering} (ready : Ready s) (span : Span) (e : Expr) :
    Ends (stmt (.expr span e)) s (Evaluates s) := by
  rw [stmt]
  exact (expr_ends ready span e).bind fun n t evaluates => Ends.pure evaluates

theorem optionalExpr_ends {s : Lowering} (ready : Ready s) (span : Span) (e : Option Expr) :
    Ends (optionalExpr span e) s fun value => Evaluates s value.toList := by
  cases e with
  | none => exact Ends.pure (.nothing ready)
  | some e => exact Ends.map (expr_ends ready span e)

end Lower

end Surface

end MiddleEnd
