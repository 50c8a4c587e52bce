import MiddleEnd.Proofs.Calls.Tracked
import MiddleEnd.Proofs.Surface.Statements

/-! Lowering only adds entries and attaches nodes, so no call list of what it makes dangles. -/

namespace MiddleEnd.Surface

open Program

namespace Lower

variable {α β : Type}

/-- A run that succeeds keeps the call lists of the program in order. -/
structure Tracks (m : Lower α) : Prop where
  meets {s : Lowering} :
    s.program.Tracked → Meets m s (fun _ => True) fun _ t => t.program.Tracked

namespace Tracks

theorem pure (a : α) : Tracks (Pure.pure a : Lower α) := ⟨fun tracked => Meets.pure tracked⟩

theorem throw (e : LowerError) : Tracks (MonadExcept.throw e : Lower α) :=
  ⟨fun _ => Meets.throw trivial⟩

theorem get : Tracks (MonadState.get : Lower Lowering) := ⟨id⟩

/-- A change of the scopes or of the function is none of the program. -/
theorem modify {change : Lowering → Lowering} (program : ∀ s, (change s).program = s.program) :
    Tracks (modify change) where
  meets {s} tracked := by
    show (change s).program.Tracked
    rw [program]
    exact tracked

theorem bind {m : Lower α} {f : α → Lower β} (first : Tracks m) (rest : ∀ a, Tracks (f a)) :
    Tracks (m >>= f) :=
  ⟨fun tracked => Meets.bind (first.meets tracked) fun a _ kept => (rest a).meets kept⟩

theorem map {m : Lower α} {f : α → β} (tracks : Tracks m) : Tracks (f <$> m) :=
  ⟨fun tracked => Meets.map (tracks.meets tracked)⟩

theorem forM {f : α → Lower PUnit} (turn : ∀ a, Tracks (f a)) (items : List α) :
    Tracks (items.forM f) :=
  ⟨fun tracked => Meets.forM (I := fun _ t => t.program.Tracked) tracked fun a _ _ kept =>
    (turn a).meets kept⟩

theorem mapM {f : α → Lower β} (turn : ∀ a, Tracks (f a)) (items : List α) :
    Tracks (items.mapM f) :=
  ⟨fun tracked => Meets.mapM (I := fun _ _ t => t.program.Tracked) [] tracked fun a _ _ _ kept =>
    (turn a).meets kept⟩

theorem build {f : Program → α × Program} (quiet : ∀ p, Quiet p (f p).2) :
    Tracks (Lower.build f) :=
  ⟨fun tracked => Meets.build ((quiet _).tracked tracked)⟩

theorem change {f : Program → Program} (quiet : ∀ p, Quiet p (f p)) : Tracks (Lower.change f) :=
  ⟨fun tracked => (quiet _).tracked tracked⟩

theorem node (kind : NodeKind) (span : Span) : Tracks (Lower.node kind span) :=
  build fun _ => quiet_addNode kind span

theorem definition (sym : SymbolId) (value : Option NodeId) (span : Span) :
    Tracks (Lower.build (·.addDefinition sym value span)) :=
  build fun _ => quiet_addNode ..

theorem symbol (sym : Symbol) (uncalled : sym.callers = []) :
    Tracks (Lower.build (·.addSymbol sym)) :=
  build fun _ => quiet_addSymbol uncalled

theorem attachFlags (sym : SymbolId) (flags : List Flag) :
    Tracks (Lower.change (·.attachFlags sym flags)) :=
  change fun _ => (relabel_attachFlags sym flags).quiet

theorem attachFlag (sym : SymbolId) (flag : Flag) :
    Tracks (Lower.change (·.attachFlag sym flag)) :=
  change fun _ => (relabel_attachFlag sym flag).quiet

/-- Giving a symbol its type changes no call list. -/
theorem typed (sym : SymbolId) (ty : Ty) :
    Tracks (Lower.change (·.modifySymbol sym fun s => { s with ty := ty })) :=
  change fun _ => (relabel_modifySymbol sym (fun s => { s with ty := ty }) (fun _ => rfl)
    (fun _ => rfl) (fun _ => rfl) (fun _ => rfl) fun _ => rfl).quiet

theorem append (owner child : NodeId) : Tracks (Lower.append owner child) where
  meets {s} tracked := by
    refine Meets.get_bind ?_
    cases result : s.program.append owner child with
    | error e => exact Meets.throw trivial
    | ok q => exact (append_quiet result).tracked tracked

theorem inScope {inner : Lower α} (tracks : Tracks inner) : Tracks (Lower.inScope inner) := by
  refine bind (modify ?_) fun _ => tracks.bind fun a => bind (modify ?_) fun _ => pure a
  · exact fun _ => rfl
  · exact fun _ => rfl

theorem inFunction {f : SymbolId} {inner : Lower α} (tracks : Tracks inner) :
    Tracks (Lower.inFunction f inner) := by
  refine get.bind fun _ => ?_
  refine bind (modify ?_) fun _ => tracks.bind fun a => bind (modify ?_) fun _ => pure a
  · exact fun _ => rfl
  · exact fun _ => rfl

end Tracks

/-! Names and types. -/

theorem declare_tracks (name : String) (sym : SymbolId) (span : Span) :
    Tracks (declare name sym span) := by
  refine Tracks.get.bind fun s => ?_
  split
  · exact .throw _
  · split
    · exact (Tracks.throw _).bind fun _ => .modify fun _ => rfl
    · exact .modify fun _ => rfl

theorem declared_tracks (name : String) (span : Span) : Tracks (declared name span) := by
  refine Tracks.get.bind fun s => ?_
  split
  · exact .pure _
  · exact .throw _

theorem valueNamed_tracks (name : String) (span : Span) : Tracks (valueNamed name span) := by
  refine Tracks.get.bind fun s => ?_
  split
  · exact .pure _
  · exact .throw _

theorem ty_tracks (text : String) (span : Span) : Tracks (ty text span) := by
  refine Tracks.get.bind fun s => ?_
  dsimp only
  split
  · exact .pure _
  · exact .throw _

theorem optionalTy_tracks (text : Option String) (span : Span) : Tracks (optionalTy text span) := by
  cases text with
  | none => exact .pure _
  | some text => exact ty_tracks text span

theorem hoistName_tracks (st : Stmt) : Tracks (hoistName st) := by
  cases st with
  | type span name =>
    refine (Tracks.symbol _ rfl).bind fun sym => ?_
    exact (Tracks.typed sym _).bind fun _ => declare_tracks ..
  | fn span name formals ret retTag flags body =>
    refine (Tracks.symbol _ rfl).bind fun sym => ?_
    refine (Tracks.attachFlags sym flags).bind fun _ => ?_
    split
    · exact (Tracks.attachFlag sym _).bind fun _ => declare_tracks ..
    · exact declare_tracks ..
  | _ => exact .pure _

theorem hoistReturnType_tracks (st : Stmt) : Tracks (hoistReturnType st) := by
  unfold hoistReturnType
  split
  · refine (ty_tracks ..).bind fun ty => Tracks.get.bind fun s => ?_
    split
    · exact .typed _ _
    · exact .pure _
  · exact .pure _

theorem hoist_tracks (items : List Stmt) : Tracks (hoist items) :=
  (Tracks.forM hoistName_tracks items).bind fun _ => Tracks.forM hoistReturnType_tracks items

theorem bindReturnVar_tracks (sym : SymbolId) (span : Span) : Tracks (bindReturnVar sym span) :=
  ⟨fun tracked => (bindReturnVar_meets fun _ => trivial).mono
    (fun _ _ ⟨_, same, change, _⟩ => same ▸ change.quiet.tracked tracked) fun _ => id⟩

theorem inBlock_tracks (body : List Stmt) (span : Span) {inner : NodeId → Lower Unit}
    (tracks : ∀ block, Tracks (inner block)) : Tracks (inBlock body span inner) :=
  (Tracks.node ..).bind fun block =>
    (Tracks.inScope ((hoist_tracks body).bind fun _ => tracks block)).bind fun _ => .pure block

/-! Expressions. -/

mutual

theorem expr_tracks (span : Span) (e : Expr) : Tracks (expr span e) := by
  cases e with
  | int value | bool value | str value =>
    rw [expr]
    exact .node ..
  | name name =>
    rw [expr]
    exact (valueNamed_tracks ..).bind fun sym => .node ..
  | call name args =>
    rw [expr]
    refine (exprs_tracks span args).bind fun args => ?_
    exact (Tracks.get.bind fun _ => .pure _).bind fun callee => .node ..
  | named name value =>
    rw [expr]
    exact (expr_tracks span value).bind fun value => .node ..
  | prim op args =>
    rw [expr]
    exact (exprs_tracks span args).bind fun args => .node ..
  | addrOf operand | deref operand =>
    rw [expr]
    exact (expr_tracks span operand).bind fun operand => .node ..

theorem exprs_tracks (span : Span) (es : List Expr) : Tracks (exprs span es) := by
  cases es with
  | nil =>
    rw [exprs]
    exact .pure _
  | cons e rest =>
    rw [exprs]
    exact (expr_tracks span e).bind fun first => (exprs_tracks span rest).bind fun others => .pure _

end

theorem optionalExpr_tracks (span : Span) (e : Option Expr) : Tracks (optionalExpr span e) := by
  cases e with
  | none => exact .pure _
  | some e => exact (expr_tracks span e).map

theorem formalSymbol_tracks (span : Span) (formal : Formal) : Tracks (formalSymbol span formal) := by
  refine (optionalTy_tracks ..).bind fun ty => (Tracks.symbol _ rfl).bind fun sym => ?_
  refine (Tracks.attachFlags sym formal.flags).bind fun _ => ?_
  exact (declare_tracks ..).bind fun _ => .pure sym

theorem formalDef_tracks (span : Span) (formal : Formal × SymbolId) :
    Tracks (formalDef span formal) :=
  (optionalExpr_tracks ..).bind fun _ => .definition ..

/-! Statements. -/

mutual

theorem stmt_tracks (st : Stmt) : Tracks (stmt st) := by
  cases st with
  | var span name tyText init flags =>
    rw [stmt]
    refine (optionalTy_tracks ..).bind fun ty => (optionalExpr_tracks ..).bind fun value => ?_
    refine (Tracks.symbol _ rfl).bind fun sym => (Tracks.attachFlags sym flags).bind fun _ => ?_
    have declares : Tracks (declare name sym span >>= fun _ => do
        Pure.pure [← build (·.addDefinition sym value span)]) :=
      (declare_tracks ..).bind fun _ => (Tracks.definition ..).bind fun _ => .pure _
    split
    · exact (bindReturnVar_tracks ..).bind fun _ => declares
    · exact declares
  | type span name =>
    rw [stmt]
    exact (declared_tracks ..).bind fun sym => (Tracks.definition ..).bind fun _ => .pure _
  | fn span name formals ret retTag flags body =>
    rw [stmt]
    refine (declared_tracks ..).bind fun f => .inFunction (.inScope ?_)
    refine (Tracks.mapM (formalSymbol_tracks span) formals).bind fun syms => ?_
    refine (Tracks.mapM (formalDef_tracks span) _).bind fun defs => ?_
    exact (inBlock_tracks body span fun block => items_tracks body block).bind fun body =>
      (Tracks.node ..).bind fun _ => .pure _
  | assign span target value =>
    rw [stmt]
    exact (expr_tracks ..).bind fun value => (expr_tracks ..).bind fun target =>
      (Tracks.node ..).bind fun _ => .pure _
  | cond span test thenBody elseBody =>
    cases elseBody with
    | none =>
      rw [stmt]
      exact (expr_tracks ..).bind fun test =>
        (inBlock_tracks thenBody span fun block => items_tracks thenBody block).bind fun _ =>
          (Tracks.node ..).bind fun _ => .pure _
    | some elseBody =>
      rw [stmt]
      exact (expr_tracks ..).bind fun test =>
        (inBlock_tracks thenBody span fun block => items_tracks thenBody block).bind fun _ =>
          (inBlock_tracks elseBody span fun block => items_tracks elseBody block).bind fun _ =>
            (Tracks.node ..).bind fun _ => .pure _
  | loop span test body testFirst =>
    rw [stmt]
    refine (Tracks.build fun _ => quiet_addSymbol rfl).bind fun temp => ?_
    extract_lets rest
    have tracks (init : Option NodeId) : Tracks (rest init) := by
      refine (Tracks.definition ..).bind fun tempDef => ?_
      refine (inBlock_tracks body span fun block => items_tracks body block).bind fun block => ?_
      refine (expr_tracks span test).bind fun again => ?_
      refine (Tracks.build fun _ => quiet_addNode ..).bind fun target => ?_
      refine (Tracks.node ..).bind fun assign => (Tracks.append ..).bind fun _ => ?_
      refine (Tracks.build fun _ => quiet_addNode ..).bind fun tested => ?_
      exact (Tracks.node ..).bind fun _ => .pure _
    split
    · exact (expr_tracks span test).map.bind tracks
    · exact (Tracks.pure _).bind tracks
  | forLoop span index iterable body =>
    rw [stmt]
    refine (expr_tracks ..).bind fun iterable => (Tracks.symbol _ rfl).bind fun sym => ?_
    refine (Tracks.attachFlag ..).bind fun _ => (Tracks.definition ..).bind fun indexDef => ?_
    refine Tracks.bind (.inScope ?_) fun block => (Tracks.node ..).bind fun _ => .pure _
    exact (declare_tracks ..).bind fun _ =>
      inBlock_tracks body span fun block => items_tracks body block
  | ret span value =>
    rw [stmt]
    exact (optionalExpr_tracks ..).bind fun value => (Tracks.node ..).bind fun _ => .pure _
  | brk span | cont span | label span name | goto span name =>
    rw [stmt]
    exact (Tracks.node ..).bind fun _ => .pure _
  | expr span e =>
    rw [stmt]
    exact (expr_tracks span e).bind fun _ => .pure _

theorem items_tracks (body : List Stmt) (block : NodeId) : Tracks (items body block) := by
  cases body with
  | nil =>
    rw [items]
    exact .pure _
  | cons st rest =>
    rw [items]
    exact (stmt_tracks st).bind fun nodes => (Tracks.forM (Tracks.append block) nodes).bind fun _ =>
      items_tracks rest block

end

theorem moduleTree_tracks (m : ModuleTree) : Tracks (moduleTree m) := by
  refine (Tracks.build fun _ => quiet_addModule ..).bind fun sym => Tracks.get.bind fun s => ?_
  split
  · exact .pure _
  · exact .inScope ((hoist_tracks m.items).bind fun _ => items_tracks m.items _)

end Lower

theorem ProgramTree.lowered_tracked {tree : ProgramTree} {p : Program}
    (lowered : tree.lower = .ok p) : p.Tracked := by
  have tracks := (Lower.Tracks.forM Lower.moduleTree_tracks tree.modules).meets (s := {}) Tracked.empty
  unfold Lower.Meets at tracks
  rw [lower, StateT.run] at lowered
  cases result : tree.modules.forM Lower.moduleTree {} with
  | error e =>
    rw [result] at lowered
    cases lowered
  | ok pair =>
    rw [result] at tracks lowered
    cases lowered
    exact tracks

end MiddleEnd.Surface
