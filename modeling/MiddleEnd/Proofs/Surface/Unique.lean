import MiddleEnd.Proofs.Surface.Named

/-! Lowering declares no name twice in one scope. -/

namespace MiddleEnd

namespace Surface.Lower

open Program

variable {s : Lowering} {given : List Trait} {span : Span}

/-! Names and types. -/

/-- A name that is declared for a symbol of that name is found under it. -/
theorem declare_upholds {name : String} {v : SymbolId} (called : .named v name ∈ given) :
    Upholds given (declare name v span) fun _ => [.declared v] where
  meets {s} named holds := by
    cases scopes : s.scopes with
    | nil =>
      refine Meets.get_bind ?_
      rw [scopes]
      exact Meets.throw trivial
    | cons S outer =>
      refine declare_meets scopes trivial fun missing => ?_
      obtain ⟨known, isName⟩ := holds _ called
      refine ⟨⟨fun {T x w} inside member => ?_, named.covered⟩,
        { (Advances.refl : Advances s [] s) with widens := ?_ }, fun trait member => ?_⟩
      · rcases List.mem_cons.mp inside with rfl | inside
        · rcases List.mem_cons.mp member with same | member
          · cases same
            exact ⟨known, isName⟩
          · exact named.entry (by rw [scopes]; exact List.mem_cons_self) member
        · exact named.entry (by rw [scopes]; exact List.mem_cons_of_mem _ inside) member
      · rw [scopes]
        exact .cons (.cons missing) widens_refl
      · cases List.mem_singleton.mp member
        refine ⟨known, ?_⟩
        show ((name, v) :: S).lookup (s.program.name v) = some v
        rw [isName]
        exact List.lookup_cons_self

/-- What is found in the innermost scope is found there under its own name. -/
theorem declared_upholds (name : String) :
    Upholds given (declared name span) fun v => [.declared v] where
  meets {s} named _ := by
    refine Meets.get_bind ?_
    cases found : own? s.scopes name with
    | none =>
      rw [show s.scopes.head?.bind (·.lookup name) = none from found]
      exact Meets.throw trivial
    | some v =>
      rw [show s.scopes.head?.bind (·.lookup name) = some v from found]
      refine Meets.pure ⟨named, .refl, fun trait member => ?_⟩
      cases List.mem_singleton.mp member
      obtain ⟨S, first, here⟩ := Option.bind_eq_some_iff.mp found
      obtain ⟨before, after, split, _⟩ := List.lookup_eq_some_iff.mp here
      have listed : (name, v) ∈ S := by
        rw [split]
        exact List.mem_append_right _ List.mem_cons_self
      obtain ⟨known, isName⟩ := named.entry (List.mem_of_mem_head? first) listed
      exact ⟨known, isName ▸ found⟩

theorem valueNamed_upholds (name : String) : Upholds given (valueNamed name span) fun _ => [] := by
  refine Upholds.get.bind fun s => ?_
  split
  · exact .pure (List.nil_subset _)
  · exact .throw _

theorem function?_upholds (name : String) : Upholds given (function? name) fun _ => [] :=
  Upholds.get.bind fun _ => .pure (List.nil_subset _)

theorem ty_upholds (text : String) : Upholds given (ty text span) fun _ => [] := by
  refine Upholds.get.bind fun s => ?_
  dsimp only
  split
  · exact .pure (List.nil_subset _)
  · exact .throw _

theorem optionalTy_upholds (text : Option String) :
    Upholds given (optionalTy text span) fun _ => [] := by
  cases text with
  | none => exact .pure (List.nil_subset _)
  | some text => exact ty_upholds text

theorem hoistName_upholds (st : Stmt) : Upholds given (hoistName st) fun _ => [] := by
  have quietly {name : String} {v : SymbolId} {span : Span} {given : List Trait}
      (called : .named v name ∈ given) : Upholds given (declare name v span) fun _ => [] :=
    (declare_upholds called).mono (List.Subset.refl _) fun _ => List.nil_subset _
  cases st with
  | type span name =>
    exact (Upholds.symbol _).bind fun sym => (Upholds.typed sym _).bind fun _ =>
      quietly (by simp)
  | fn span name formals ret retTag flags body =>
    refine (Upholds.symbol _).bind fun sym => (Upholds.attachFlags sym flags).bind fun _ => ?_
    split
    · exact (Upholds.attachFlag sym _).bind fun _ => quietly (by simp)
    · exact quietly (by simp)
  | _ => exact .pure (List.nil_subset _)

theorem hoistReturnType_upholds (st : Stmt) :
    Upholds given (hoistReturnType st) fun _ => [] := by
  unfold hoistReturnType
  split
  · refine (ty_upholds _).bind fun ty => Upholds.get.bind fun s => ?_
    split
    · exact .typed _ _
    · exact .pure (List.nil_subset _)
  · exact .pure (List.nil_subset _)

theorem hoist_upholds (items : List Stmt) : Upholds given (hoist items) fun _ => [] :=
  (Upholds.forM fun st _ => hoistName_upholds st).bind fun _ =>
    Upholds.forM fun st _ => hoistReturnType_upholds st

theorem bindReturnVar_upholds (v : SymbolId) :
    Upholds given (bindReturnVar v span) fun _ => [] := by
  refine Upholds.get.bind fun s => ?_
  split
  · exact .pure (List.nil_subset _)
  · split
    · exact .pure (List.nil_subset _)
    · have binds (f : SymbolId) : Upholds given
          (change (·.modifySymbol f (Symbol.mapFnData fun data => { data with retVar := some v })))
          fun _ => [] := by
        refine .change fun _ => dresses_modifySymbol f (fun sym => ?_) fun sym => ?_
        all_goals cases kind : sym.kind <;> simp [Symbol.mapFnData, kind, SymbolKind.sort]
      split
      · exact (Upholds.throw _).bind fun _ => binds _
      · exact binds _

/-! Expressions. -/

mutual

theorem expr_upholds (given : List Trait) (span : Span) (e : Expr) :
    Upholds given (expr span e) fun n => [.fits n] := by
  cases e with
  | int value | bool value | str value =>
    rw [expr]
    exact .plain rfl (by simp [NodeKind.children])
  | name name =>
    rw [expr]
    exact (valueNamed_upholds name).bind fun sym => .plain rfl (by simp [NodeKind.children])
  | call name args =>
    rw [expr]
    refine (exprs_upholds _ span args).bind fun args => (function?_upholds name).bind fun callee => ?_
    exact .plain rfl (by simp +contextual [NodeKind.children])
  | named name value =>
    rw [expr]
    exact (expr_upholds _ span value).bind fun value => .plain rfl (by simp [NodeKind.children])
  | prim op args =>
    rw [expr]
    exact (exprs_upholds _ span args).bind fun args =>
      .plain rfl (by simp +contextual [NodeKind.children])
  | addrOf operand | deref operand =>
    rw [expr]
    exact (expr_upholds _ span operand).bind fun operand => .plain rfl (by simp [NodeKind.children])

theorem exprs_upholds (given : List Trait) (span : Span) (es : List Expr) :
    Upholds given (exprs span es) fun ns => ns.map .fits := by
  cases es with
  | nil =>
    rw [exprs]
    exact .pure (List.nil_subset _)
  | cons e rest =>
    rw [exprs]
    exact (expr_upholds _ span e).bind fun first => (exprs_upholds _ span rest).bind fun others =>
      .pure (by simp)

end

theorem optionalExpr_upholds (e : Option Expr) :
    Upholds given (optionalExpr span e) fun value => value.toList.map .fits := by
  cases e with
  | none => exact .pure (List.nil_subset _)
  | some e => exact ((expr_upholds _ span e).mono (List.Subset.refl _) (by simp)).map

/-- The definition of a symbol that has been declared. -/
theorem definition_upholds {v : SymbolId} {value : Option NodeId} (declared : .declared v ∈ given)
    (fits : ∀ c ∈ value.toList, .fits c ∈ given) :
    Upholds given (build (·.addDefinition v value span)) fun n => [.fits n] :=
  (Upholds.node (k := .define v value) fits).derive fun n s holds trait member => by
    cases List.mem_singleton.mp member
    exact (holds (.declared v) (by simp [declared])).fits_of_declared
      (holds (.defines n (some v)) (by simp [NodeKind.defines?]))

/-- The definition of a variable, whatever its name. -/
theorem varDefinition_upholds {v : SymbolId} {value : Option NodeId} (isVar : .isVar v ∈ given)
    (fits : ∀ c ∈ value.toList, .fits c ∈ given) :
    Upholds given (build (·.addDefinition v value span)) fun n => [.fits n] :=
  (Upholds.node (k := .define v value) fits).derive fun n s holds trait member => by
    cases List.mem_singleton.mp member
    exact (holds (.isVar v) (by simp [isVar])).fits_of_var
      (holds (.defines n (some v)) (by simp [NodeKind.defines?]))

theorem formalSymbol_upholds (formal : Formal) :
    Upholds given (formalSymbol span formal) fun v => [.declared v] := by
  refine (optionalTy_upholds _).bind fun ty => (Upholds.symbol _).bind fun sym => ?_
  refine (Upholds.attachFlags sym formal.flags).bind fun _ => ?_
  exact (declare_upholds (by simp)).bind fun _ => .pure (by simp)

theorem formalDef_upholds (formal : Formal) {v : SymbolId} (declared : .declared v ∈ given) :
    Upholds given (formalDef span (formal, v)) fun n => [.fits n] :=
  (optionalExpr_upholds _).bind fun value => definition_upholds (by simp [declared]) (by simp +contextual)

/-! Blocks. -/

/-- Statements can be put into a block that the innermost scope belongs to. -/
def Puttable (body : List Stmt) : Prop :=
  ∀ {s : Lowering} {block : NodeId}, Named s → block.index < s.program.nodes.size →
    (∀ c ∈ s.program.children block, Fits s.program s.scopes c) →
    Meets (items body block) s (fun _ => True) fun _ t => Named t ∧ Advances s [block] t

/-- Fills a block in a scope of its own. -/
theorem filled_meets {body : List Stmt} (puttable : Puttable body) (named : Named s) {block : NodeId}
    (known : block.index < s.program.nodes.size) (empty : s.program.children block = []) :
    Meets (inScope do hoist body; items body block) s (fun _ => True) fun _ t =>
      Named t ∧ Advances s [block] t := by
  have hoists : Upholds [] (hoist body) fun _ => [] := hoist_upholds body
  refine inScope_meets (Meets.bind (hoists.meets named.enter nofun) ?_)
  rintro _ t ⟨namedT, advances, _⟩
  have fits : ∀ c ∈ t.program.children block, Fits t.program t.scopes c :=
    advances.fits_children advances.widens known List.not_mem_nil fun c child => by
      rw [show s.program.children block = [] from empty] at child
      cases child
  refine (puttable namedT (known.trans_le advances.size) fits).mono ?_ fun _ => id
  rintro _ u ⟨namedU, further⟩
  exact ⟨namedU.leave, ((advances.mono (List.nil_subset _)).trans further).leave⟩

theorem inBlock_upholds {body : List Stmt} (puttable : Puttable body) :
    Upholds given (inBlock body span fun block => items body block)
      fun block => [.defines block none, .fits block] where
  meets {s} named _ := by
    refine Meets.build_bind ?_
    let block : NodeId := ⟨s.program.nodes.size⟩
    let start : Lowering := { s with program := (s.program.addNode (.block []) span).2 }
    have made : Advances s [] start := addNode_advances (.block []) span
    have known : block.index < start.program.nodes.size := by
      show s.program.nodes.size < (s.program.addNode (.block []) span).2.nodes.size
      rw [(size_addNode (.block []) span).1]
      exact Nat.lt_succ_self _
    have kind : start.program.kind block = .block [] :=
      (kind_addNode (.block []) span block).trans (if_pos rfl)
    have empty : start.program.children block = [] := by
      rw [children, kind]
      rfl
    have namedS : Named start := named.addNode [] span fun c child => absurd child List.not_mem_nil
    refine Meets.bind (filled_meets puttable namedS known empty) ?_
    rintro _ t ⟨namedT, advances⟩
    have nothing : (t.program.kind block).defines? = none := by
      rw [advances.defines known, kind]
      rfl
    have knownT : block.index < t.program.nodes.size := known.trans_le advances.size
    refine Meets.pure ⟨namedT, ((made.mono (List.nil_subset _)).trans advances).close (Nat.le_refl _),
      fun trait member => ?_⟩
    rcases List.mem_pair.mp member with rfl | rfl
    · exact ⟨knownT, nothing⟩
    · exact .of_defines_none knownT nothing

/-- A node that defines nothing fits every scope. -/
theorem Upholds.outside {m : Lower NodeId} (upholds : Upholds given m fun n => [.defines n none]) :
    Upholds given m fun n => [.fits n] :=
  upholds.derive fun n s holds trait member => by
    cases List.mem_singleton.mp member
    have nothing := holds (.defines n none) (by simp)
    exact Fits.of_defines_none nothing.1 nothing.2

/-- Appending what defines nothing. -/
theorem append_upholds {block n : NodeId} (nothing : .defines n none ∈ given) :
    Upholds given (append block n) fun _ => [] where
  meets {s} named holds := by
    obtain ⟨known, nothing⟩ := holds _ nothing
    refine Meets.get_bind ?_
    cases result : s.program.append block n with
    | error e => exact Meets.throw trivial
    | ok q =>
      obtain ⟨frames, fits⟩ := named.covered block
      have advances := append_advances result
      refine ⟨(named.append result fits (.of_defines_none known nothing)).1,
        { advances with children := fun {o} knownO _ c child => ?_ }, nofun⟩
      by_cases same : o = block
      · subst same
        refine (mem_children_of_append result child).imp_right ?_
        rintro rfl
        exact ⟨known.trans_le advances.size, (advances.defines known).trans nothing⟩
      · exact advances.children knownO (fun member => same (List.mem_singleton.mp member)) c child

/-- Appending what the innermost scope declares. -/
theorem appendAll_meets (named : Named s) {block : NodeId} {nodes : List NodeId}
    (known : block.index < s.program.nodes.size)
    (fits : ∀ c ∈ s.program.children block, Fits s.program s.scopes c)
    (all : ∀ n ∈ nodes, Fits s.program s.scopes n) :
    Meets (nodes.forM (append block)) s (fun _ => True) fun _ t => Named t ∧ Advances s [block] t ∧
      ∀ c ∈ t.program.children block, Fits t.program t.scopes c := by
  induction nodes generalizing s with
  | nil => exact Meets.pure ⟨named, .refl, fits⟩
  | cons n rest ih =>
    show Meets (append block n >>= fun _ => rest.forM (append block)) s _ _
    refine Meets.bind (Q := fun _ t => Named t ∧ Advances s [block] t ∧ t.scopes = s.scopes ∧
      ∀ c ∈ t.program.children block, Fits t.program s.scopes c) ?_ ?_
    · refine Meets.get_bind ?_
      cases result : s.program.append block n with
      | error e => exact Meets.throw trivial
      | ok q =>
        obtain ⟨namedQ, fitsQ⟩ := named.append result fits (all n List.mem_cons_self)
        exact ⟨namedQ, append_advances result, rfl, fitsQ⟩
    · rintro _ t ⟨namedT, advances, scopes, fitsT⟩
      refine (ih namedT (known.trans_le advances.size) (scopes ▸ fitsT) fun m member => ?_).mono ?_
        fun _ => id
      · exact advances.fits advances.widens (all m (List.mem_cons_of_mem _ member))
      · rintro _ u ⟨namedU, further, fitsU⟩
        exact ⟨namedU, advances.trans further, fitsU⟩

/-! Statements. -/

mutual

theorem stmt_upholds (given : List Trait) (st : Stmt) :
    Upholds given (stmt st) fun ns => ns.map .fits := by
  cases st with
  | var span name tyText init flags =>
    rw [stmt]
    refine (optionalTy_upholds _).bind fun ty => (optionalExpr_upholds _).bind fun value => ?_
    refine (Upholds.newVar _ rfl).bind fun sym => (Upholds.attachFlags sym flags).bind fun _ => ?_
    have declares {given : List Trait} (called : .named sym name ∈ given)
        (isVar : .isVar sym ∈ given) (fits : ∀ c ∈ value.toList, .fits c ∈ given) :
        Upholds given (do
          declare name sym span
          Pure.pure [← build (·.addDefinition sym value span)]) fun ns => ns.map .fits :=
      (declare_upholds called).bind fun _ =>
        (varDefinition_upholds (by simp [isVar]) (by simp +contextual [fits])).only (by simp)
    split
    · exact (bindReturnVar_upholds sym).bind fun _ =>
        declares (by simp) (by simp) (by simp +contextual)
    · exact declares (by simp) (by simp) (by simp +contextual)
  | type span name =>
    rw [stmt]
    exact (declared_upholds name).bind fun sym =>
      (definition_upholds (by simp) (by simp)).only (by simp)
  | fn span name formals ret retTag flags body =>
    rw [stmt]
    refine (declared_upholds name).bind fun f => ?_
    have inner : Upholds [] (do
        let syms ← formals.mapM (formalSymbol span)
        let defs ← (formals.zip syms).mapM (formalDef span)
        let body ← inBlock body span fun block => items body block
        Pure.pure [← node (.fnDef f defs body) span]) fun ns => ns.map (.defines · (some f)) := by
      refine (Upholds.mapM fun formal _ => formalSymbol_upholds formal).bind fun syms => ?_
      refine (Upholds.mapM fun pair member => formalDef_upholds pair.1
        (by simpa using (List.of_mem_zip member).2)).bind fun defs => ?_
      refine (inBlock_upholds (items_upholds body)).bind fun body => ?_
      exact (Upholds.node (by simp [NodeKind.children, or_comm])).bind fun n =>
        .pure (by simp [NodeKind.defines?])
    refine (Upholds.inFunction (.inScope inner nofun ?_)).derive fun ns s holds trait member => ?_
    · intro ns trait member
      obtain ⟨n, _, rfl⟩ := List.mem_map.mp member
      trivial
    · obtain ⟨n, listed, rfl⟩ := List.mem_map.mp member
      exact (holds (.declared f) (by simp)).fits_of_declared
        (holds (.defines n (some f)) (by simp [listed]))
  | assign span target value =>
    rw [stmt]
    exact (expr_upholds ..).bind fun value => (expr_upholds ..).bind fun target =>
      (Upholds.plain rfl (by simp [NodeKind.children])).only (by simp)
  | cond span test thenBody elseBody =>
    cases elseBody with
    | none =>
      rw [stmt]
      exact (expr_upholds ..).bind fun test =>
        (inBlock_upholds (items_upholds thenBody)).bind fun _ =>
          (Upholds.plain rfl (by simp [NodeKind.children])).only (by simp)
    | some elseBody =>
      rw [stmt]
      exact (expr_upholds ..).bind fun test =>
        (inBlock_upholds (items_upholds thenBody)).bind fun _ =>
          (inBlock_upholds (items_upholds elseBody)).bind fun _ =>
            (Upholds.plain rfl (by simp [NodeKind.children])).only (by simp)
  | loop span test body testFirst =>
    rw [stmt]
    refine (Upholds.temp _).bind fun temp => ?_
    extract_lets rest
    have upholds {given : List Trait} (init : Option NodeId) (isVar : .isVar temp ∈ given)
        (fits : ∀ c ∈ init.toList, .fits c ∈ given) :
        Upholds given (rest init) fun ns => ns.map .fits := by
      refine (varDefinition_upholds isVar fits).bind fun tempDef => ?_
      refine (inBlock_upholds (items_upholds body)).bind fun block => ?_
      refine (expr_upholds _ span test).bind fun again => ?_
      refine (Upholds.plain (k := .symRef temp) rfl (by simp [NodeKind.children])).bind
        fun target => ?_
      refine (Upholds.node (k := .assign target again) (by simp [NodeKind.children])).bind
        fun assign => ?_
      refine (append_upholds (by simp [NodeKind.defines?])).bind fun _ => ?_
      refine (Upholds.plain (k := .symRef temp) rfl (by simp [NodeKind.children])).bind
        fun tested => ?_
      exact (Upholds.plain rfl (by simp [NodeKind.children])).bind fun loop => .pure (by simp)
    split
    · exact (optionalExpr_upholds (some test)).bind fun init =>
        upholds init (by simp) (by simp +contextual)
    · have nothing {given : List Trait} : Upholds given (Pure.pure none : Lower (Option NodeId))
          fun value => value.toList.map .fits := .pure (List.nil_subset _)
      exact nothing.bind fun init => upholds init (by simp) (by simp +contextual)
  | forLoop span index iterable body =>
    rw [stmt]
    refine (expr_upholds ..).bind fun iterable => (Upholds.newVar _ rfl).bind fun sym => ?_
    refine (Upholds.attachFlag ..).bind fun _ => ?_
    refine (varDefinition_upholds (by simp) (by simp)).bind fun indexDef => ?_
    have inner : Upholds [.named sym index] (do
        declare index sym span
        inBlock body span fun block => items body block) fun block => [.defines block none] :=
      (declare_upholds (by simp)).bind fun _ =>
        (inBlock_upholds (items_upholds body)).mono (List.Subset.refl _) (by simp)
    refine Upholds.bind (.outside (.inScope inner ?_ ?_)) fun block =>
      (Upholds.plain rfl (by simp [NodeKind.children])).only (by simp)
    · intro trait member
      cases List.mem_singleton.mp member
      exact ⟨by simp, trivial⟩
    · intro block trait member
      cases List.mem_singleton.mp member
      trivial
  | ret span value =>
    rw [stmt]
    exact (optionalExpr_upholds ..).bind fun value =>
      (Upholds.plain rfl (by simp +contextual [NodeKind.children])).only (by simp)
  | brk span | cont span | label span name | goto span name =>
    rw [stmt]
    exact (Upholds.plain rfl (by simp [NodeKind.children])).only (by simp)
  | expr span e =>
    rw [stmt]
    exact (expr_upholds _ span e).only (by simp)

theorem items_upholds (body : List Stmt) : Puttable body := by
  intro s block named known fits
  cases body with
  | nil =>
    rw [items]
    exact Meets.pure ⟨named, .refl⟩
  | cons st rest =>
    rw [items]
    refine Meets.bind ((stmt_upholds [] st).meets named nofun) ?_
    rintro nodes t ⟨namedT, advances, found⟩
    have fitsT := advances.fits_children advances.widens known List.not_mem_nil fits
    refine Meets.bind (appendAll_meets namedT (known.trans_le advances.size) fitsT fun n member =>
      found (.fits n) (List.mem_map_of_mem member)) ?_
    rintro _ u ⟨namedU, further, fitsU⟩
    have first := (advances.mono (List.nil_subset _)).trans further
    refine (items_upholds rest namedU (known.trans_le first.size) fitsU).mono ?_ fun _ => id
    rintro _ v ⟨namedV, last⟩
    exact ⟨namedV, first.trans last⟩

end

/-! Modules. -/

theorem moduleTree_named (m : ModuleTree) (named : Named s) :
    Meets (moduleTree m) s (fun _ => True) fun _ => Named := by
  refine Meets.build_bind (Meets.get_bind ?_)
  rw [moduleBlock?_addModule]
  refine (filled_meets (items_upholds m.items) (named.addModule m.name m.span) ?_ ?_).mono
    (fun _ _ both => both.1) fun _ => id
  · simp [Program.addModule, addSymbol]
  · rw [children, kind, node_addModule, if_pos rfl]
    rfl

end Surface.Lower

open Program

/-- What lowering makes is named without doubt. -/
theorem Surface.ProgramTree.lowered_uniquelyNamed {tree : Surface.ProgramTree} {p : Program}
    (lowered : tree.lower = .ok p) : p.UniquelyNamed := by
  have start : Surface.Lower.Named {} := ⟨nofun, fun o => ⟨[], fun c child => by
    exact absurd (known_of_child child) (Nat.not_lt_zero _)⟩⟩
  have named : Surface.Lower.Meets (tree.modules.forM Surface.Lower.moduleTree) {} (fun _ => True)
      fun _ => Surface.Lower.Named :=
    Surface.Lower.Meets.forM (I := fun _ => Surface.Lower.Named) start fun m _ _ kept =>
      Surface.Lower.moduleTree_named m kept
  unfold Surface.Lower.Meets at named
  rw [lower, StateT.run] at lowered
  cases result : tree.modules.forM Surface.Lower.moduleTree {} with
  | error e =>
    rw [result] at lowered
    cases lowered
  | ok pair =>
    rw [result] at named lowered
    cases lowered
    exact named.uniquelyNamed

theorem Linked.uniquelyNamed {p : Program} (linked : Linked p) : p.UniquelyNamed := by
  obtain ⟨lowered, sites⟩ := linked
  have binds := ((Calls.computeSites_ends (Surface.ProgramTree.lowered lowered).1).of_ok sites).2.1
  exact (Surface.ProgramTree.lowered_uniquelyNamed lowered).retarget binds.toRetarget

end MiddleEnd
