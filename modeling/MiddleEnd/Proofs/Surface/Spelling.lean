import MiddleEnd.Proofs.Surface.Nested

/-! What lowering builds for a statement spells it. -/

namespace MiddleEnd.Surface

open Program

namespace Lower

variable {s t u : Lowering} {outer : List Scope} {visible : List Visible} {span : Span}
  {sort : SymbolSort} {v : SymbolId}

/-! Statements that declare nothing. -/

section

variable {X : Program → List Scope → Prop}

/-- The node of a statement that leaves the scopes alone. -/
theorem Inserts.writes {st : Stmt} {nodes : List NodeId}
    (inserts : Inserts s (SpellsStmt · · (resolveStmt visible st) nodes) t) (sees : Sees s visible)
    (same : seeNext visible st = visible) : Writes s visible st nodes t where
  builds := inserts.toBuilds
  sees := by
    rw [same]
    exact inserts.sees sees
  tail := congrArg List.tail inserts.scopes

/-- A statement whose last step is to build its only node. -/
theorem Inserts.statement {st : Stmt} {E : LowerError → Prop} (inserts : Inserts s X t)
    (sees : Sees s visible) (same : seeNext visible st = visible) (kind : NodeKind)
    (whole : ∀ n q frames, X q frames → q.kind n = kind →
      SpellsStmt q frames (resolveStmt visible st) [n]) :
    Meets (do pure [← node kind span]) t E fun nodes => Writes s visible st nodes := by
  refine Meets.bind (inserts.node_meets kind whole) fun n u built => ?_
  exact Meets.pure (built.writes sees same)

theorem assign_writes (sees : Sees s visible) (target value : Expr) :
    Meets (stmt (.assign span target value)) s
      (Unbound (resolveStmt visible (.assign span target value)).namings)
      fun nodes => Writes s visible (.assign span target value) nodes := by
  rw [stmt]
  refine Meets.bind ((expr_spells sees span value).within (List.subset_append_right _ _))
    fun k t first => ?_
  refine Meets.bind ((expr_spells (first.sees sees) span target).within
    (List.subset_append_left _ _)) fun m u second => ?_
  exact (first.trans second).statement sees rfl _ fun n q frames both kind =>
    ⟨n, m, k, rfl, kind, both.2, both.1⟩

theorem ret_writes (sees : Sees s visible) (value : Option Expr) :
    Meets (stmt (.ret span value)) s (Unbound (resolveStmt visible (.ret span value)).namings)
      fun nodes => Writes s visible (.ret span value) nodes := by
  rw [stmt]
  refine Meets.bind (optionalExpr_spells sees span value) fun m t first => ?_
  exact first.statement sees rfl _ fun n q frames spelled kind => ⟨n, m, rfl, kind, spelled⟩

theorem cond_writes (sees : Sees s visible) (test : Expr) {thenBody : List Stmt}
    (thenAppendable : Appendable (enterBlock visible thenBody) thenBody) :
    Meets (stmt (.cond span test thenBody none)) s
      (Unbound (resolveStmt visible (.cond span test thenBody none)).namings)
      fun nodes => Writes s visible (.cond span test thenBody none) nodes := by
  rw [stmt]
  refine Meets.bind ((expr_spells sees span test).within (List.subset_append_left _ _))
    fun m t first => ?_
  refine Meets.bind ((inBlock_blocked (first.sees sees) thenAppendable).within
    (List.subset_append_right _ _)) fun block u blocked => ?_
  obtain ⟨inner, blocked⟩ := blocked
  exact (first.trans blocked.close).statement sees rfl _ fun n q frames both kind =>
    ⟨n, m, block, inner, rfl, kind, both⟩

theorem condElse_writes (sees : Sees s visible) (test : Expr) {thenBody elseBody : List Stmt}
    (thenAppendable : Appendable (enterBlock visible thenBody) thenBody)
    (elseAppendable : Appendable (enterBlock visible elseBody) elseBody) :
    Meets (stmt (.cond span test thenBody (some elseBody))) s
      (Unbound (resolveStmt visible (.cond span test thenBody (some elseBody))).namings)
      fun nodes => Writes s visible (.cond span test thenBody (some elseBody)) nodes := by
  rw [stmt]
  refine Meets.bind ((expr_spells sees span test).within ?_) fun m t first => ?_
  · exact List.Subset.trans (List.subset_append_left _ _) (List.subset_append_left _ _)
  have seesT := first.sees sees
  refine Meets.bind ((inBlock_blocked seesT thenAppendable).within ?_) fun block u second => ?_
  · exact List.Subset.trans (List.subset_append_right _ _) (List.subset_append_left _ _)
  obtain ⟨inner, second⟩ := second
  refine Meets.bind ((inBlock_blocked (second.close.sees seesT) elseAppendable).within
    (List.subset_append_right _ _)) fun other w third => ?_
  obtain ⟨others, third⟩ := third
  have whole := (first.trans second.close).trans third.close
  refine whole.statement sees rfl _ fun n q frames all kind => ?_
  obtain ⟨⟨spelled, thenSpelled⟩, elseSpelled⟩ := all
  exact ⟨n, m, block, inner, other, others, rfl, kind, spelled, thenSpelled, elseSpelled⟩

end

/-! Statements that declare a name. -/

theorem type_writes (sees : Sees s visible) {name : String}
    (foreseen : Foreseen visible (.type span name)) :
    Meets (stmt (.type span name)) s (Unbound (resolveStmt visible (.type span name)).namings)
      fun nodes => Writes s visible (.type span name) nodes := by
  rw [stmt]
  refine Meets.bind (declared_meets sees (foreseen.hoisted rfl)) fun v t found => ?_
  obtain ⟨rfl, own⟩ := found
  have start : Inserts t (fun _ frames => own? frames name = some v) t :=
    ⟨.declaring widens_refl fun frames wider => own?_of_widens wider own, rfl⟩
  exact start.statement sees rfl _ fun n q frames declared kind => ⟨n, v, rfl, kind, declared⟩

/-- Declaring a name in the innermost scope. -/
theorem declare_spells {E : LowerError → Prop} {name : String} (sees : Sees s visible)
    (inside : visible ≠ []) (twice : E (.duplicate name span)) (makes : Makes s sort v t) :
    Meets (declare name v span) t E fun _ u => u.program = t.program ∧
      u.scopes.tail = s.scopes.tail ∧
      Sees u (visible.modifyHead (· ++ [(name, sort)])) ∧
      Builds s [] (fun _ frames => own? frames name = some v) u := by
  obtain ⟨D, around, rfl⟩ := List.exists_cons_of_ne_nil inside
  obtain ⟨S, outer, mirrors, rest, scopes⟩ := List.forall₂_cons_right_iff.mp sees
  refine declare_meets (makes.scopes.trans scopes) twice fun missing => ?_
  refine ⟨rfl, by rw [scopes]; rfl, ?_, makes.adds, ?_, fun same wider => ?_⟩
  · refine .cons ((mirrors.adds makes.adds).declare missing makes.known makes.sorted) ?_
    exact rest.imp fun _ _ mirrors => mirrors.adds makes.adds
  · rw [scopes]
    exact .cons (.cons missing) widens_refl
  · exact own?_of_widens wider List.lookup_cons_self

/-- The definition of a variable follows its declaration. -/
theorem declared_var_writes {name : String} {ty : Option String} {init : Option Expr}
    {flags : List Flag} {value : Option NodeId} (sees : Sees s visible) (inside : visible ≠ [])
    (inserts : Inserts s (SpellsOptional · · (init.map (resolveExpr visible span)) value) t)
    (makes : Makes t .var v u) :
    Meets (do
      declare name v span
      pure [← build (·.addDefinition v value span)]) u
      (Unbound (resolveStmt visible (.var span name ty init flags)).namings)
      fun nodes => Writes s visible (.var span name ty init flags) nodes := by
  refine Meets.bind (declare_spells (inserts.sees sees) inside nofun makes) fun _ w declared => ?_
  obtain ⟨_, tail, seesW, builds⟩ := declared
  refine Meets.bind (node_meets (.define v value)) fun n x built => Meets.pure ?_
  refine ⟨((inserts.toBuilds.trans builds).trans built.toBuilds).mono fun q frames all => ?_,
    built.sees seesW, ?_⟩
  · obtain ⟨⟨spelled, own⟩, kind⟩ := all
    exact ⟨n, v, value, rfl, kind, own, spelled⟩
  · rw [built.scopes, tail, inserts.scopes]

theorem var_writes (sees : Sees s visible) (inside : visible ≠ []) (name : String)
    (ty : Option String) (init : Option Expr) (flags : List Flag) :
    Meets (stmt (.var span name ty init flags)) s
      (Unbound (resolveStmt visible (.var span name ty init flags)).namings)
      fun nodes => Writes s visible (.var span name ty init flags) nodes := by
  rw [stmt]
  refine Meets.bind (optionalTy_meets (fun _ => OfType.unbound) ty) fun ty' t same => ?_
  subst same
  refine Meets.bind (optionalExpr_spells sees span init) fun value t inserts => ?_
  refine Meets.build_bind (Meets.change_bind ?_)
  let sym : Symbol := { name := name, kind := .var, ty := ty' }
  have makes := (makes_addSymbol (s := t) sym).relabel
    (relabel_attachFlags (t.program.addSymbol sym).1 flags)
  split
  · refine Meets.bind (bindReturnVar_meets fun _ => nofun) fun _ u changed => ?_
    obtain ⟨q, rfl, change, _⟩ := changed
    exact declared_var_writes sees inside inserts (makes.relabel change)
  · exact declared_var_writes sees inside inserts makes

/-! Loops. -/

theorem append_adds {E : LowerError → Prop} (refused : ∀ fault, E (.arena fault)) {block n : NodeId}
    {ids : List NodeId} (kind : s.program.kind block = .block ids) :
    Meets (append block n) s E fun _ t => Adds s.program [block] t.program ∧
      t.program.kind block = .block (ids ++ [n]) ∧ t.scopes = s.scopes ∧
      t.program.nodes.size = s.program.nodes.size := by
  refine Meets.get_bind ?_
  cases result : s.program.append block n with
  | error fault => exact Meets.throw (refused fault)
  | ok q =>
    obtain ⟨adds, list, size⟩ := adds_append kind result
    exact ⟨adds, list, rfl, size⟩

/-- The assignment that computes the condition of a loop anew. -/
def Recomputes (visible : List Visible) (span : Span) (test : Expr) (temp : SymbolId)
    (assign : NodeId) (q : Program) (frames : List Scope) : Prop :=
  ∃ target again, q.kind assign = .assign target again ∧ q.kind target = .symRef temp ∧
    SpellsExpr q frames (resolveExpr visible span test) again

theorem recompute_inserts {α : Type} (sees : Sees s visible) (test : Expr) (temp : SymbolId)
    {namings : List Naming} (listed : (resolveExpr visible span test).namings ⊆ namings)
    {rest : NodeId → Lower α} {Q : α → Lowering → Prop}
    (next : ∀ assign t, Inserts s (Recomputes visible span test temp assign) t →
      Meets (rest assign) t (Unbound namings) Q) :
    Meets (do
      let again ← expr span test
      let target ← build (·.addRef temp span)
      let assign ← node (.assign target again) span
      rest assign) s (Unbound namings) Q := by
  refine Meets.bind ((expr_spells sees span test).within listed) fun again t first => ?_
  refine Meets.bind (first.node_meets (.symRef temp)
    (Z := fun target q frames => q.kind target = .symRef temp ∧
      SpellsExpr q frames (resolveExpr visible span test) again) fun target q frames spelled kind =>
    ⟨kind, spelled⟩) fun target u second => ?_
  exact Meets.bind (second.node_meets (.assign target again) fun assign q frames both kind =>
    ⟨target, again, kind, both⟩) next

/-- The loop once its condition has been computed for the first time. -/
theorem loopTree_writes (temp : SymbolId) (sees : Sees s visible) {test : Expr} {body : List Stmt}
    {testFirst : Bool} {init : Option NodeId} (inserts : Inserts s (SpellsOptional · ·
      (if testFirst then some (resolveExpr visible span test) else none) init) t)
    (appendable : Appendable (enterBlock visible body) body) :
    Meets (do
      let tempDef ← build (·.addDefinition temp init span)
      let block ← inBlock body span fun block => items body block
      let again ← expr span test
      let target ← build (·.addRef temp span)
      let assign ← node (.assign target again) span
      append block assign
      let tested ← build (·.addRef temp span)
      let loop ← node (.loop tested block testFirst) span
      pure [tempDef, loop]) t (Unbound (resolveStmt visible (.loop span test body testFirst)).namings)
      fun nodes => Writes s visible (.loop span test body testFirst) nodes := by
  refine Meets.bind (node_meets (.define temp init)) fun tempDef t₁ defined => ?_
  have first := inserts.trans defined
  refine Meets.bind ((inBlock_blocked (first.sees sees) appendable).within
    (List.subset_append_right _ _)) fun block t₂ blocked => ?_
  obtain ⟨inner, blocked⟩ := blocked
  have sees₂ : Sees t₂ visible := (first.sees sees).adds blocked.builds.adds blocked.scopes
  refine recompute_inserts sees₂ test temp (List.subset_append_left _ _) fun assign t₃ again => ?_
  have kind₃ : t₃.program.kind block = .block inner :=
    (again.adds.kind blocked.known List.not_mem_nil).trans blocked.kind
  refine Meets.bind (append_adds (fun _ => nofun) kind₃) fun _ t₄ appended => ?_
  obtain ⟨adds₄, kind₄, scopes₄, size₄⟩ := appended
  refine Meets.bind (node_meets (.symRef temp)) fun tested t₅ ref => ?_
  refine Meets.bind (node_meets (.loop tested block testFirst)) fun loop t₆ built => Meets.pure ?_
  have last := ref.trans built
  have known₃ := Nat.lt_of_lt_of_le blocked.known again.adds.nodes_le
  have known₄ : block.index < t₄.program.nodes.size := size₄ ▸ known₃
  -- Everything but the block itself is settled once it is built.
  have apart {a b : Lowering} (old : block.index < a.program.nodes.size ∨
      b.program.nodes.size ≤ block.index) (n : NodeId) (member : n ∈ [block]) :
      n.index < a.program.nodes.size ∨ b.program.nodes.size ≤ n.index := by
    cases List.mem_singleton.mp member
    exact old
  have before := (first.toBuilds.touch (apart (.inr blocked.new))).trans blocked.builds
  have middle := (before.trans (again.toBuilds.touch (apart (.inl blocked.known)))).after adds₄
    scopes₄ size₄
  have whole := middle.trans (last.toBuilds.touch (apart (.inl known₄)))
  have kind₆ : t₆.program.kind block = .block (inner ++ [assign]) :=
    (last.adds.kind known₄ List.not_mem_nil).trans kind₄
  have closed := whole.close (Nat.le_trans first.adds.nodes_le blocked.new)
    (Nat.lt_of_lt_of_le known₄ last.adds.nodes_le)
  have scopes : t₆.scopes = s.scopes := by
    rw [last.scopes, scopes₄, again.scopes, blocked.scopes, first.scopes]
  refine Inserts.writes ⟨closed.mono fun q frames all => ?_, scopes⟩ sees rfl
  obtain ⟨⟨⟨⟨⟨spelled, temporary⟩, own, items⟩, target, value, assigns, target', again'⟩, test, loop⟩,
    kind⟩ := all
  exact ⟨tempDef, _, temp, init, tested, block, inner, assign, target, value, rfl, temporary, spelled,
    loop, test, kind.trans kind₆, assigns, target', again', own, items⟩

theorem loop_writes (sees : Sees s visible) (test : Expr) {body : List Stmt} (testFirst : Bool)
    (appendable : Appendable (enterBlock visible body) body) :
    Meets (stmt (.loop span test body testFirst)) s
      (Unbound (resolveStmt visible (.loop span test body testFirst)).namings)
      fun nodes => Writes s visible (.loop span test body testFirst) nodes := by
  rw [stmt]
  refine Meets.build_bind ?_
  have made := (makes_addTemp (s := s) .bool).inserts
  have after {init : Option NodeId} {t : Lowering} (inserts : Inserts
      { s with program := (s.program.addTemp .bool).2 } (SpellsOptional · ·
        (if testFirst then some (resolveExpr visible span test) else none) init) t) :=
    loopTree_writes (s.program.addTemp .bool).1 sees
      ((made.trans inserts).mono fun _ _ both => both.2) appendable
  cases testFirst with
  | false =>
    refine Meets.bind ((optionalExpr_spells (made.sees sees) span none).within (List.nil_subset _))
      fun init t inserts => after inserts
  | true =>
    refine Meets.bind ((optionalExpr_spells (made.sees sees) span (some test)).within
      (List.subset_append_left _ _)) fun init t inserts => after inserts

theorem forLoop_writes (sees : Sees s visible) (index : String) (iterable : Expr)
    {body : List Stmt}
    (appendable : Appendable (enterBlock ([(index, .var)] :: visible) body) body) :
    Meets (stmt (.forLoop span index iterable body)) s
      (Unbound (resolveStmt visible (.forLoop span index iterable body)).namings)
      fun nodes => Writes s visible (.forLoop span index iterable body) nodes := by
  rw [stmt]
  refine Meets.bind ((expr_spells sees span iterable).within (List.subset_append_left _ _))
    fun m t first => ?_
  refine Meets.build_bind (Meets.change_bind ?_)
  let sym : Symbol := { name := index, kind := .var, ty := .unknown }
  let v := (t.program.addSymbol sym).1
  have makes := (makes_addSymbol (s := t) sym).relabel (relabel_attachFlag v .indexVar)
  refine Meets.bind (node_meets (.define v none)) fun indexDef t₁ defined => ?_
  have second := (first.trans makes.inserts).trans defined
  have sees₁ := second.sees sees
  -- The header's scope holds the index alone, and only the body stands in it.
  refine Meets.bind (Q := fun block t₂ => ∃ inner header, t₂.scopes = t₁.scopes ∧
    Inserts t₁ (fun q frames => own? (header :: frames) index = some v ∧
      q.kind block = .block inner ∧ ∃ own, SpellsItems q (own :: header :: frames)
        (resolveItems (enterBlock ([(index, .var)] :: visible) body) body) inner) t₂)
    (inScope_meets ?_) fun block t₂ inside => ?_
  · have empty : Sees { t₁ with scopes := [] :: t₁.scopes } ([] :: visible) :=
      .cons ⟨fun _ => rfl, nofun⟩ sees₁
    have known : Makes { t₁ with scopes := [] :: t₁.scopes } .var v
        { t₁ with scopes := [] :: t₁.scopes } :=
      { adds := .refl
        size := rfl
        scopes := rfl
        known := Nat.lt_of_lt_of_le makes.known defined.adds.symbols_le
        sorted := (defined.adds.sort makes.known).trans makes.sorted }
    refine Meets.bind (declare_spells empty (List.cons_ne_nil _ _) nofun known)
      fun _ w declared => ?_
    obtain ⟨_, tail, seesW, builds⟩ := declared
    refine ((inBlock_blocked seesW appendable).within (List.subset_append_right _ _)).mono
      (fun block u blocked => ?_) fun _ => id
    obtain ⟨inner, blocked⟩ := blocked
    have both := builds.trans blocked.close.toBuilds
    obtain ⟨header, outside, _, _, scopesU⟩ := List.forall₂_cons_left_iff.mp both.widens
    have outer : outside = t₁.scopes := by
      rw [← blocked.scopes, scopesU] at tail
      exact tail
    subst outer
    refine ⟨inner, header, by rw [scopesU]; rfl, ?_, by rw [scopesU]; rfl⟩
    exact both.leave t₁ t₁.function u.function scopesU
  · obtain ⟨inner, header, scopes, inserts⟩ := inside
    exact (second.trans inserts).statement sees rfl _ fun n q frames all kind => by
      obtain ⟨⟨⟨spelled, _⟩, defines⟩, own, isBlock, items⟩ := all
      exact ⟨n, v, indexDef, m, block, inner, rfl, kind, defines, spelled, isBlock, header, own, items⟩

/-! Functions. -/

/-- The formals have been declared as `syms` in a scope of their own. -/
structure Takes (s : Lowering) (outer : List Scope) (formals : List Formal) (syms : List SymbolId)
    (t : Lowering) : Prop where
  adds : Adds s.program [] t.program
  scope : ∃ F, t.scopes = F :: outer ∧
    Mirrors t.program F (formals.map fun formal => (formal.name, .arg)) ∧
    List.Forall₂ (fun formal v => F.lookup formal.name = some v) formals syms

theorem formalSymbol_takes {formals : List Formal} {syms : List SymbolId}
    (takes : Takes s outer formals syms t) (formal : Formal) :
    Meets (formalSymbol span formal) t (Unbound []) fun v =>
      Takes s outer (formals ++ [formal]) (syms ++ [v]) := by
  refine Meets.bind (optionalTy_meets (fun _ => OfType.unbound) formal.ty) fun ty u same => ?_
  subst same
  refine Meets.build_bind (Meets.change_bind ?_)
  let sym : Symbol := { name := formal.name, kind := .arg formal.intent, ty := ty }
  have makes := (makes_addSymbol (s := u) sym).relabel
    (relabel_attachFlags (u.program.addSymbol sym).1 formal.flags)
  obtain ⟨F, scopes, mirrors, named⟩ := takes.scope
  refine Meets.bind (declare_meets (Q := fun _ => Takes s outer (formals ++ [formal]) (syms ++ [_]))
    (makes.scopes.trans scopes) nofun fun missing => ?_) fun _ _ done => Meets.pure done
  refine ⟨takes.adds.trans makes.adds, _, rfl, ?_, ?_⟩
  · rw [List.map_append]
    exact (mirrors.adds makes.adds).declare missing makes.known makes.sorted
  · refine List.rel_append (named.imp fun other v found => ?_) (.cons List.lookup_cons_self .nil)
    exact (Widens.cons missing).lookup _ _ found

theorem formalDefs_spell {formals : List Formal} {syms : List SymbolId} (scopes : List Scope)
    (named : List.Forall₂ (fun formal v => own? scopes formal.name = some v) formals syms)
    (sees : Sees s visible) (here : s.scopes = scopes) :
    Meets ((formals.zip syms).mapM (formalDef span)) s
      (Unbound ((formals.map (resolveFormal visible span)).flatMap fun formal =>
        Resolved.namingsOf? formal.2)) fun defs =>
      Inserts s fun q frames =>
        List.Forall₂ (SpellsFormal q frames) (formals.map (resolveFormal visible span)) defs := by
  induction named generalizing s with
  | nil => exact Meets.pure (Inserts.nothing.mono fun _ _ _ => .nil)
  | @cons formal v formals syms own rest ih =>
    show Meets (((formal, v) :: formals.zip syms).mapM (formalDef span)) s _ _
    rw [List.mapM_cons]
    refine Meets.bind (Q := fun d => Inserts s fun q frames =>
      SpellsFormal q frames (resolveFormal visible span formal) d) ?_ fun d t first => ?_
    · refine Meets.bind ((optionalExpr_spells sees span formal.default).within
        (List.subset_append_left _ _)) fun value t evaluated => ?_
      have start : Inserts s (fun _ frames => own? frames formal.name = some v) s := by
        refine ⟨.declaring widens_refl fun frames wider => own?_of_widens wider ?_, rfl⟩
        rw [here]
        exact own
      exact (start.trans evaluated).node_meets _ fun d q frames both kind =>
        ⟨v, value, kind, both.1, both.2⟩
    · refine Meets.bind ((ih (first.sees sees) (first.scopes.trans here)).within
        (List.subset_append_right _ _)) fun defs u others => Meets.pure ?_
      exact (first.trans others).mono fun q frames both => .cons both.1 both.2

theorem fn_writes (sees : Sees s visible) {name : String} {formals : List Formal}
    {ret : Option String} {retTag : RetTag} {flags : List Flag} {body : List Stmt}
    (foreseen : Foreseen visible (.fn span name formals ret retTag flags body))
    (appendable : Appendable (enterBlock
      (formals.map (fun formal => (formal.name, .arg)) :: visible) body) body) :
    Meets (stmt (.fn span name formals ret retTag flags body)) s
      (Unbound (resolveStmt visible (.fn span name formals ret retTag flags body)).namings)
      fun nodes => Writes s visible (.fn span name formals ret retTag flags body) nodes := by
  rw [stmt]
  refine Meets.bind ((declared_meets sees (foreseen.hoisted rfl)).within (List.nil_subset _))
    fun f s' found => ?_
  obtain ⟨rfl, own⟩ := found
  have declared : Builds s' [] (fun _ frames => own? frames name = some f) s' :=
    .declaring widens_refl fun frames wider => own?_of_widens wider own
  refine inFunction_meets (inScope_meets ?_)
  let start : Lowering := { s' with function := some f, scopes := [] :: s'.scopes }
  have empty : Takes start s'.scopes [] [] start := ⟨.refl, [], rfl, ⟨fun _ => rfl, nofun⟩, .nil⟩
  refine Meets.bind (Q := fun syms t => Takes start s'.scopes formals syms t)
    ((Meets.mapM (I := fun rest done t => ∃ before, formals = before ++ rest ∧
      Takes start s'.scopes before done t) [] ⟨[], rfl, empty⟩
      fun formal rest done t so => ?_).mono (fun syms t so => ?_) fun _ => id) fun syms t takes => ?_
  · obtain ⟨before, split, takes⟩ := so
    refine ((formalSymbol_takes takes formal).within (List.nil_subset _)).mono
      (fun v u next => ?_) fun _ => id
    exact ⟨before ++ [formal], by rw [split, List.append_assoc]; rfl, next⟩
  · obtain ⟨before, split, takes⟩ := so
    rw [split, List.append_nil]
    exact takes
  obtain ⟨F, scopes, mirrors, named⟩ := takes.scope
  have seesT : Sees t (formals.map (fun formal => (formal.name, .arg)) :: visible) := by
    unfold Sees
    rw [scopes]
    exact .cons mirrors (sees.imp fun _ _ mirrors => mirrors.adds takes.adds)
  refine Meets.bind ((formalDefs_spell (F :: s'.scopes) named seesT scopes).within
    (List.subset_append_left _ _)) fun defs u first => ?_
  refine Meets.bind ((inBlock_blocked (first.sees seesT) appendable).within
    (List.subset_append_right _ _)) fun block w blocked => ?_
  obtain ⟨inner, blocked⟩ := blocked
  refine Meets.bind (node_meets (.fnDef f defs block)) fun n x built => Meets.pure ?_
  have inside := (first.trans blocked.close).trans built
  have entered : Builds start [] (fun _ _ => True) t := by
    refine ⟨takes.adds, ?_, fun _ _ => trivial⟩
    rw [scopes]
    exact .cons ⟨List.nil_subset _, nofun⟩ widens_refl
  have scopesX : x.scopes = F :: s'.scopes := inside.scopes.trans scopes
  have left := (entered.trans inside.toBuilds).leave s' (some f) s'.function scopesX
  have tail : x.scopes.tail = s'.scopes := by rw [scopesX]; rfl
  refine ⟨(declared.trans left).mono fun q frames all => ?_, ?_, congrArg List.tail tail⟩
  · obtain ⟨own, _, ⟨formals, isBlock, body⟩, kind⟩ := all
    exact ⟨n, f, defs, block, inner, rfl, kind, own, F, formals, isBlock, body⟩
  · exact sees.adds left.adds tail

end Lower

end MiddleEnd.Surface
