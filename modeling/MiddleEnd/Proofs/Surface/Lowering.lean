import MiddleEnd.Proofs.Surface.Statements

namespace MiddleEnd.Surface

open Program

namespace Lower

variable {s t u : Lowering} {S S' : Scope} {outer : List Scope} {span : Span}

/-- What was built in a scope of its own, after that scope is left. -/
theorem Yields.leave {claimed names : List SymbolId} {trees : List NodeId} {scopes : List Scope}
    {function : Option SymbolId}
    (yields : Yields { s with scopes := scopes, function := function } claimed names trees t)
    (inner : t.scopes = S :: s.scopes) (around : Option SymbolId) :
    Yields s claimed names trees { t with scopes := t.scopes.tail, function := around } where
  ready :=
    { settled := yields.ready.settled
      valued := yields.ready.valued
      ordered := yields.ready.ordered
      known := fun v member => by
        refine yields.ready.known v ?_
        rw [inner] at member ⊢
        exact List.mem_append_right _ member }
  grows := yields.grows
  loose := yields.loose
  fresh := yields.fresh
  nodup := yields.nodup

/-! Loops over a range. -/

/-- The body of a loop sees the loop's index. -/
theorem indexed_ends (ready : Ready s) (index : String) {v : SymbolId}
    (known : v.index < s.program.symbols.size) {body : List Stmt} (lowers : Lowerable body) :
    Ends (inScope do
      declare index v span
      inBlock body span fun block => items body block) s fun block t =>
        Yields s [] (v :: declaredIn s.scopes) [block] t ∧ t.scopes = s.scopes ∧
        (t.program.kind block).isBlock = true := by
  refine inScope_ends ?_
  refine Ends.bind (declare_ends (Q := fun _ t => t = { s with scopes := [(index, v)] :: s.scopes })
    rfl fun _ => rfl) ?_
  rintro _ _ rfl
  have inner : Ready { s with scopes := [(index, v)] :: s.scopes } :=
    ready.enter.declare rfl index known
  refine (inBlock_ends inner lowers).mono fun block t blocks => ?_
  exact ⟨blocks.toYields.leave blocks.scopes t.function, by rw [blocks.scopes]; rfl, blocks.isBlock⟩

theorem forLoop_ends (ready : Ready s) (scopes : s.scopes = S :: outer) (index : String)
    (iterable : Expr) {body : List Stmt} (lowers : Lowerable body) :
    Ends (stmt (.forLoop span index iterable body)) s fun nodes t => ∃ S' defs,
      t.scopes = S' :: outer ∧ Lowers s S (.forLoop span index iterable body) nodes S' defs t := by
  rw [stmt]
  refine (expr_ends ready span iterable).bind fun n t evaluates => ?_
  refine Ends.build_bind (Ends.change_bind ?_)
  let sym : Symbol := { name := index, kind := .var, ty := .unknown }
  let v := (t.program.addSymbol sym).1
  have fresh : Fresh t .var v _ := (fresh_addSymbol evaluates.ready sym rfl rfl rfl).relabel
    (relabel_attachFlag v .indexVar)
  let names := declaredIn s.scopes ++ [v]
  have first := (evaluates.toYields.fresh_symbol fresh).mono (List.subset_append_left _ [v])
  have new (known : v.index < s.program.symbols.size) : v ∈ ([] : List SymbolId) := by
    have grown := evaluates.grows.symbols_le
    have late := fresh.new
    omega
  have bare (m : NodeId) (member : m ∈ (none : Option NodeId).toList) :
      (t.program.kind m).isExpr = true := by cases member
  refine (define_ends first [n] (.refl _) bare fresh.known fresh.sort_eq fresh.decl new
    (.inl rfl)).bind ?_
  rintro indexDef t₁ ⟨second, defined, scopes₁⟩
  have scopes₁ : t₁.scopes = s.scopes := scopes₁.trans evaluates.scopes
  have known₁ : v.index < t₁.program.symbols.size := defined.symbols_size ▸ fresh.known
  refine (indexed_ends second.ready index known₁ lowers).bind ?_
  rintro block t₂ ⟨third, scopes₂, isBlock⟩
  have wider : v :: declaredIn t₁.scopes ⊆ names := by
    rw [scopes₁]
    intro w member
    rcases List.mem_cons.mp member with rfl | member
    · exact List.mem_append_right _ (List.mem_singleton.mpr rfl)
    · exact List.mem_append_left _ member
  have whole := second.append (third.mono wider) (List.Subset.refl _)
    fun _ member => absurd member List.not_mem_nil
  have indexKind : t₂.program.kind indexDef = .define v none := by
    rw [third.kind_eq (second.loose indexDef List.mem_cons_self).live, defined.kind_id]
  have isIndex : t₂.program.Fits indexDef .index := by
    refine ⟨by rw [indexKind]; rfl, v, by rw [indexKind]; rfl, ?_⟩
    rw [third.grows.sort known₁, defined.symbol_kind]
    exact fresh.sort_eq
  have isExpr : (t₂.program.kind n).isExpr = true := by
    have live := (evaluates.loose n List.mem_cons_self).live
    have liveN := fresh.grows.live live
    rw [third.kind_eq (defined.live_of_live liveN), defined.kind_of_ne (defined.ne_of_live liveN),
      fresh.grows.kind live List.not_mem_nil]
    exact evaluates.expr n List.mem_cons_self
  refine (silent_ends whole [] (.refl _) rfl rfl rfl fun slot c member => ?_).bind ?_
  · simp only [NodeKind.slots, List.mem_cons, List.not_mem_nil, or_false] at member
    rcases member with same | same | same <;> cases same
    · exact isIndex
    · exact isExpr
    · exact isBlock
  · rintro id t₃ ⟨fourth, built, scopes₃⟩
    have same := (scopes₃.trans scopes₂).trans scopes₁
    refine Ends.pure (Lowers.plain scopes rfl (fourth.close fun w member => ?_) same)
    rcases List.mem_append.mp member with outside | isIndexVar
    · exact .inl outside
    · cases List.mem_singleton.mp isIndexVar
      have live := (whole.loose indexDef List.mem_cons_self).live
      refine .inr ⟨indexDef, ?_, ?_⟩
      · rw [children, built.kind_id]
        exact List.mem_cons_self
      · rw [built.kind_of_ne (built.ne_of_live live), indexKind]
        rfl

/-! Functions. -/

/-- The formals `syms` have been declared in a scope of their own. -/
structure Formals (s : Lowering) (outer : List Scope) (syms : List SymbolId) (t : Lowering) :
    Prop where
  ready : Ready t
  grows : Grows s.program [] [] t.program
  scopes : ∃ F, t.scopes = F :: outer ∧ ∀ v ∈ F.map Prod.snd, v ∈ syms
  distinct : syms.Nodup
  new : ∀ v ∈ syms, s.program.symbols.size ≤ v.index
  known : ∀ v ∈ syms, v.index < t.program.symbols.size
  sort_eq : ∀ v ∈ syms, (t.program.symbol v).kind.sort = .arg
  decl : ∀ v ∈ syms, (t.program.symbol v).decl = none

theorem formalSymbol_ends {syms : List SymbolId} (formals : Formals s outer syms t)
    (formal : Formal) :
    Ends (formalSymbol span formal) t fun v => Formals s outer (syms ++ [v]) := by
  refine (optionalTy_ends formal.ty).bind ?_
  rintro ty _ rfl
  refine Ends.build_bind (Ends.change_bind ?_)
  rename_i t
  let sym : Symbol := { name := formal.name, kind := .arg formal.intent, ty := ty }
  let v := (t.program.addSymbol sym).1
  have fresh : Fresh t .arg v _ := (fresh_addSymbol formals.ready sym rfl rfl rfl).relabel
    (relabel_attachFlags v formal.flags)
  obtain ⟨F, scopes, inside⟩ := formals.scopes
  have both {P : SymbolId → Prop} (old : ∀ w ∈ syms, P w) (added : P v) :
      ∀ w ∈ syms ++ [v], P w := by
    intro w member
    rcases List.mem_append.mp member with before | isNew
    · exact old w before
    · exact List.mem_singleton.mp isNew ▸ added
  have scopesU := fresh.scopes.trans scopes
  refine Ends.bind (declare_ends (Q := fun _ u => Formals s outer (syms ++ [v]) u) scopesU fun _ => ?_)
    fun _ u done => Ends.pure done
  exact
    { ready := fresh.ready.declare scopesU formal.name fresh.known
      grows := formals.grows.after fresh.grows
      scopes := by
        refine ⟨_, rfl, fun w member => ?_⟩
        rcases List.mem_cons.mp member with rfl | member
        · exact List.mem_append_right _ (List.mem_singleton.mpr rfl)
        · exact List.mem_append_left _ (inside w member)
      distinct := by
        refine List.nodup_append'.mpr ⟨formals.distinct, List.nodup_singleton v, fun w old isNew => ?_⟩
        cases List.mem_singleton.mp isNew
        exact absurd (formals.known v old) (Nat.not_lt.mpr fresh.new)
      new := both formals.new (formals.grows.symbols_le.trans fresh.new)
      known := both (fun w member => fresh.grows.known (formals.known w member)) fresh.known
      sort_eq := both (fun w member =>
        (fresh.grows.sort (formals.known w member)).trans (formals.sort_eq w member)) fresh.sort_eq
      decl := both (fun w member =>
        (fresh.grows.decl (formals.known w member) List.not_mem_nil).trans (formals.decl w member))
        fresh.decl }

theorem formalSymbols_ends (ready : Ready s) (scopes : s.scopes = [] :: outer)
    (formals : List Formal) :
    Ends (formals.mapM (formalSymbol span)) s fun syms t => Formals s outer syms t ∧
      syms.length = formals.length := by
  have start : Formals s outer [] s :=
    ⟨ready, .refl, ⟨[], scopes, nofun⟩, List.nodup_nil, nofun, nofun, nofun, nofun⟩
  refine (Ends.mapM (I := fun rest syms t => Formals s outer syms t ∧
    syms.length + rest.length = formals.length) [] ⟨start, Nat.zero_add _⟩ ?_).mono
    fun syms t done => ⟨done.1, done.2⟩
  rintro formal rest syms t ⟨before, count⟩
  refine (formalSymbol_ends before formal).mono fun v u after => ⟨after, ?_⟩
  rw [List.length_append, List.length_singleton]
  rw [List.length_cons] at count
  omega

/-- The definitions `trees` have been built, and the formals `rest` wait for theirs. -/
structure FormalTrees (s : Lowering) (names syms : List SymbolId) (scopes : List Scope)
    (rest : List SymbolId) (trees : List NodeId) (t : Lowering) : Prop where
  yields : Yields s [] names trees t
  scopes_eq : t.scopes = scopes
  fits : ∀ n ∈ trees, t.program.Fits n .formal
  distinct : rest.Nodup
  new : ∀ v ∈ rest, s.program.symbols.size ≤ v.index
  known : ∀ v ∈ rest, v.index < t.program.symbols.size
  sort_eq : ∀ v ∈ rest, (t.program.symbol v).kind.sort = .arg
  decl : ∀ v ∈ rest, (t.program.symbol v).decl = none
  defined : ∀ v ∈ syms, v ∈ rest ∨ ∃ n ∈ trees, (t.program.kind n).defines? = some v

theorem formalDef_ends {names syms rest : List SymbolId} {scopes : List Scope}
    {trees : List NodeId} {formal : Formal} {v : SymbolId}
    (before : FormalTrees s names syms scopes (v :: rest) trees t)
    (wider : declaredIn scopes ⊆ names) :
    Ends (formalDef span (formal, v)) t fun id =>
      FormalTrees s names syms scopes rest (trees ++ [id]) := by
  refine (optionalExpr_ends before.yields.ready span formal.default).bind
    fun value t₁ evaluates => ?_
  have isKnown := before.known v List.mem_cons_self
  have grows := evaluates.grows
  have first : Yields s [] names (trees ++ value.toList) t₁ :=
    before.yields.expr evaluates (before.scopes_eq ▸ wider)
  obtain ⟨fresh, distinct⟩ := List.nodup_cons.mp before.distinct
  refine (define_ends first trees List.perm_append_comm evaluates.expr (grows.known isKnown)
    ((grows.sort isKnown).trans (before.sort_eq v List.mem_cons_self))
    ((grows.decl isKnown List.not_mem_nil).trans (before.decl v List.mem_cons_self)) ?_
    (.inr (.inl rfl))).mono ?_
  · exact fun old => absurd old (Nat.not_lt.mpr (before.new v List.mem_cons_self))
  rintro id t₂ ⟨second, built, scopes₂⟩
  have later (w : SymbolId) (member : w ∈ rest) := List.mem_cons_of_mem v member
  have kinds {n : NodeId} (member : n ∈ trees) : t₂.program.kind n = t.program.kind n := by
    have live := (before.yields.loose n member).live
    rw [built.kind_of_ne (built.ne_of_live (grows.live live)), evaluates.kind_eq live]
  have sorts {w : SymbolId} (known : w.index < t.program.symbols.size) :
      (t₂.program.symbol w).kind.sort = (t.program.symbol w).kind.sort := by
    rw [built.symbol_kind, grows.sort known]
  exact
    { yields := second.perm (List.perm_append_singleton _ _).symm
      scopes_eq := scopes₂.trans (evaluates.scopes.trans before.scopes_eq)
      fits := fun n member => by
        rcases List.mem_append.mp member with old | isNew
        · obtain ⟨tag, w, defines, sorted⟩ := before.fits n old
          have known := before.yields.ready.settled.sound.bound_known defines
          exact ⟨by rw [kinds old, tag], w, by rw [kinds old, defines], by rw [sorts known, sorted]⟩
        · cases List.mem_singleton.mp isNew
          refine ⟨by rw [built.kind_id]; rfl, v, by rw [built.kind_id]; rfl, ?_⟩
          rw [sorts isKnown, before.sort_eq v List.mem_cons_self]
      distinct := distinct
      new := fun w member => before.new w (later w member)
      known := fun w member => built.symbols_size ▸ grows.known (before.known w (later w member))
      sort_eq := fun w member => by
        rw [sorts (before.known w (later w member)), before.sort_eq w (later w member)]
      decl := fun w member => by
        have other : (NodeKind.define v value).defines? ≠ some w := by
          rintro ⟨⟩
          exact fresh member
        rw [built.decl_eq, if_neg other,
          grows.decl (before.known w (later w member)) List.not_mem_nil,
          before.decl w (later w member)]
      defined := fun w member => by
        rcases before.defined w member with waiting | ⟨n, built', defines⟩
        · rcases List.mem_cons.mp waiting with rfl | waiting
          · exact .inr ⟨id, by simp, by rw [built.kind_id]; rfl⟩
          · exact .inl waiting
        · exact .inr ⟨n, List.mem_append_left _ built', by rw [kinds built', defines]⟩ }

theorem formalDefs_ends {syms : List SymbolId} {formals : List Formal}
    (declared : Formals s outer syms t) (count : syms.length = formals.length) :
    Ends ((formals.zip syms).mapM (formalDef span)) t fun trees =>
      FormalTrees s (declaredIn t.scopes) syms t.scopes [] trees := by
  have all : (formals.zip syms).map Prod.snd = syms := List.map_snd_zip (Nat.le_of_eq count)
  have start : FormalTrees s (declaredIn t.scopes) syms t.scopes syms [] t :=
    { yields := ⟨declared.ready, declared.grows, nofun, nofun, List.nodup_nil⟩
      scopes_eq := rfl
      fits := nofun
      distinct := declared.distinct
      new := declared.new
      known := declared.known
      sort_eq := declared.sort_eq
      decl := declared.decl
      defined := fun _ => .inl }
  refine (Ends.mapM (I := fun rest => FormalTrees s (declaredIn t.scopes) syms t.scopes
    (rest.map Prod.snd)) [] (by rwa [all]) ?_).mono fun trees u done => done
  rintro ⟨formal, v⟩ rest trees u before
  exact formalDef_ends before (List.Subset.refl _)

/-- The definition over its formals and its body. -/
theorem fnDef_ends {f : SymbolId} {syms : List SymbolId} {names : List SymbolId}
    {scopes : List Scope} {trees : List NodeId} {body : NodeId}
    (formals : FormalTrees s names syms scopes [] trees t) (blocks : Blocks t body u)
    (wider : declaredIn scopes ⊆ names) (known : f.index < s.program.symbols.size)
    (sorted : (s.program.symbol f).kind.sort = .fn) (decl : (s.program.symbol f).decl = none) :
    Ends (node (.fnDef f trees body) span) u fun id w => Yields s [f] names [id] w ∧
      w.scopes = scopes ∧ (w.program.kind id).defines? = some f ∧
      ∀ v ∈ syms, ∃ c ∈ w.program.children id, (w.program.kind c).defines? = some v := by
  have whole : Yields s [] names (trees ++ [body]) u :=
    formals.yields.append (blocks.toYields.mono (formals.scopes_eq ▸ wider)) (List.Subset.refl _) nofun
  have grows := whole.grows
  have claims : Yields s [f] names (trees ++ [body]) u :=
    { whole with grows := grows.shrink nofun nofun }
  have kinds {n : NodeId} (member : n ∈ trees) : u.program.kind n = t.program.kind n :=
    blocks.kind_eq (formals.yields.loose n member).live
  have lawful : u.program.Lawful (.fnDef f trees body) :=
    { fits := fun {slot c} member => by
        rcases List.mem_append.mp member with isFormal | isBody
        · obtain ⟨n, child, same⟩ := List.mem_map.mp isFormal
          cases same
          obtain ⟨tag, v, defines, sortedV⟩ := formals.fits c child
          have knownV := formals.yields.ready.settled.sound.bound_known defines
          refine ⟨by rw [kinds child, tag], v, by rw [kinds child, defines], ?_⟩
          rw [blocks.grows.sort knownV, sortedV]
        · cases List.mem_singleton.mp isBody
          exact blocks.isBlock
      defines_known := fun defines => by cases defines; exact grows.known known
      defines_fn := fun defines => by
        cases defines
        rw [grows.sort known, sorted]
        exact iff_of_true rfl rfl
      defines_local := fun defines => by
        cases defines
        rw [grows.sort known, sorted]
        exact nofun
      ref_value := nofun
      callee_fn := nofun }
  refine (node_ends claims [] ?_ lawful ?_ ?_ nofun).mono ?_
  · rw [List.append_nil]
    exact .refl _
  · rintro v (named | named) <;> cases named
  · intro v defines
    cases defines
    exact ⟨(grows.decl known List.not_mem_nil).trans decl, fun _ => List.mem_singleton.mpr rfl⟩
  · rintro id w ⟨done, built, kept⟩
    refine ⟨done, kept.trans (blocks.scopes.trans formals.scopes_eq), by rw [built.kind_id]; rfl, ?_⟩
    intro v member
    obtain ⟨n, child, defines⟩ := (formals.defined v member).resolve_left List.not_mem_nil
    refine ⟨n, ?_, ?_⟩
    · rw [children, built.kind_id]
      exact List.mem_append_left _ child
    · have live := blocks.grows.live (formals.yields.loose n child).live
      rw [built.kind_of_ne (built.ne_of_live live), kinds child, defines]

theorem fn_ends (ready : Ready s) (scopes : s.scopes = S :: outer) (name : String)
    (formals : List Formal) (ret : Option String) (retTag : RetTag) (flags : List Flag)
    {body : List Stmt} (announced : Announced s.program S (.fn span name formals ret retTag flags body))
    (lowers : Lowerable body) :
    Ends (stmt (.fn span name formals ret retTag flags body)) s fun nodes t => ∃ S' defs,
      t.scopes = S' :: outer ∧
        Lowers s S (.fn span name formals ret retTag flags body) nodes S' defs t := by
  rw [stmt]
  refine (declared_ends announced rfl scopes).bind ?_
  rintro f _ ⟨rfl, own, known, sorted, decl⟩
  refine inFunction_ends (inScope_ends ?_)
  have inner : Ready { s with scopes := [] :: s.scopes, function := some f } :=
    ⟨ready.settled, ready.valued, ready.ordered, ready.known⟩
  refine (formalSymbols_ends inner rfl formals).bind ?_
  rintro syms t ⟨declared, count⟩
  refine (formalDefs_ends declared count).bind fun trees t₁ built => ?_
  refine (inBlock_ends built.yields.ready lowers).bind fun block t₂ blocks => ?_
  refine (fnDef_ends built blocks (List.Subset.refl _) known sorted decl).bind ?_
  rintro id t₃ ⟨yields, scopes₃, defines, defined⟩
  obtain ⟨F, scopesT, inside⟩ := declared.scopes
  have closed : Yields _ [f] (declaredIn s.scopes ++ [f]) [id] t₃ := yields.close fun v member => by
    rw [scopesT] at member
    rcases List.mem_append.mp member with isFormal | around
    · exact .inr (defined v (inside v isFormal))
    · exact .inl (List.mem_append_left _ around)
  have left := closed.leave (scopes₃.trans scopesT) s.function
  have popped : t₃.scopes.tail = s.scopes := by rw [scopes₃, scopesT]; rfl
  refine Ends.pure ⟨S, [f], popped.trans scopes, ?_⟩
  exact
    { yields := by
        rw [own]
        show Yields s [f] (declaredIn t₃.scopes.tail ++ [f]) [id] _
        rw [popped]
        exact popped ▸ left
      widens := .refl
      declared := fun _ => .inl
      own := fun w found => by
        cases Option.some.inj (own.symm.trans found)
        exact List.mem_singleton.mpr rfl
      defined := fun w member => by
        cases List.mem_singleton.mp member
        exact ⟨id, List.mem_cons_self, defines⟩ }

/-! All statements. -/

mutual

theorem stmt_ends {s : Lowering} {S : Scope} {outer : List Scope} (ready : Ready s)
    (scopes : s.scopes = S :: outer) (st : Stmt) (announced : Announced s.program S st) :
    Ends (stmt st) s fun nodes t => ∃ S' defs, t.scopes = S' :: outer ∧
      Lowers s S st nodes S' defs t := by
  cases st with
  | var span name tyText init flags => exact var_ends ready scopes name tyText init flags
  | type span name => exact type_ends ready scopes name announced
  | fn span name formals ret retTag flags body =>
    exact fn_ends ready scopes name formals ret retTag flags announced (items_ends body)
  | assign span target value => exact assign_ends ready scopes target value
  | cond span test thenBody elseBody =>
    cases elseBody with
    | none => exact cond_ends ready scopes test (items_ends thenBody)
    | some elseBody =>
      exact condElse_ends ready scopes test (items_ends thenBody) (items_ends elseBody)
  | loop span test body testFirst => exact loop_ends ready scopes test testFirst (items_ends body)
  | forLoop span index iterable body =>
    exact forLoop_ends ready scopes index iterable (items_ends body)
  | ret span value => exact ret_ends ready scopes value
  | brk span | cont span | label span name | goto span name =>
    rw [stmt]
    exact leaf_ends ready scopes rfl rfl rfl rfl rfl
  | expr span e =>
    refine (exprStmt_ends ready span e).mono fun nodes t evaluates => ?_
    exact Lowers.plain scopes rfl evaluates.toYields evaluates.scopes

theorem items_ends (body : List Stmt) : Lowerable body := by
  intro s block S outer filling
  cases body with
  | nil =>
    rw [items]
    exact Ends.pure ⟨.refl, S, filling⟩
  | cons st rest =>
    rw [items]
    refine (stmt_ends filling.ready filling.scopes st
      (filling.hoisted.announced st List.mem_cons_self)).bind ?_
    rintro nodes t ⟨S', defs, scopes, lowers⟩
    have fillable : Fillable t.program block (declaredIn t.scopes ++ defs) := by
      refine (filling.fillable.grow lowers.yields.grows filling.ready.forest
        lowers.yields.ready.forest).mono fun v member => List.mem_append_left _ ?_
      rw [filling.scopes] at member
      rw [scopes]
      rcases List.mem_append.mp member with inner | around
      · exact List.mem_append_left _ (List.map_subset _ lowers.widens.subset inner)
      · exact List.mem_append_right _ around
    refine (appendAll_ends lowers.yields.ready fillable lowers.yields.loose lowers.yields.nodup
      ?_).bind fun _ u puts => ?_
    · exact fun member => lowers.yields.fresh block member filling.fillable.live
    obtain ⟨grows, next, symbols⟩ := filling.next scopes lowers puts
    exact (items_ends rest next).mono fun _ w => Fills.step grows symbols

end

/-! Modules. -/

/-- What holds between two modules: no scope is open, and every name is visible. -/
structure Between (s : Lowering) : Prop where
  ready : Ready s
  scopes : s.scopes = []
  bound : ∀ r ∈ s.program.roots, s.program.Bound r []

theorem addModule_keeps (p : Program) (name : String) (span : Span) :
    Keeps p [] (p.addModule name span).2 := by
  have nodes {n : NodeId} (live : p.Live n) : (p.addModule name span).2.node n = p.node n := by
    have other : n ≠ ⟨p.nodes.size⟩ := by
      rintro rfl
      exact Nat.lt_irrefl _ live.known
    exact (node_addRoot _ _ _).trans (if_neg other)
  exact
    { live := fun live => by rwa [Live, nodes live]
      head := fun live => by
        have same : (p.addModule name span).2.kind _ = p.kind _ := congrArg Node.kind (nodes live)
        rw [same]
        exact .refl _
      kind := fun live _ => congrArg Node.kind (nodes live)
      owner := fun live link => by rwa [parent?, nodes live]
      parent := fun live _ => by rw [parent?, nodes live, parent?] }

theorem moduleBlock?_addModule (p : Program) (name : String) (span : Span) :
    (p.addModule name span).2.moduleBlock? (p.addModule name span).1 = some ⟨p.nodes.size⟩ := by
  let sym : Symbol := { name := name, kind := .moduleRoot ⟨p.nodes.size⟩, ty := .void }
  have found : (p.addModule name span).2.symbol (p.addModule name span).1 = sym := by
    exact (symbol_addSymbol sym _).trans (if_pos rfl)
  rw [Program.moduleBlock?, found]
  rfl

theorem roots_addModule {p : Program} (rooted : p.Rooted) (name : String) (span : Span) :
    (p.addModule name span).2.roots = p.roots ++ [⟨p.nodes.size⟩] := by
  let sym : Symbol := { name := name, kind := .moduleRoot ⟨p.nodes.size⟩, ty := .void }
  have old : p.modules.filterMap (p.addModule name span).2.moduleBlock? = p.roots := by
    refine List.filterMap_congr fun m member => ?_
    have same : (p.addModule name span).2.symbol m = p.symbol m :=
      symbol_addSymbol_of_known sym (rooted.known_of_module member)
    rw [Program.moduleBlock?, same, Program.moduleBlock?]
  have last : [(p.addModule name span).1].filterMap (p.addModule name span).2.moduleBlock? =
      [⟨p.nodes.size⟩] := by
    rw [List.filterMap_cons_some (moduleBlock?_addModule p name span), List.filterMap_nil]
  have modules : (p.addModule name span).2.modules = p.modules ++ [(p.addModule name span).1] := rfl
  rw [Program.roots, modules, List.filterMap_append, old, last]

/-- A new module comes to the end of the registries, and its root holds nothing yet. -/
theorem ordered_addModule (ready : Ready s) (name : String) (span : Span) :
    (s.program.addModule name span).2.Ordered := by
  let p := s.program
  let q := (p.addModule name span).2
  let m := (p.addModule name span).1
  let root : NodeId := ⟨p.nodes.size⟩
  let sym : Symbol := { name := name, kind := .moduleRoot root, ty := .void }
  have sound := ready.settled.sound
  have forestQ := (sound.addModule name span).forest
  have keeps := addModule_keeps p name span
  have symbol {v : SymbolId} (known : v.index < p.symbols.size) : q.symbol v = p.symbol v :=
    symbol_addSymbol_of_known sym known
  have node : q.node root = _ := (node_addRoot _ _ _).trans (if_pos rfl)
  have kindRoot : q.kind root = .block [] := by rw [kind, node]
  have single : q.preorder root = [root] := by
    rw [forestQ.preorder_eq, if_pos (by rw [node]), children, kindRoot]
    rfl
  have others : p.roots.flatMap q.preorder = p.roots.flatMap p.preorder :=
    List.flatMap_congr fun r member =>
      keeps.preorder sound.forest forestQ (sound.rooted.live_of_root member) fun _ listed =>
        absurd listed List.not_mem_nil
  have modules : q.modules.foldl (fun r m => r.addSymbol m (q.symbol m).kind) {} =
      (p.modules.foldl (fun r m => r.addSymbol m (p.symbol m).kind) ({} : Registries)).addSymbol m
        (.moduleRoot root) := by
    have listed : q.modules = p.modules ++ [m] := rfl
    have own : (q.symbol m).kind = .moduleRoot root := by
      rw [show q.symbol m = sym from (symbol_addSymbol sym _).trans (if_pos rfl)]
    rw [listed, List.foldl_append, List.foldl_cons, List.foldl_nil, own]
    refine congrArg (fun r => Registries.addSymbol r m (.moduleRoot root))
      (List.foldl_ext _ _ _ fun r v member => ?_)
    rw [symbol (sound.rooted.known_of_module member)]
  have entered (r : Registries) : (p.roots.flatMap p.preorder).foldl q.enter r =
      (p.roots.flatMap p.preorder).foldl p.enter r :=
    foldl_enter_congr (fun n member => keeps.head (sound.live_of_traversal member))
      (fun n _ v defines => by rw [symbol (sound.bound_known defines)]) r
  have empty (r : Registries) : q.enter r root = r := by
    rw [enter, kindRoot]
    rfl
  have registries : q.registries = p.registries.addSymbol m (.moduleRoot root) := rfl
  show q.registries = q.computeRegistries
  rw [computeRegistries, registries, ready.ordered, computeRegistries,
    show q.roots = _ from roots_addModule sound.rooted name span, List.flatMap_append, others,
    List.flatMap_singleton, single, List.foldl_append, List.foldl_cons, List.foldl_nil, empty,
    modules, entered, foldl_enter_addSymbol]
  intro n member v defines isModule
  have lawful := ready.settled.lawful (sound.live_of_traversal member)
  exact absurd isModule (lawful.defines_local defines)

theorem valued_addModule (ready : Ready s) (name : String) (span : Span) :
    (s.program.addModule name span).2.Valued := by
  intro n v value live equal
  let sym : Symbol := { name := name, kind := .moduleRoot ⟨s.program.nodes.size⟩, ty := .void }
  have node : (s.program.addModule name span).2.node n = _ := node_addRoot _ _ n
  rw [kind, node] at equal
  rw [Live, node] at live
  split at equal
  · cases equal
  · rename_i old
    rw [if_neg old] at live
    have known := (ready.settled.lawful live).defines_known (s := v) (by
      show (s.program.node n).kind.defines? = some v
      exact congrArg NodeKind.defines? equal)
    have same : (s.program.addModule name span).2.symbol v = s.program.symbol v :=
      symbol_addSymbol_of_known sym known
    rw [same]
    exact ready.valued n v value live equal

/-- A new module, before its first statement. -/
theorem addModule_filling (between : Between s) (m : ModuleTree) {S : Scope} {t : Lowering}
    (hoists : Hoists { s with
      program := (s.program.addModule m.name m.span).2, scopes := [] :: s.scopes } [] m.items S t) :
    Filling t ⟨s.program.nodes.size⟩ S [] m.items := by
  let q := (s.program.addModule m.name m.span).2
  have settled := between.ready.settled.addModule m.name m.span
  have node : q.node ⟨s.program.nodes.size⟩ = _ := (node_addRoot _ _ _).trans (if_pos rfl)
  have live : q.Live ⟨s.program.nodes.size⟩ := by rw [Live, node]
  have kind : q.kind ⟨s.program.nodes.size⟩ = .block [] := by rw [Program.kind, node]
  have keeps := hoists.grows.toKeeps
  have bound : q.Bound ⟨s.program.nodes.size⟩ [] := by
    intro n v liveN above names
    by_cases same : ⟨s.program.nodes.size⟩ = n
    · rw [← same, kind] at names
      rcases names with named | named <;> cases named
    · obtain ⟨c, child, _⟩ := settled.sound.forest.child_above above liveN same
      rw [children, kind] at child
      cases child
  exact
    { ready := hoists.ready
      scopes := hoists.scopes
      fillable :=
        { live := keeps.live live
          isBlock := by
            rw [keeps.kind live List.not_mem_nil]
            exact congrArg NodeKind.isBlock kind
          top := by
            rw [keeps.parent live List.not_mem_nil]
            exact congrArg Node.parent node
          last := fun _ => by
            rw [hoists.grows.roots]
            show (s.program.addModule m.name m.span).2.roots.getLast? = _
            rw [roots_addModule between.ready.settled.sound.rooted]
            exact List.getLast?_concat
          bound := (keeps.bound settled.sound.forest hoists.ready.forest live
            (fun _ member => absurd member List.not_mem_nil) bound).mono
            (List.nil_subset _) }
      hoisted := hoists.hoisted
      defined := fun v member => .inl (hoists.own v member) }

theorem moduleTree_ends (between : Between s) (m : ModuleTree) :
    Ends (moduleTree m) s fun _ => Between := by
  refine Ends.build_bind (Ends.get_bind ?_)
  let root : NodeId := ⟨s.program.nodes.size⟩
  have settled := between.ready.settled.addModule m.name m.span
  have keepsModule := addModule_keeps s.program m.name m.span
  rw [moduleBlock?_addModule]
  refine inScope_ends ?_
  have ready : Ready { s with
      program := (s.program.addModule m.name m.span).2, scopes := [] :: s.scopes } :=
    { settled := settled
      valued := valued_addModule between.ready m.name m.span
      ordered := ordered_addModule between.ready m.name m.span
      known := fun v member => by
        have none : v ∈ declaredIn s.scopes := member
        rw [between.scopes] at none
        cases none }
  refine (hoist_ends ready (by rw [between.scopes]) m.items).bind ?_
  rintro _ t ⟨S, hoists⟩
  have filling := addModule_filling between m hoists
  refine (items_ends m.items filling).mono ?_
  rintro _ u ⟨grows, S', filled⟩
  refine ⟨filled.ready_outer, by rw [filled.scopes]; rfl, fun r isRoot => ?_⟩
  rw [grows.roots, hoists.grows.roots] at isRoot
  rw [roots_addModule between.ready.settled.sound.rooted] at isRoot
  rcases List.mem_append.mp isRoot with old | new
  · have liveR := between.ready.settled.sound.rooted.live_of_root old
    have first := keepsModule.bound between.ready.forest settled.sound.forest liveR nofun
      (between.bound r old)
    have second := hoists.grows.bound settled.sound.forest hoists.ready.forest
      (keepsModule.live liveR) nofun first
    refine grows.bound hoists.ready.forest filled.ready.forest
      (hoists.grows.live (keepsModule.live liveR)) (fun n member above => ?_) second
    -- The new root is at the top, so no other root is above it.
    cases List.mem_singleton.mp member
    cases above.eq_of_top filling.fillable.top
    exact Nat.lt_irrefl _ liveR.known
  · cases List.mem_singleton.mp new
    exact filled.bound_outer

/-- Once no scope is open, every name of a program is visible where it stands. -/
theorem Between.lexical (between : Between s) : s.program.Lexical := by
  have seen {n : NodeId} {v : SymbolId} (reached : s.program.Reached n)
      (names : (s.program.kind n).Names v) : s.program.Visible n v := by
    obtain ⟨live, r, root, above⟩ := between.ready.settled.sound.reached_iff.mp reached
    exact (between.bound r root n v live above names).resolve_right List.not_mem_nil
  exact ⟨fun reached ref => seen reached (.inl ref), fun reached callee => .inl (seen reached (.inr callee))⟩

end Lower

/-- Lowering ends between two modules, or it refuses the program for a reason that is never the
arena's. -/
theorem ProgramTree.lower_spec (tree : ProgramTree) :
    match tree.lower with
    | .ok p => ∃ s, Lower.Between s ∧ s.program = p
    | .error e => ∀ fault, e ≠ .arena fault := by
  have start : Lower.Between {} :=
    { ready := ⟨Settled.empty, fun n v value live => absurd live.known (Nat.not_lt_zero _), rfl, nofun⟩
      scopes := rfl
      bound := nofun }
  have ends : Lower.Ends (tree.modules.forM Lower.moduleTree) {} fun _ => Lower.Between :=
    Lower.Ends.forM (I := fun _ => Lower.Between) start fun m _ s between =>
      Lower.moduleTree_ends between m
  unfold Lower.Ends at ends
  rw [lower, StateT.run]
  cases result : tree.modules.forM Lower.moduleTree {} with
  | error e =>
    rw [result] at ends
    exact ends
  | ok pair =>
    rw [result] at ends
    exact ⟨pair.2, ends, rfl⟩

/-- What lowering makes is a tidy program in which every name is visible where it stands, and only
variables and formals are defined with a value. -/
theorem ProgramTree.lowered {tree : ProgramTree} {p : Program} (lowered : tree.lower = .ok p) :
    p.Settled ∧ p.Lexical ∧ p.Valued := by
  have spec := tree.lower_spec
  rw [lowered] at spec
  obtain ⟨s, between, rfl⟩ := spec
  exact ⟨between.ready.settled, between.lexical, between.ready.valued⟩

/-- A function with two functions inside: one stores its formal in its variable, and the other calls
the first. -/
def nestedTree : ProgramTree where
  modules := [{ name := "main", items := [
    .fn .nowhere "outer" [{ name := "x", ty := some "int" }] none .value [] [
      .var .nowhere "y" (some "int") none [],
      .fn .nowhere "store" [] none .value [] [.assign .nowhere (.name "y") (.name "x")],
      .fn .nowhere "relay" [] none .value [] [.expr .nowhere (.call "store" [])],
      .expr .nowhere (.call "relay" [])]] }]

theorem ProgramTree.lower_eq_ok {tree : ProgramTree} (success : tree.lower.toOption.isSome = true) :
    tree.lower = .ok (tree.lower.toOption.getD .empty) := by
  cases result : tree.lower with
  | ok p => rfl
  | error e =>
    rw [result] at success
    cases success

@[irreducible] def nestedProgram : Program := nestedTree.lower.toOption.getD .empty

theorem nestedTree_lowers : nestedTree.lower = .ok nestedProgram := by
  unfold nestedProgram
  exact ProgramTree.lower_eq_ok (by decide +kernel)

/-- A function with a loop from whose body one jump leads out and another back to the test. -/
def jumpingTree : ProgramTree where
  modules := [{ name := "main", items := [
    .fn .nowhere "count" [{ name := "n", ty := some "int" }] none .value [] [
      .var .nowhere "i" (some "int") (some (.int 0)) [],
      .label .nowhere "again",
      .loop .nowhere (.prim .lt [.name "i", .name "n"]) [
        .assign .nowhere (.name "i") (.prim .add [.name "i", .int 1]),
        .cond .nowhere (.prim .eq [.name "i", .int 3]) [.goto .nowhere "again"]
          (some [.cont .nowhere])] true,
      .assign .nowhere (.name "i") (.int 0)]] }]

@[irreducible] def jumpingProgram : Program := jumpingTree.lower.toOption.getD .empty

theorem jumpingTree_lowers : jumpingTree.lower = .ok jumpingProgram := by
  unfold jumpingProgram
  exact ProgramTree.lower_eq_ok (by decide +kernel)

end MiddleEnd.Surface
