import MiddleEnd.Check.Returns
import MiddleEnd.Proofs.Surface.Blocks

namespace MiddleEnd.Surface.Lower

open Program

variable {s t u : Lowering} {S S' : Scope} {outer : List Scope} {span : Span}

/-! Definitions. -/

section

variable {claimed names : List SymbolId} {trees : List NodeId} {sort : SymbolSort} {v : SymbolId}

theorem Yields.fresh_symbol (yields : Yields s claimed names trees t) (fresh : Fresh t sort v u) :
    Yields s claimed names trees u := by
  have next : Yields t [] names [] u := ⟨fresh.ready, fresh.grows, nofun, nofun, List.nodup_nil⟩
  simpa using yields.append next (List.Subset.refl _) nofun

theorem Yields.rescope (yields : Yields s claimed names trees t) {scopes : List Scope}
    (ready : Ready { t with scopes := scopes }) :
    Yields s claimed names trees { t with scopes := scopes } :=
  { yields with ready := ready }

/-- Marking the variable of the return value only says more of the function around. -/
theorem bindReturnVar_meets {E : LowerError → Prop} (twice : ∀ f, E (.duplicateReturnVar f span)) :
    Meets (bindReturnVar v span) s E fun _ t =>
      ∃ q, t = { s with program := q } ∧ Relabel s.program q ∧ ∀ g u, Check.retVar? q g = some u →
        Check.retVar? s.program g = some u ∨ u = v ∧ s.function = some g := by
  refine Meets.get_bind ?_
  split
  · exact Meets.pure ⟨_, rfl, .refl, fun _ _ => .inl⟩
  · rename_i f function
    split
    · exact Meets.pure ⟨_, rfl, .refl, fun _ _ => .inl⟩
    · split
      · exact Meets.throw (twice _)
      · refine ⟨_, rfl, relabel_modifySymbol _ _ ?_ ?_ ?_ ?_ ?_, fun g u isRet => ?_⟩
        rotate_right
        · rw [Check.retVar?, symbol_modifySymbol] at isRet
          split at isRet
          · rename_i here
            refine .inr ⟨?_, here.1 ▸ function⟩
            cases kind : (s.program.symbol g).kind <;>
              simp_all [Symbol.mapFnData, Symbol.fnData?]
          · exact .inl isRet
        all_goals
          intro sym
          cases kind : sym.kind <;>
            simp [Symbol.mapFnData, kind, SymbolKind.sort, Symbol.moduleBlock?, Symbol.callers,
              Symbol.fnData?]

theorem bindReturnVar_ends (fresh : Fresh s sort v t) :
    Ends (bindReturnVar v span) t fun _ u => Fresh s sort v u := by
  refine Ends.mono (bindReturnVar_meets fun _ _ => nofun) fun _ u changed => ?_
  obtain ⟨q, rfl, change, _⟩ := changed
  exact fresh.relabel change

/-- Builds the definition of a symbol that waits for it. -/
theorem define_ends {value : Option NodeId} (yields : Yields s claimed names trees t)
    (rest : List NodeId) (children : trees.Perm (value.toList ++ rest))
    (expr : ∀ n ∈ value.toList, (t.program.kind n).isExpr = true)
    (known : v.index < t.program.symbols.size) (sorted : (t.program.symbol v).kind.sort = sort)
    (decl : (t.program.symbol v).decl = none) (new : v.index < s.program.symbols.size → v ∈ claimed)
    (suits : sort = .var ∨ sort = .arg ∨ sort = .type ∧ value = none) :
    Ends (build (·.addDefinition v value span)) t fun id u => Yields s claimed names (id :: rest) u ∧
      Built t.program (.define v value) id u.program ∧ u.scopes = t.scopes := by
  have lawful : t.program.Lawful (.define v value) :=
    { fits := fun {slot c} member => by
        obtain ⟨d, child, same⟩ := List.mem_map.mp member
        cases same
        exact expr c child
      defines_known := fun defines => by cases defines; exact known
      defines_fn := fun defines => by
        cases defines
        rw [sorted]
        refine iff_of_false Bool.false_ne_true ?_
        rcases suits with rfl | rfl | ⟨rfl, _⟩ <;> exact nofun
      defines_local := fun defines => by
        cases defines
        rw [sorted]
        rcases suits with rfl | rfl | ⟨rfl, _⟩ <;> exact nofun
      ref_value := nofun
      callee_fn := nofun }
  refine node_ends yields rest children lawful ?_ ?_ ?_
  · rintro w (named | named) <;> cases named
  · intro w defines
    cases defines
    exact ⟨decl, new⟩
  · intro w tree same
    cases same
    rw [Symbol.isValue_iff, sorted]
    rcases suits with rfl | rfl | ⟨_, missing⟩
    · exact .inl rfl
    · exact .inr rfl
    · cases missing

end

/-- A statement that declares nothing. -/
theorem Lowers.plain {st : Stmt} {nodes : List NodeId} (scopes : s.scopes = S :: outer)
    (silent : st.hoists? = none) (yields : Yields s [] (declaredIn s.scopes) nodes t)
    (same : t.scopes = s.scopes) :
    ∃ S' defs, t.scopes = S' :: outer ∧ Lowers s S st nodes S' defs t := by
  have own : ownSymbol? S st = none := by rw [ownSymbol?, silent]; rfl
  refine ⟨S, [], same.trans scopes, ?_⟩
  exact
    { yields := by
        rw [own, same, List.append_nil]
        exact yields
      widens := .refl
      declared := fun _ => .inl
      own := fun v found => by
        rw [own] at found
        cases found
      defined := fun _ member => absurd member List.not_mem_nil }

/-- Declares a new variable and defines it. -/
theorem declared_var_ends {st : Stmt} (silent : st.hoists? = none) (scopes : s.scopes = S :: outer)
    {value : Option NodeId} (evaluates : Evaluates s value.toList t) {v : SymbolId}
    (fresh : Fresh t .var v u) (name : String) :
    Ends (do declare name v span; pure [← build (·.addDefinition v value span)]) u fun nodes w =>
      ∃ S' defs, w.scopes = S' :: outer ∧ Lowers s S st nodes S' defs w := by
  have own : ownSymbol? S st = none := by rw [ownSymbol?, silent]; rfl
  have scopesU : u.scopes = S :: outer := (fresh.scopes.trans evaluates.scopes).trans scopes
  refine Ends.bind (declare_ends (Q := fun _ w => S.lookup name = none ∧
    w = { u with scopes := ((name, v) :: S) :: outer }) scopesU fun missing => ⟨missing, rfl⟩) ?_
  rintro _ _ ⟨missing, rfl⟩
  have yields := (evaluates.toYields.fresh_symbol fresh).rescope
    (fresh.ready.declare scopesU name fresh.known)
  have wider : declaredIn s.scopes ⊆ declaredIn (((name, v) :: S) :: outer) ++ [v] := by
    rw [scopes]
    exact fun w member => List.mem_append_left _ (List.mem_cons_of_mem _ member)
  have expr (n : NodeId) (member : n ∈ value.toList) : (u.program.kind n).isExpr = true := by
    rw [fresh.grows.kind (evaluates.loose n member).live List.not_mem_nil]
    exact evaluates.expr n member
  have alone : value.toList.Perm (value.toList ++ []) := by rw [List.append_nil]
  refine (define_ends (yields.mono wider) [] alone expr fresh.known fresh.sort_eq fresh.decl
    (fun known => ?_) (.inl rfl)).bind ?_
  · have grown := evaluates.grows.symbols_le
    have new := fresh.new
    omega
  · rintro id w ⟨built, node, same⟩
    refine Ends.pure ⟨(name, v) :: S, [v], same, ?_⟩
    exact
      { yields := by
          rw [own, same]
          exact built
        widens := .cons missing
        declared := fun w member => by
          rcases List.mem_cons.mp member with rfl | old
          · exact .inr (List.mem_singleton.mpr rfl)
          · exact .inl old
        own := fun w found => by
          rw [own] at found
          cases found
        defined := fun w member => by
          cases List.mem_singleton.mp member
          exact ⟨id, List.mem_cons_self, by rw [node.kind_id]; rfl⟩ }

theorem var_ends (ready : Ready s) (scopes : s.scopes = S :: outer) (name : String)
    (tyText : Option String) (init : Option Expr) (flags : List Flag) :
    Ends (stmt (.var span name tyText init flags)) s fun nodes t => ∃ S' defs,
      t.scopes = S' :: outer ∧ Lowers s S (.var span name tyText init flags) nodes S' defs t := by
  rw [stmt]
  refine (optionalTy_ends tyText).bind ?_
  rintro ty _ rfl
  refine (optionalExpr_ends ready span init).bind fun value t evaluates => ?_
  refine Ends.build_bind (Ends.change_bind ?_)
  let sym : Symbol := { name := name, kind := .var, ty := ty }
  have fresh := (fresh_addSymbol evaluates.ready sym rfl rfl rfl).relabel
    (relabel_attachFlags (t.program.addSymbol sym).1 flags)
  split
  · refine (bindReturnVar_ends fresh).bind fun _ u fresh => ?_
    exact declared_var_ends rfl scopes evaluates fresh name
  · exact declared_var_ends rfl scopes evaluates fresh name

/-- The symbol that was declared for a statement is found when its turn comes. -/
theorem declared_ends {st : Stmt} {name : String} {sort : SymbolSort}
    (announced : Announced s.program S st) (hoists : st.hoists? = some (name, sort))
    (scopes : s.scopes = S :: outer) :
    Ends (declared name span) s fun v t => s = t ∧ ownSymbol? S st = some v ∧
      v.index < s.program.symbols.size ∧ (s.program.symbol v).kind.sort = sort ∧
      (s.program.symbol v).decl = none := by
  obtain ⟨v, found, known, sorted, decl⟩ := announced name sort hoists
  refine Ends.get_bind ?_
  rw [scopes]
  simp only [List.head?_cons, Option.bind_some, found]
  refine Ends.pure ⟨rfl, ?_, known, sorted, decl⟩
  rw [ownSymbol?, hoists]
  exact found

theorem type_ends (ready : Ready s) (scopes : s.scopes = S :: outer) (name : String)
    (announced : Announced s.program S (.type span name)) :
    Ends (stmt (.type span name)) s fun nodes t => ∃ S' defs,
      t.scopes = S' :: outer ∧ Lowers s S (.type span name) nodes S' defs t := by
  rw [stmt]
  refine (declared_ends announced rfl scopes).bind ?_
  rintro v _ ⟨rfl, own, known, sorted, decl⟩
  have empty : Yields s [v] (declaredIn s.scopes ++ [v]) [] s :=
    { Yields.nothing ready with grows := .refl }
  have bare (n : NodeId) (member : n ∈ (none : Option NodeId).toList) :
      (s.program.kind n).isExpr = true := by cases member
  refine (define_ends empty [] (.refl _) bare known sorted decl
    (fun _ => List.mem_singleton.mpr rfl) (.inr (.inr ⟨rfl, rfl⟩))).bind ?_
  rintro id t ⟨built, node, same⟩
  refine Ends.pure ⟨S, [v], same.trans scopes, ?_⟩
  exact
    { yields := by
        rw [own, same]
        exact built
      widens := .refl
      declared := fun _ => .inl
      own := fun w found => by
        cases Option.some.inj (own.symm.trans found)
        exact List.mem_singleton.mpr rfl
      defined := fun w member => by
        cases List.mem_singleton.mp member
        exact ⟨id, List.mem_cons_self, by rw [node.kind_id]; rfl⟩ }

/-! Statements over expressions and blocks. -/

section

variable {nodes : List NodeId} {st : Stmt}

/-- A tree of expressions and blocks that stands for a statement. -/
theorem tree_ends {trees : List NodeId} {kind : NodeKind} (scopes : s.scopes = S :: outer)
    (silent : st.hoists? = none) (yields : Yields s [] (declaredIn s.scopes) trees t)
    (same : t.scopes = s.scopes) (children : trees.Perm kind.children)
    (defines : kind.defines? = none) (ref : kind.symRef? = none) (callee : kind.callee? = none)
    (fits : ∀ slot c, (slot, c) ∈ kind.slots → t.program.Fits c slot) :
    Ends (do pure [← node kind span]) t fun nodes u => ∃ S' defs,
      u.scopes = S' :: outer ∧ Lowers s S st nodes S' defs u := by
  refine (silent_ends yields [] ?_ defines ref callee fits).bind ?_
  · rwa [List.append_nil]
  · rintro id u ⟨built, _, kept⟩
    exact Ends.pure (Lowers.plain scopes silent built (kept.trans same))

theorem leaf_ends (ready : Ready s) (scopes : s.scopes = S :: outer) {kind : NodeKind}
    (silent : st.hoists? = none) (bare : kind.slots = []) (defines : kind.defines? = none)
    (ref : kind.symRef? = none) (callee : kind.callee? = none) :
    Ends (do pure [← node kind span]) s fun nodes u => ∃ S' defs,
      u.scopes = S' :: outer ∧ Lowers s S st nodes S' defs u := by
  refine tree_ends scopes silent (.nothing ready) rfl ?_ defines ref callee fun slot c member => ?_
  · rw [NodeKind.children_eq_slots, bare]
    exact .refl _
  · rw [bare] at member
    cases member

theorem assign_ends (ready : Ready s) (scopes : s.scopes = S :: outer) (target value : Expr) :
    Ends (stmt (.assign span target value)) s fun nodes t => ∃ S' defs,
      t.scopes = S' :: outer ∧ Lowers s S (.assign span target value) nodes S' defs t := by
  rw [stmt]
  refine (expr_ends ready span value).bind fun v t first => ?_
  refine (expr_ends first.ready span target).bind fun n u second => ?_
  have both := first.append second
  refine tree_ends scopes rfl both.toYields both.scopes ?_ rfl rfl rfl fun slot c member => ?_
  · exact List.Perm.swap n v []
  · rcases List.mem_pair.mp member with same | same <;> cases same
    · exact both.expr n (by simp)
    · exact both.expr v (by simp)

theorem ret_ends (ready : Ready s) (scopes : s.scopes = S :: outer) (value : Option Expr) :
    Ends (stmt (.ret span value)) s fun nodes t => ∃ S' defs,
      t.scopes = S' :: outer ∧ Lowers s S (.ret span value) nodes S' defs t := by
  rw [stmt]
  refine (optionalExpr_ends ready span value).bind fun value t evaluates => ?_
  refine tree_ends scopes rfl evaluates.toYields evaluates.scopes (.refl _) rfl rfl rfl
    fun slot c member => ?_
  obtain ⟨n, child, same⟩ := List.mem_map.mp member
  cases same
  exact evaluates.expr _ child

/-- An expression or a block, then a block. -/
theorem Yields.block {trees : List NodeId} {block : NodeId}
    (first : Yields s [] (declaredIn s.scopes) trees t) (scopes : t.scopes = s.scopes)
    (second : Blocks t block u) : Yields s [] (declaredIn s.scopes) (trees ++ [block]) u := by
  refine first.append (second.toYields.mono ?_) (List.Subset.refl _) nofun
  rw [scopes]
  exact List.Subset.refl _

/-- The statements of a block can be lowered. -/
def Lowerable (body : List Stmt) : Prop :=
  ∀ {s block S outer}, Filling s block S outer body →
    Ends (items body block) s fun _ t => Fills s block S outer body t

theorem cond_ends (ready : Ready s) (scopes : s.scopes = S :: outer) (test : Expr)
    {thenBody : List Stmt} (thenLowers : Lowerable thenBody) :
    Ends (stmt (.cond span test thenBody none)) s fun nodes t => ∃ S' defs,
      t.scopes = S' :: outer ∧ Lowers s S (.cond span test thenBody none) nodes S' defs t := by
  rw [stmt]
  refine (expr_ends ready span test).bind fun n t first => ?_
  refine (inBlock_ends first.ready thenLowers).bind fun block u second => ?_
  have whole := first.toYields.block first.scopes second
  refine tree_ends scopes rfl whole (second.scopes.trans first.scopes) (.refl _) rfl rfl rfl
    fun slot c member => ?_
  have test : (u.program.kind n).isExpr = true := by
    rw [second.kind_eq (first.loose n List.mem_cons_self).live]
    exact first.expr n List.mem_cons_self
  rcases List.mem_pair.mp member with same | same <;> cases same
  · exact test
  · exact second.isBlock

theorem condElse_ends (ready : Ready s) (scopes : s.scopes = S :: outer) (test : Expr)
    {thenBody elseBody : List Stmt} (thenLowers : Lowerable thenBody)
    (elseLowers : Lowerable elseBody) :
    Ends (stmt (.cond span test thenBody (some elseBody))) s fun nodes t => ∃ S' defs,
      t.scopes = S' :: outer ∧
        Lowers s S (.cond span test thenBody (some elseBody)) nodes S' defs t := by
  rw [stmt]
  refine (expr_ends ready span test).bind fun n t first => ?_
  refine (inBlock_ends first.ready thenLowers).bind fun block u second => ?_
  refine (inBlock_ends second.ready elseLowers).bind fun other w third => ?_
  have scopesU := second.scopes.trans first.scopes
  have whole := (first.toYields.block first.scopes second).block scopesU third
  refine tree_ends scopes rfl whole (third.scopes.trans scopesU) (.refl _) rfl rfl rfl
    fun slot c member => ?_
  have test : (w.program.kind n).isExpr = true := by
    have live := (first.loose n List.mem_cons_self).live
    rw [third.kind_eq (second.grows.live live), second.kind_eq live]
    exact first.expr n List.mem_cons_self
  have thenBlock : (w.program.kind block).isBlock = true := by
    rw [third.kind_eq (second.loose block List.mem_cons_self).live]
    exact second.isBlock
  simp only [NodeKind.slots, Option.toList_some, List.map_cons, List.map_nil, List.mem_cons,
    List.not_mem_nil, or_false] at member
  rcases member with same | same | same <;> cases same
  · exact test
  · exact thenBlock
  · exact third.isBlock

end

/-! Loops. -/

section

variable {claimed names names' : List SymbolId} {trees trees' : List NodeId}

theorem Yields.perm (yields : Yields s claimed names trees t) (same : trees.Perm trees') :
    Yields s claimed names trees' t :=
  { yields with
    loose := fun n member => yields.loose n (same.mem_iff.mpr member)
    fresh := fun n member => yields.fresh n (same.mem_iff.mpr member)
    nodup := same.nodup yields.nodup }

/-- One of the trees becomes part of another. -/
theorem Yields.put {n block : NodeId} (yields : Yields s claimed names (n :: trees) t)
    (member : block ∈ trees) (puts : Puts t block names [n] u) : Yields s claimed names trees u := by
  have distinct := List.nodup_cons.mp yields.nodup
  have inside (m : NodeId) (listed : m ∈ [block, n]) : m ∈ n :: trees := by
    rcases List.mem_pair.mp listed with rfl | rfl
    · exact List.mem_cons_of_mem _ member
    · exact List.mem_cons_self
  exact
    { ready := puts.ready
      grows := yields.grows.trans puts.grows
        (fun m listed live => absurd live (yields.fresh m (inside m listed))) nofun
      loose := fun m listed => by
        by_cases same : m = block
        · subst same
          exact
            { live := puts.fillable.live
              top := puts.fillable.top
              free := by
                rw [puts.grows.roots]
                exact (yields.loose m (List.mem_cons_of_mem _ listed)).free
              bound := puts.fillable.bound }
        · refine puts.grows.loose yields.ready.forest puts.ready.forest
            (yields.loose m (List.mem_cons_of_mem _ listed))
            (fun k touched => (yields.loose k (inside k touched)).top) fun touched => ?_
          rcases List.mem_pair.mp touched with rfl | rfl
          · exact same rfl
          · exact distinct.1 listed
      fresh := fun m listed => yields.fresh m (List.mem_cons_of_mem _ listed)
      nodup := distinct.2 }

/-- A new expression beside the trees. -/
theorem Yields.expr {n : List NodeId} (yields : Yields s claimed names trees t)
    (evaluates : Evaluates t n u) (wider : declaredIn t.scopes ⊆ names) :
    Yields s claimed names (trees ++ n) u :=
  yields.append (evaluates.toYields.mono wider) (List.Subset.refl _) nofun

/-- What a child of the only tree defines does not come from around it. -/
theorem Yields.close {id : NodeId} (yields : Yields s claimed names [id] t)
    (defined : ∀ v ∈ names, v ∈ names' ∨
      ∃ c ∈ t.program.children id, (t.program.kind c).defines? = some v) :
    Yields s claimed names' [id] t :=
  { yields with
    loose := fun n member => by
      cases List.mem_singleton.mp member
      exact (yields.loose _ member).close yields.ready.forest defined }

/-- The assignment that computes a loop's condition anew. -/
theorem recompute_ends {α : Type} (ready : Ready s) {temp : SymbolId}
    (known : temp.index < s.program.symbols.size)
    (sorted : (s.program.symbol temp).kind.sort = .var) (test : Expr) {rest : NodeId → Lower α}
    {Q : α → Lowering → Prop}
    (next : ∀ assign t, Yields s [] (declaredIn s.scopes ++ [temp]) [assign] t →
      t.scopes = s.scopes → Ends (rest assign) t Q) :
    Ends (do
      let again ← expr span test
      let target ← build (·.addRef temp span)
      let assign ← node (.assign target again) span
      rest assign) s Q := by
  refine (expr_ends ready span test).bind fun again t evaluates => ?_
  have first := evaluates.toYields.mono (List.subset_append_left _ [temp])
  have value : (t.program.symbol temp).isValue = true := by
    rw [Symbol.isValue_iff, evaluates.grows.sort known]
    exact .inl sorted
  have listed : temp ∈ declaredIn s.scopes ++ [temp] :=
    List.mem_append_right _ (List.mem_singleton.mpr rfl)
  refine (ref_ends first (evaluates.grows.known known) value listed).bind ?_
  rintro target u ⟨second, built, scopes⟩
  have isExpr : (u.program.kind again).isExpr = true := by
    rw [built.kind_of_ne (built.ne_of_live (evaluates.loose again List.mem_cons_self).live)]
    exact evaluates.expr again List.mem_cons_self
  have isRef : (u.program.kind target).isExpr = true := by rw [built.kind_id]; rfl
  refine (silent_ends second [] (.refl _) rfl rfl rfl fun slot c member => ?_).bind ?_
  · rcases List.mem_pair.mp member with same | same <;> cases same
    · exact isRef
    · exact isExpr
  · rintro assign w ⟨third, _, kept⟩
    exact next assign w third ((kept.trans scopes).trans evaluates.scopes)

/-- A symbol that a later state still knows as it was made. -/
theorem Fresh.grow {sort : SymbolSort} {v : SymbolId} (fresh : Fresh s sort v t) (ready : Ready u)
    (grows : Grows t.program [] [] u.program) (scopes : u.scopes = t.scopes) : Fresh s sort v u where
  ready := ready
  grows := fresh.grows.after grows
  scopes := scopes.trans fresh.scopes
  new := fresh.new
  known := grows.known fresh.known
  sort_eq := (grows.sort fresh.known).trans fresh.sort_eq
  decl := (grows.decl fresh.known List.not_mem_nil).trans fresh.decl

/-- The loop itself, once the definition of its variable and its body are there. -/
theorem loopTree_ends {temp : SymbolId} {tempDef block : NodeId}
    (yields : Yields s [] (declaredIn s.scopes ++ [temp]) [tempDef, block] t)
    (scopes : t.scopes = s.scopes) (isBlock : (t.program.kind block).isBlock = true)
    (defines : (t.program.kind tempDef).defines? = some temp)
    (known : temp.index < t.program.symbols.size)
    (sorted : (t.program.symbol temp).kind.sort = .var) (test : Expr) (testFirst : Bool) :
    Ends (do
      let again ← expr span test
      let target ← build (·.addRef temp span)
      let assign ← node (.assign target again) span
      append block assign
      let tested ← build (·.addRef temp span)
      let loop ← node (.loop tested block testFirst) span
      pure [tempDef, loop]) t fun nodes u => tempDef ∈ nodes ∧
        Yields s [] (declaredIn s.scopes ++ [temp]) nodes u ∧ u.scopes = s.scopes ∧
        (u.program.kind tempDef).defines? = some temp := by
  have memDef : tempDef ∈ [tempDef, block] := List.mem_cons_self
  have memBlock : block ∈ [tempDef, block] := List.mem_cons_of_mem _ List.mem_cons_self
  have listed : temp ∈ declaredIn s.scopes ++ [temp] :=
    List.mem_append_right _ (List.mem_singleton.mpr rfl)
  refine recompute_ends yields.ready known sorted test fun assign t₁ again scopes₁ => ?_
  rw [scopes] at again
  have first : Yields s [] _ (assign :: [tempDef, block]) t₁ :=
    (yields.append again (List.Subset.refl _) nofun).perm (List.perm_append_singleton _ _)
  have looseBlock := first.loose block (List.mem_cons_of_mem _ memBlock)
  have fillable : Fillable t₁.program block (declaredIn s.scopes ++ [temp]) :=
    { live := looseBlock.live
      isBlock := by
        rw [again.kind_eq (yields.loose block memBlock).live]
        exact isBlock
      top := looseBlock.top
      last := fun root => absurd root looseBlock.free
      bound := looseBlock.bound }
  have apart : assign ≠ block := by
    rintro rfl
    exact (List.nodup_cons.mp first.nodup).1 memBlock
  refine (append_ends first.ready fillable (first.loose assign List.mem_cons_self) apart).bind
    fun _ t₂ puts => ?_
  have second := first.put memBlock puts
  have grows₂ : Grows t.program [block, assign] [] t₂.program :=
    (again.grows.shrink nofun nofun).trans puts.grows (fun _ member _ => member) nofun
  have value : (t₂.program.symbol temp).isValue = true := by
    rw [Symbol.isValue_iff, grows₂.sort known]
    exact .inl sorted
  refine (ref_ends second (grows₂.known known) value listed).bind ?_
  rintro tested t₃ ⟨third, refNode, scopes₃⟩
  have isTest : (t₃.program.kind tested).tag = .symRef := by rw [refNode.kind_id]; rfl
  have blockKind : (t₃.program.kind block).isBlock = true := by
    rw [refNode.kind_of_ne (refNode.ne_of_live puts.fillable.live)]
    exact puts.fillable.isBlock
  refine (silent_ends third [tempDef] (List.Perm.cons _ (.swap _ _ _)) rfl rfl rfl
    fun slot c member => ?_).bind ?_
  · rcases List.mem_pair.mp member with same | same <;> cases same
    · exact isTest
    · exact blockKind
  · rintro loop t₄ ⟨fourth, loopNode, scopes₄⟩
    refine Ends.pure ⟨List.mem_cons_self, fourth.perm (.swap _ _ _), ?_, ?_⟩
    · rw [scopes₄, scopes₃, puts.scopes, scopes₁, scopes]
    · have live₂ := (second.loose tempDef memDef).live
      have live₃ := (third.loose tempDef (List.mem_cons_of_mem _ memDef)).live
      rw [loopNode.kind_of_ne (loopNode.ne_of_live live₃),
        refNode.kind_of_ne (refNode.ne_of_live live₂),
        (grows₂.head (yields.loose tempDef memDef).live).defines, defines]

/-- The definition of a loop's variable and the loop, once the first value is there. -/
theorem loopTrees_ends (ready : Ready s) {temp : SymbolId} (fresh : Fresh s .var temp t)
    {init : Option NodeId} (evaluates : Evaluates t init.toList u) (test : Expr) {body : List Stmt}
    (testFirst : Bool) (lowers : Lowerable body) :
    Ends (do
      let tempDef ← build (·.addDefinition temp init span)
      let block ← inBlock body span fun block => items body block
      let again ← expr span test
      let target ← build (·.addRef temp span)
      let assign ← node (.assign target again) span
      append block assign
      let tested ← build (·.addRef temp span)
      let loop ← node (.loop tested block testFirst) span
      pure [tempDef, loop]) u fun nodes w => ∃ tempDef ∈ nodes,
        Yields s [] (declaredIn s.scopes ++ [temp]) nodes w ∧ w.scopes = s.scopes ∧
        (w.program.kind tempDef).defines? = some temp := by
  have scopesU : u.scopes = s.scopes := evaluates.scopes.trans fresh.scopes
  have wider {w : Lowering} (same : w.scopes = s.scopes) :
      declaredIn w.scopes ⊆ declaredIn s.scopes ++ [temp] := by
    rw [same]
    exact List.subset_append_left _ _
  have start : Yields s [] (declaredIn s.scopes ++ [temp]) [] t :=
    (Yields.nothing ready).fresh_symbol fresh
  have first := start.expr evaluates (wider fresh.scopes)
  have freshU := fresh.grow evaluates.ready evaluates.grows evaluates.scopes
  have new (known : temp.index < s.program.symbols.size) : temp ∈ ([] : List SymbolId) :=
    absurd known (Nat.not_lt.mpr fresh.new)
  refine (define_ends first [] (by simp) evaluates.expr freshU.known freshU.sort_eq freshU.decl new
    (.inl rfl)).bind ?_
  rintro tempDef t₁ ⟨second, defined, scopes₁⟩
  refine (inBlock_ends second.ready lowers).bind fun block t₂ third => ?_
  have whole := second.append (third.toYields.mono (wider (scopes₁.trans scopesU)))
    (List.Subset.refl _) nofun
  have known₁ : temp.index < t₁.program.symbols.size := defined.symbols_size ▸ freshU.known
  refine (loopTree_ends whole (third.scopes.trans (scopes₁.trans scopesU)) third.isBlock ?_
    (third.grows.known known₁) ?_ test testFirst).mono fun nodes w done => ⟨tempDef, done⟩
  · rw [third.kind_eq (second.loose tempDef List.mem_cons_self).live, defined.kind_id]
    rfl
  · rw [third.grows.sort known₁, defined.symbol_kind]
    exact freshU.sort_eq

theorem loop_ends (ready : Ready s) (scopes : s.scopes = S :: outer) (test : Expr)
    {body : List Stmt} (testFirst : Bool) (lowers : Lowerable body) :
    Ends (stmt (.loop span test body testFirst)) s fun nodes t => ∃ S' defs,
      t.scopes = S' :: outer ∧ Lowers s S (.loop span test body testFirst) nodes S' defs t := by
  rw [stmt]
  refine Ends.build_bind ?_
  have fresh := fresh_addTemp ready .bool
  have done {nodes : List NodeId} {t : Lowering} : (∃ tempDef ∈ nodes,
      Yields s [] (declaredIn s.scopes ++ [(s.program.addTemp .bool).1]) nodes t ∧
      t.scopes = s.scopes ∧
      (t.program.kind tempDef).defines? = some (s.program.addTemp .bool).1) → ∃ S' defs,
      t.scopes = S' :: outer ∧ Lowers s S (.loop span test body testFirst) nodes S' defs t := by
    rintro ⟨tempDef, member, yields, same, defines⟩
    refine ⟨S, [(s.program.addTemp .bool).1], same.trans scopes, ?_⟩
    exact
      { yields := by
          rw [same]
          exact yields
        widens := .refl
        declared := fun _ => .inl
        own := fun _ found => by cases found
        defined := fun v isTemp => by
          cases List.mem_singleton.mp isTemp
          exact ⟨tempDef, member, defines⟩ }
  cases testFirst with
  | false =>
    refine (optionalExpr_ends fresh.ready span none).bind fun init t evaluates => ?_
    exact (loopTrees_ends ready fresh evaluates test false lowers).mono fun _ _ => done
  | true =>
    refine (optionalExpr_ends fresh.ready span (some test)).bind fun init t evaluates => ?_
    exact (loopTrees_ends ready fresh evaluates test true lowers).mono fun _ _ => done

end

end MiddleEnd.Surface.Lower
