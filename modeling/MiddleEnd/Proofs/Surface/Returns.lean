import MiddleEnd.Proofs.Surface.Labels
import MiddleEnd.Proofs.Surface.Linked

/-! The variable for a return value is defined in the function that it is for: lowering makes its
definition while it stands in that function. -/

namespace MiddleEnd

namespace Surface.Lower

open Program

variable {α β : Type} {f : Option SymbolId} {given given' : List Fact}

/-- Runs in the function `f`, where `given` holds of the nodes that are there, a run that succeeds
keeps the labels of the nodes and finds labels for new ones, of which `got` holds. -/
structure Houses (f : Option SymbolId) (given : List Fact) (m : Lower α) (got : α → List Fact) :
    Prop where
  meets {s : Lowering} {labels : NodeId → Option SymbolId} : s.function = f →
    Labelled labels s.program → (∀ fact ∈ given, fact.Holds labels s.program) →
    Meets m s (fun _ => True) fun a t => t.function = f ∧ ∃ labels',
      Enlarges labels s.program labels' t.program ∧ Labelled labels' t.program ∧
        ∀ fact ∈ got a, fact.Holds labels' t.program

namespace Houses

theorem pure {a : α} {got : α → List Fact} (held : got a ⊆ given) :
    Houses f given (Pure.pure a : Lower α) got :=
  ⟨fun here labelled holds => Meets.pure ⟨here, _, .refl, labelled, fun fact member =>
    holds fact (held member)⟩⟩

theorem throw (e : LowerError) : Houses f given (MonadExcept.throw e : Lower α) fun _ => [] :=
  ⟨fun _ _ _ => Meets.throw trivial⟩

theorem get : Houses f given (MonadState.get : Lower Lowering) fun _ => [] :=
  ⟨fun here labelled _ => ⟨here, _, .refl, labelled, nofun⟩⟩

theorem modify {change : Lowering → Lowering} (program : ∀ s, (change s).program = s.program)
    (function : ∀ s, (change s).function = s.function) :
    Houses f given (modify change) fun _ => [] where
  meets {s labels} here labelled _ := by
    refine ⟨(function s).trans here, labels, ?_, ?_, nofun⟩
    · rw [program]
      exact .refl
    · rw [program]
      exact labelled

theorem bind {m : Lower α} {k : α → Lower β} {got : α → List Fact} {got' : β → List Fact}
    (first : Houses f given m got) (rest : ∀ a, Houses f (got a ++ given) (k a) got') :
    Houses f given (m >>= k) got' where
  meets {s labels} here labelled holds := by
    refine Meets.bind (first.meets here labelled holds) ?_
    rintro a t ⟨there, labels', enlarges, labelledT, found⟩
    refine ((rest a).meets there labelledT fun fact member => ?_).mono ?_ fun _ => id
    · rcases List.mem_append.mp member with new | old
      · exact found fact new
      · exact enlarges.holds (holds fact old)
    · rintro b u ⟨there, labels'', enlarges', labelledU, found⟩
      exact ⟨there, labels'', enlarges.trans enlarges', labelledU, found⟩

theorem mono {m : Lower α} {got got' : α → List Fact} (houses : Houses f given m got)
    (more : given ⊆ given') (fewer : ∀ a, got' a ⊆ got a) : Houses f given' m got' where
  meets here labelled holds := by
    refine (houses.meets here labelled fun fact member => holds fact (more member)).mono ?_
      fun _ => id
    rintro a t ⟨there, labels', enlarges, labelled, found⟩
    exact ⟨there, labels', enlarges, labelled, fun fact member => found fact (fewer a member)⟩

theorem map {m : Lower α} {k : α → β} {got : β → List Fact}
    (houses : Houses f given m fun a => got (k a)) : Houses f given (k <$> m) got where
  meets here labelled holds := Meets.map (houses.meets here labelled holds)

theorem forM {k : α → Lower PUnit} {items : List α}
    (turn : ∀ a ∈ items, Houses f given (k a) fun _ => []) :
    Houses f given (items.forM k) fun _ => [] := by
  induction items with
  | nil => exact .pure (List.nil_subset _)
  | cons a rest ih =>
    exact (turn a List.mem_cons_self).bind fun _ =>
      ih fun a member => turn a (List.mem_cons_of_mem _ member)

theorem mapM {k : α → Lower β} {got : β → List Fact} (items : List α)
    (turn : ∀ a given, Houses f given (k a) got) :
    Houses f given (items.mapM k) fun bs => bs.flatMap got := by
  induction items generalizing given with
  | nil =>
    rw [List.mapM_nil]
    exact .pure (List.nil_subset _)
  | cons a rest ih =>
    rw [List.mapM_cons]
    refine (turn a given).bind fun b => ih.bind fun bs => .pure ?_
    rw [List.flatMap_cons]
    grind

theorem node {k : NodeKind} {span : Span}
    (fits : ∀ c ∈ k.children, .stands (k.below f) c ∈ given) {g : Option SymbolId} :
    Houses g given (Lower.node k span) fun id => [.stands f id, .opens (k.below f) id] where
  meets {s labels} here labelled holds := by
    have stand : ∀ c ∈ k.children, (Fact.stands (k.below f) c).Holds labels s.program :=
      fun c child => holds _ (fits c child)
    have enlarges : Enlarges labels s.program _ (s.program.addNode k span).2 :=
      addNode_enlarges f k span
    refine ⟨here, _, enlarges, enlarges.labelled (spares_addNode k span) labelled
      (addNode_children f k span stand), fun fact member => ?_⟩
    rcases List.mem_cons.mp member with rfl | member
    · exact (addNode_facts f k span).1
    · cases List.mem_singleton.mp member
      exact (addNode_facts f k span).2

/-- A node of the function over nodes of the function. -/
theorem plain {k : NodeKind} {span : Span} (noFn : k.isFnDef = false)
    (fits : ∀ c ∈ k.children, .stands f c ∈ given) :
    Houses f given (Lower.node k span) fun id => [.stands f id, .opens f id] := by
  have below : k.below f = f := by rw [NodeKind.below, noFn, if_neg Bool.false_ne_true]
  have houses : Houses f given (Lower.node k span) fun id =>
      [.stands f id, .opens (k.below f) id] := node (by rwa [below])
  rwa [below] at houses

theorem expr {k : NodeKind} {span : Span} (noFn : k.isFnDef = false)
    (fits : ∀ c ∈ k.children, .stands f c ∈ given) :
    Houses f given (Lower.node k span) fun id => [.stands f id] :=
  (plain noFn fits).mono (List.Subset.refl _) fun _ => by simp

theorem append {g : Option SymbolId} {owner child : NodeId} (into : .opens g owner ∈ given)
    (fits : .stands g child ∈ given) : Houses f given (Lower.append owner child) fun _ => [] where
  meets {s labels} here labelled holds := by
    refine Meets.get_bind ?_
    cases result : s.program.append owner child with
    | error e => exact Meets.throw trivial
    | ok q =>
      obtain ⟨enlarges, spares⟩ : Enlarges labels s.program labels q ∧ Spares s.program q :=
        append_enlarges result
      refine ⟨here, labels, enlarges, enlarges.labelled spares labelled ?_, nofun⟩
      intro o c childQ
      obtain ⟨ids, list, kinds⟩ := kind_of_append result
      rw [children, kinds] at childQ
      split at childQ
      · rename_i same
        subst same
        have opens := enlarges.holds (holds _ into)
        have grown : (ids ++ [child]).Perm (child :: ids) := List.perm_append_singleton ..
        rcases (NodeKind.mem_children_withChildList list grown).mp childQ with old | rfl
        · exact .inl old
        · have stands := enlarges.holds (holds _ fits)
          exact .inr ⟨stands.1, stands.2.trans opens.2.symm⟩
      · exact .inl childQ

theorem build {k : Program → α × Program} (nodes : ∀ p, (k p).2.nodes = p.nodes)
    (spares : ∀ p, Spares p (k p).2) : Houses f given (Lower.build k) fun _ => [] where
  meets here labelled _ := by
    obtain ⟨enlarges, labelled⟩ := labelled.of_nodes (nodes _) (spares _)
    exact ⟨here, _, enlarges, labelled, nofun⟩

theorem change {k : Program → Program} (nodes : ∀ p, (k p).nodes = p.nodes)
    (spares : ∀ p, Spares p (k p)) : Houses f given (Lower.change k) fun _ => [] :=
  build (k := fun p => ((), k p)) nodes spares

theorem symbol (sym : Symbol) (noRet : sym.fnData?.bind (·.retVar) = none)
    (noModule : sym.moduleBlock? = none) :
    Houses f given (Lower.build (·.addSymbol sym)) fun _ => [] :=
  build (fun _ => rfl) fun _ => spares_addSymbol noRet noModule

theorem newVar (sym : Symbol) (kind : sym.kind = .var) :
    Houses f given (Lower.build (·.addSymbol sym)) fun v => [.isVar v] where
  meets {s labels} here labelled _ := by
    have spares : Spares s.program (s.program.addSymbol sym).2 := by
      refine spares_addSymbol ?_ ?_
      · rw [Symbol.fnData?, kind]
        rfl
      · rw [Symbol.moduleBlock?, kind]
    obtain ⟨enlarges, labelled⟩ := labelled.of_nodes (q := (s.program.addSymbol sym).2) rfl spares
    refine ⟨here, _, enlarges, labelled, fun fact member => ?_⟩
    cases List.mem_singleton.mp member
    have found : (s.program.addSymbol sym).2.symbol (s.program.addSymbol sym).1 = sym :=
      (symbol_addSymbol sym _).trans (if_pos rfl)
    refine ⟨by simp, ?_⟩
    show ((s.program.addSymbol sym).2.symbol (s.program.addSymbol sym).1).kind.sort = .var
    rw [found, kind]
    rfl

theorem typed (v : SymbolId) (ty : Ty) :
    Houses f given (Lower.change (·.modifySymbol v fun s => { s with ty := ty })) fun _ => [] :=
  change (fun _ => rfl) fun _ => spares_modifySymbol v fun _ => rfl

theorem attachFlag (v : SymbolId) (flag : Flag) :
    Houses f given (Lower.change (·.attachFlag v flag)) fun _ => [] :=
  change (fun _ => rfl) fun _ => spares_modifySymbol v fun _ => rfl

theorem attachFlags (v : SymbolId) (flags : List Flag) :
    Houses f given (Lower.change (·.attachFlags v flags)) fun _ => [] :=
  change (fun p => (relabel_attachFlags (p := p) v flags).nodes) fun _ =>
    spares_attachFlags v flags

theorem inScope {inner : Lower α} {got : α → List Fact} (houses : Houses f given inner got) :
    Houses f given (Lower.inScope inner) got where
  meets here labelled holds := by
    refine Meets.modify_bind (Meets.bind (houses.meets here labelled holds) ?_)
    rintro a t ⟨there, found⟩
    exact Meets.modify_bind (Meets.pure ⟨there, found⟩)

theorem inFunction {g : SymbolId} {inner : Lower α} {got : α → List Fact}
    (houses : Houses (some g) given inner got) : Houses f given (Lower.inFunction g inner) got where
  meets {s labels} here labelled holds := by
    refine Meets.get_bind (Meets.modify_bind (Meets.bind (houses.meets rfl labelled holds) ?_))
    rintro a t ⟨_, found⟩
    exact Meets.modify_bind (Meets.pure ⟨here, found⟩)

/-- The node that is made stands in the function, whatever else is known of it. -/
theorem only {m : Lower NodeId} {got : NodeId → List Fact} (houses : Houses f given m got)
    {g : Option SymbolId} (among : ∀ id, .stands g id ∈ got id) :
    Houses f given (do Pure.pure [← m]) fun ids => ids.map (.stands g) :=
  houses.bind fun id => .pure (by simpa using .inl (among id))

end Houses

/-! Names and types. -/

theorem declare_houses (name : String) (sym : SymbolId) (span : Span) :
    Houses f given (declare name sym span) fun _ => [] := by
  refine Houses.get.bind fun s => ?_
  split
  · exact .throw _
  · split
    · exact (Houses.throw _).bind fun _ => .modify (fun _ => rfl) fun _ => rfl
    · exact .modify (fun _ => rfl) fun _ => rfl

theorem declared_houses (name : String) (span : Span) :
    Houses f given (declared name span) fun _ => [] := by
  refine Houses.get.bind fun s => ?_
  split
  · exact .pure (List.nil_subset _)
  · exact .throw _

theorem valueNamed_houses (name : String) (span : Span) :
    Houses f given (valueNamed name span) fun _ => [] := by
  refine Houses.get.bind fun s => ?_
  split
  · exact .pure (List.nil_subset _)
  · exact .throw _

theorem function?_houses (name : String) : Houses f given (function? name) fun _ => [] :=
  Houses.get.bind fun _ => .pure (List.nil_subset _)

theorem ty_houses (text : String) (span : Span) : Houses f given (ty text span) fun _ => [] := by
  refine Houses.get.bind fun s => ?_
  dsimp only
  split
  · exact .pure (List.nil_subset _)
  · exact .throw _

theorem optionalTy_houses (text : Option String) (span : Span) :
    Houses f given (optionalTy text span) fun _ => [] := by
  cases text with
  | none => exact .pure (List.nil_subset _)
  | some text => exact ty_houses text span

theorem hoistName_houses (st : Stmt) : Houses f given (hoistName st) fun _ => [] := by
  cases st with
  | type span name =>
    refine (Houses.symbol _ rfl rfl).bind fun sym => ?_
    exact (Houses.typed sym _).bind fun _ => declare_houses ..
  | fn span name formals ret retTag flags body =>
    refine (Houses.symbol _ rfl rfl).bind fun sym => ?_
    refine (Houses.attachFlags sym flags).bind fun _ => ?_
    split
    · exact (Houses.attachFlag sym _).bind fun _ => declare_houses ..
    · exact declare_houses ..
  | _ => exact .pure (List.nil_subset _)

theorem hoistReturnType_houses (st : Stmt) : Houses f given (hoistReturnType st) fun _ => [] := by
  unfold hoistReturnType
  split
  · refine (ty_houses ..).bind fun ty => Houses.get.bind fun s => ?_
    split
    · exact .typed _ _
    · exact .pure (List.nil_subset _)
  · exact .pure (List.nil_subset _)

theorem hoist_houses (items : List Stmt) : Houses f given (hoist items) fun _ => [] :=
  (Houses.forM fun _ _ => hoistName_houses _).bind fun _ =>
    Houses.forM fun _ _ => hoistReturnType_houses _

theorem inBlock_houses (body : List Stmt) (span : Span) {inner : NodeId → Lower Unit}
    (houses : ∀ block given, .opens f block ∈ given → Houses f given (inner block) fun _ => []) :
    Houses f given (inBlock body span inner) fun block => [.stands f block, .opens f block] := by
  refine (Houses.plain rfl (by simp [NodeKind.children])).bind fun block => ?_
  have filled (given : List Fact) (opens : .opens f block ∈ given) : Houses f given (inScope do
      hoist body
      inner block) fun _ => [] :=
    .inScope ((hoist_houses body).bind fun _ => houses block _ (by simp [opens]))
  exact (filled _ (by simp)).bind fun _ => .pure (by simp)

/-! Expressions. -/

mutual

theorem expr_houses (given : List Fact) (span : Span) (e : Expr) :
    Houses f given (expr span e) fun id => [.stands f id] := by
  cases e with
  | int value | bool value | str value =>
    rw [expr]
    exact .expr rfl (by simp [NodeKind.children])
  | name name =>
    rw [expr]
    exact (valueNamed_houses ..).bind fun sym => .expr rfl (by simp [NodeKind.children])
  | call name args =>
    rw [expr]
    refine (exprs_houses _ span args).bind fun args => ?_
    refine (function?_houses name).bind fun callee => ?_
    exact .expr rfl (by simp +contextual [NodeKind.children])
  | named name value =>
    rw [expr]
    exact (expr_houses _ span value).bind fun value => .expr rfl (by simp [NodeKind.children])
  | prim op args =>
    rw [expr]
    refine (exprs_houses _ span args).bind fun args => ?_
    exact .expr rfl (by simp +contextual [NodeKind.children])
  | addrOf operand | deref operand =>
    rw [expr]
    exact (expr_houses _ span operand).bind fun operand => .expr rfl (by simp [NodeKind.children])

theorem exprs_houses (given : List Fact) (span : Span) (es : List Expr) :
    Houses f given (exprs span es) fun ids => ids.map (.stands f) := by
  cases es with
  | nil =>
    rw [exprs]
    exact .pure (List.nil_subset _)
  | cons e rest =>
    rw [exprs]
    exact (expr_houses _ span e).bind fun first => (exprs_houses _ span rest).bind fun others =>
      .pure (by simp)

end

theorem optionalExpr_houses (span : Span) (e : Option Expr) :
    Houses f given (optionalExpr span e) fun value => value.toList.map (.stands f) := by
  cases e with
  | none => exact .pure (List.nil_subset _)
  | some e => exact ((expr_houses _ span e).mono (List.Subset.refl _) (by simp)).map

theorem definition_houses (sym : SymbolId) {value : Option NodeId} (span : Span)
    (fits : ∀ c ∈ value.toList, .stands f c ∈ given) :
    Houses f given (build (·.addDefinition sym value span)) fun id => [.stands f id] :=
  Houses.expr (k := .define sym value) rfl fits

theorem formalSymbol_houses (span : Span) (formal : Formal) :
    Houses f given (formalSymbol span formal) fun _ => [] := by
  refine (optionalTy_houses ..).bind fun ty => (Houses.symbol _ rfl rfl).bind fun sym => ?_
  refine (Houses.attachFlags sym formal.flags).bind fun _ => ?_
  exact (declare_houses ..).bind fun _ => .pure (List.nil_subset _)

theorem formalDef_houses (span : Span) (formal : Formal × SymbolId) :
    Houses f given (formalDef span formal) fun id => [.stands f id] :=
  (optionalExpr_houses ..).bind fun value => definition_houses _ _ (by simp +contextual)

/-! Statements. -/

/-- The definition of a variable for the return value comes after the variable is bound. -/
theorem returnVar_houses (name : String) {v : SymbolId} {value : Option NodeId} (span : Span)
    (isVar : .isVar v ∈ given) (fits : ∀ c ∈ value.toList, .stands f c ∈ given) :
    Houses f given (do
      bindReturnVar v span
      declare name v span
      Pure.pure [← build (·.addDefinition v value span)]) fun ids => ids.map (.stands f) where
  meets {s labels} here labelled holds := by
    refine Meets.bind (bindReturnVar_meets fun _ => trivial) ?_
    rintro _ _ ⟨q, rfl, change, binds⟩
    have declares : Meets (declare name v span) { s with program := q } (fun _ => True)
        fun _ t => t.function = f ∧ t.program = q := by
      refine Meets.get_bind ?_
      split
      · exact Meets.throw trivial
      · split
        · exact Meets.throw trivial
        · exact ⟨here, rfl⟩
    refine Meets.bind declares ?_
    rintro _ t ⟨there, rfl⟩
    obtain ⟨enlarges, labelled⟩ := labelled.define change span (here ▸ binds) (holds _ isVar)
      fun c child => holds _ (fits c child)
    refine Meets.build_bind (Meets.pure ⟨there, _, enlarges, labelled, fun fact member => ?_⟩)
    cases List.mem_singleton.mp member
    exact (addNode_facts f (.define v value) span).1

mutual

theorem stmt_houses (f : Option SymbolId) (given : List Fact) (st : Stmt) :
    Houses f given (stmt st) fun ids => ids.map (.stands f) := by
  cases st with
  | var span name tyText init flags =>
    rw [stmt]
    refine (optionalTy_houses ..).bind fun ty => (optionalExpr_houses ..).bind fun value => ?_
    refine (Houses.newVar _ rfl).bind fun sym => (Houses.attachFlags sym flags).bind fun _ => ?_
    split
    · exact returnVar_houses name span (by simp) (by simp +contextual)
    · exact (declare_houses ..).bind fun _ =>
        (definition_houses _ _ (by simp +contextual)).only (by simp)
  | type span name =>
    rw [stmt]
    exact (declared_houses ..).bind fun sym => (definition_houses _ _ (by simp)).only (by simp)
  | fn span name formals ret retTag flags body =>
    rw [stmt]
    refine (declared_houses ..).bind fun g => .inFunction (.inScope ?_)
    refine (Houses.mapM formals fun formal given =>
      formalSymbol_houses span formal).bind fun syms => ?_
    refine (Houses.mapM _ fun formal given =>
      formalDef_houses span formal).bind fun defs => ?_
    refine (inBlock_houses body span fun block given =>
      items_houses _ given body block).bind fun body => ?_
    refine (Houses.node (f := f) ?_).only (by simp)
    intro c child
    rcases List.mem_append.mp child with isFormal | isBody
    · simp [NodeKind.below, NodeKind.isFnDef, NodeKind.defines?, isFormal]
    · simp [NodeKind.below, NodeKind.isFnDef, NodeKind.defines?, List.mem_singleton.mp isBody]
  | assign span target value =>
    rw [stmt]
    exact (expr_houses ..).bind fun value => (expr_houses ..).bind fun target =>
      (Houses.plain rfl (by simp [NodeKind.children])).only (by simp)
  | cond span test thenBody elseBody =>
    cases elseBody with
    | none =>
      rw [stmt]
      exact (expr_houses ..).bind fun test =>
        (inBlock_houses thenBody span fun block given =>
            items_houses _ given thenBody block).bind fun _ =>
          (Houses.plain rfl (by simp [NodeKind.children])).only (by simp)
    | some elseBody =>
      rw [stmt]
      exact (expr_houses ..).bind fun test =>
        (inBlock_houses thenBody span fun block given =>
            items_houses _ given thenBody block).bind fun _ =>
          (inBlock_houses elseBody span fun block given =>
              items_houses _ given elseBody block).bind fun _ =>
            (Houses.plain rfl (by simp [NodeKind.children])).only (by simp)
  | loop span test body testFirst =>
    rw [stmt]
    have named : Houses f given (build (·.addTemp .bool)) fun _ => [] :=
      .build (fun _ => rfl) fun _ => spares_addSymbol rfl rfl
    refine named.bind fun temp => ?_
    extract_lets rest
    have houses (init : Option NodeId) (given : List Fact)
        (fits : ∀ c ∈ init.toList, .stands f c ∈ given) :
        Houses f given (rest init) fun ids => ids.map (.stands f) := by
      refine (definition_houses _ _ fits).bind fun tempDef => ?_
      refine (inBlock_houses body span fun block given =>
        items_houses _ given body block).bind fun block => ?_
      refine (expr_houses _ span test).bind fun again => ?_
      refine (Houses.expr (k := .symRef temp) rfl
        (by simp [NodeKind.children])).bind fun target => ?_
      refine (Houses.expr rfl (by simp [NodeKind.children])).bind fun assign => ?_
      refine (Houses.append (g := f) (by simp) (by simp)).bind fun _ => ?_
      refine (Houses.expr (k := .symRef temp) rfl
        (by simp [NodeKind.children])).bind fun tested => ?_
      exact (Houses.expr rfl (by simp [NodeKind.children])).bind fun loop => .pure (by simp)
    split
    · exact (optionalExpr_houses span (some test)).bind fun init =>
        houses init _ (by simp +contextual)
    · exact (optionalExpr_houses span none).bind fun init =>
        houses init _ (by simp +contextual)
  | forLoop span index iterable body =>
    rw [stmt]
    refine (expr_houses ..).bind fun iterable => (Houses.symbol _ rfl rfl).bind fun sym => ?_
    refine (Houses.attachFlag ..).bind fun _ => ?_
    refine (definition_houses _ _ (by simp)).bind fun indexDef => ?_
    have inner (given : List Fact) : Houses f given (inScope do
        declare index sym span
        inBlock body span fun block => items body block) fun block =>
          [.stands f block, .opens f block] :=
      .inScope ((declare_houses ..).bind fun _ =>
        inBlock_houses body span fun block given => items_houses _ given body block)
    exact (inner _).bind fun block =>
      (Houses.plain rfl (by simp [NodeKind.children])).only (by simp)
  | ret span value =>
    rw [stmt]
    exact (optionalExpr_houses ..).bind fun value =>
      (Houses.plain rfl (by simp +contextual [NodeKind.children])).only (by simp)
  | brk span | cont span | label span name | goto span name =>
    rw [stmt]
    exact (Houses.plain rfl (by simp [NodeKind.children])).only (by simp)
  | expr span e =>
    rw [stmt]
    exact (expr_houses _ span e).only (by simp)

theorem items_houses (f : Option SymbolId) (given : List Fact) (body : List Stmt) (block : NodeId)
    (opens : .opens f block ∈ given) : Houses f given (items body block) fun _ => [] := by
  cases body with
  | nil =>
    rw [items]
    exact .pure (List.nil_subset _)
  | cons st rest =>
    rw [items]
    refine (stmt_houses _ _ st).bind fun nodes => ?_
    have appends : Houses f (nodes.map (.stands f) ++ given) (nodes.forM (Lower.append block))
        fun _ => [] :=
      .forM fun node member => .append (g := f) (by simp [opens]) (by simp [member])
    exact appends.bind fun _ => items_houses _ _ rest block (by simp [opens])

end

/-! Modules. -/

/-- Between modules the program is labelled. -/
def Sorted (s : Lowering) : Prop :=
  s.function = none ∧ ∃ labels, Labelled labels s.program

theorem moduleTree_houses {s : Lowering} (m : ModuleTree) (sorted : Sorted s) :
    Meets (moduleTree m) s (fun _ => True) fun _ => Sorted := by
  obtain ⟨here, labels, labelled⟩ := sorted
  have grown := labelled.addModule m.name m.span
  refine Meets.build_bind (Meets.get_bind ?_)
  split
  · exact Meets.pure ⟨here, _, grown⟩
  · rename_i root block
    have inner : Houses none [.opens none root] (inScope do
        hoist m.items
        items m.items root) fun _ => [] :=
      .inScope ((hoist_houses m.items).bind fun _ => items_houses _ _ m.items root (by simp))
    let added : Lowering := { s with program := (s.program.addModule m.name m.span).2 }
    have there : added.function = none := here
    refine (inner.meets there grown fun fact member => ?_).mono ?_ fun _ => id
    · cases List.mem_singleton.mp member
      obtain ⟨known, label, noFn⟩ := grown.top block
      refine ⟨known, ?_⟩
      rw [inside, NodeKind.below, noFn, if_neg Bool.false_ne_true, label]
    · rintro _ t ⟨there, labels', _, labelled, _⟩
      exact ⟨there, labels', labelled⟩

end Surface.Lower

open Program

namespace Surface

theorem ProgramTree.lowered_returning {tree : ProgramTree} {p : Program}
    (lowered : tree.lower = .ok p) : p.Returning := by
  have sound := (ProgramTree.lowered lowered).1.sound
  have start : Lower.Sorted {} := by
    have nothing (s : SymbolId) : Program.empty.symbol s = .absent :=
      symbol_of_not_known (Nat.zero_le _)
    refine ⟨rfl, fun _ => none, ⟨fun {o c} child => ?_, fun {m n} block => ?_⟩,
      fun {f v} isRet => ?_⟩
    · exact absurd (known_of_child child) (Nat.not_lt_zero _)
    · rw [moduleBlock?, nothing] at block
      cases block
    · rw [Check.retVar?, nothing] at isRet
      cases isRet
  have sorted : Lower.Meets (tree.modules.forM Lower.moduleTree) {} (fun _ => True)
      fun _ => Lower.Sorted :=
    Lower.Meets.forM (I := fun _ => Lower.Sorted) start fun m _ _ kept =>
      Lower.moduleTree_houses m kept
  unfold Lower.Meets at sorted
  rw [lower, StateT.run] at lowered
  cases result : tree.modules.forM Lower.moduleTree {} with
  | error e =>
    rw [result] at lowered
    cases lowered
  | ok pair =>
    rw [result] at sorted lowered
    cases lowered
    obtain ⟨_, labels, labelled⟩ := sorted
    exact labelled.returning sound

end Surface

theorem Linked.returning {p : Program} (linked : Linked p) : p.Returning := by
  obtain ⟨lowered, sites⟩ := linked
  have binds := ((Calls.computeSites_ends (Surface.ProgramTree.lowered lowered).1).of_ok sites).2.1
  exact binds.toRetarget.returning (Surface.ProgramTree.lowered_returning lowered)

end MiddleEnd
