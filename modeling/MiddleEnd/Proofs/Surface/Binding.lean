import MiddleEnd.Proofs.Surface.Spelling

namespace MiddleEnd.Surface

open Program

namespace Lower

variable {s t : Lowering} {visible : List Visible} {v : SymbolId}

/-! Lists of statements. -/

theorem appendAll_adds {E : LowerError → Prop} (refused : ∀ fault, E (.arena fault)) {block : NodeId}
    {ids nodes : List NodeId} (kind : s.program.kind block = .block ids) :
    Meets (nodes.forM (append block)) s E fun _ t => Adds s.program [block] t.program ∧
      t.program.kind block = .block (ids ++ nodes) ∧ t.scopes = s.scopes ∧
      t.program.nodes.size = s.program.nodes.size := by
  induction nodes generalizing s ids with
  | nil => exact Meets.pure ⟨.refl, by rw [kind, List.append_nil], rfl, rfl⟩
  | cons n rest ih =>
    show Meets (append block n >>= fun _ => rest.forM (append block)) s E _
    refine Meets.bind (append_adds refused kind) fun _ t first => ?_
    obtain ⟨adds, kindT, scopes, size⟩ := first
    refine (ih kindT).mono (fun _ u others => ?_) fun _ => id
    obtain ⟨adds', kindU, scopes', size'⟩ := others
    exact ⟨adds.trans adds', by rw [kindU, List.append_assoc]; rfl, scopes'.trans scopes,
      size'.trans size⟩

mutual

/-- What lowering builds for a statement spells it. -/
theorem stmt_writes {s : Lowering} {visible : List Visible} (sees : Sees s visible) (st : Stmt)
    (foreseen : Foreseen visible st) :
    Meets (stmt st) s (Unbound (resolveStmt visible st).namings)
      fun nodes => Writes s visible st nodes := by
  cases st with
  | var span name ty init flags => exact var_writes sees foreseen.inside name ty init flags
  | type span name => exact type_writes sees foreseen
  | fn span name formals ret retTag flags body =>
    exact fn_writes sees foreseen (items_append body)
  | assign span target value => exact assign_writes sees target value
  | cond span test thenBody elseBody =>
    cases elseBody with
    | none => exact cond_writes sees test (items_append thenBody)
    | some elseBody =>
      exact condElse_writes sees test (items_append thenBody) (items_append elseBody)
  | loop span test body testFirst => exact loop_writes sees test testFirst (items_append body)
  | forLoop span index iterable body => exact forLoop_writes sees index iterable (items_append body)
  | ret span value => exact ret_writes sees value
  | brk span | cont span | label span name | goto span name =>
    rw [stmt]
    exact Inserts.nothing.statement sees rfl _ fun n q frames _ kind => ⟨n, rfl, kind⟩
  | expr span e =>
    rw [stmt]
    refine Meets.bind (expr_spells sees span e) fun n t inserts => Meets.pure ?_
    exact (inserts.mono fun q frames spelled => ⟨n, rfl, spelled⟩).writes sees rfl

theorem items_append {visible : List Visible} (body : List Stmt) : Appendable visible body := by
  intro s block ids sees foreseen kind known
  cases body with
  | nil =>
    rw [items]
    refine Meets.pure ⟨[], Builds.nothing.mono fun _ _ _ => rfl, ?_, rfl⟩
    rw [kind, List.append_nil]
  | cons st rest =>
    rw [items]
    refine Meets.bind ((stmt_writes sees st (foreseen st List.mem_cons_self)).within
      (List.subset_append_left _ _)) fun nodes t writes => ?_
    have kindT := (writes.builds.adds.kind known List.not_mem_nil).trans kind
    have knownT := Nat.lt_of_lt_of_le known writes.builds.adds.nodes_le
    refine Meets.bind (appendAll_adds (fun _ => nofun) kindT) fun _ u appended => ?_
    obtain ⟨adds, kindU, scopes, size⟩ := appended
    have first := (writes.builds.touch fun n member => by
      cases List.mem_singleton.mp member
      exact .inl known).after adds scopes size
    refine ((items_append rest (writes.sees.adds adds scopes)
      (fun other member => (foreseen other (List.mem_cons_of_mem _ member)).seeNext) kindU
      (size ▸ knownT)).within (List.subset_append_right _ _)).mono (fun _ w others => ?_) fun _ => id
    obtain ⟨more, appends⟩ := others
    refine ⟨nodes ++ more, (first.trans appends.builds).mono fun q frames both => ?_, ?_, ?_⟩
    · exact ⟨nodes, more, rfl, both⟩
    · rw [appends.kind, List.append_assoc]
    · rw [appends.tail, scopes, writes.tail]

end

/-! Modules. -/

/-- The module `v` spells `m`, whatever is built after it. -/
structure Persists (s : Lowering) (m : ModuleTree) (v : SymbolId) : Prop where
  known : v.index < s.program.symbols.size
  spells : ∃ root nodes frame, s.program.moduleBlock? v = some root ∧ ∀ q : Program,
    (∀ n : NodeId, n.index < s.program.nodes.size → q.kind n = s.program.kind n) →
    q.kind root = .block nodes ∧ SpellsItems q [frame] m.resolve nodes

/-- Adding to a program what it had before is there in the program afterwards. -/
theorem Persists.grow {m : ModuleTree} (persists : Persists s m v)
    (nodes_le : s.program.nodes.size ≤ t.program.nodes.size)
    (symbols_le : s.program.symbols.size ≤ t.program.symbols.size)
    (kinds : ∀ n : NodeId, n.index < s.program.nodes.size → t.program.kind n = s.program.kind n)
    (block : t.program.moduleBlock? v = s.program.moduleBlock? v) : Persists t m v := by
  obtain ⟨root, nodes, frame, found, spells⟩ := persists.spells
  refine ⟨Nat.lt_of_lt_of_le persists.known symbols_le, root, nodes, frame, block.trans found, ?_⟩
  intro q same
  refine spells q fun n known => ?_
  rw [same n (Nat.lt_of_lt_of_le known nodes_le), kinds n known]

/-- The modules so far spell the texts `done`, and no scope is open. -/
structure Spelled (done : List ModuleTree) (s : Lowering) : Prop where
  scopes : s.scopes = []
  modules : List.Forall₂ (Persists s) done s.program.modules

theorem moduleTree_spelled {done : List ModuleTree} (spelled : Spelled done s) (m : ModuleTree) :
    Meets (moduleTree m) s (Unbound (Resolved.namingsIn m.resolve))
      fun _ => Spelled (done ++ [m]) := by
  refine Meets.build_bind (Meets.get_bind ?_)
  let p := s.program
  let q := (p.addModule m.name m.span).2
  let sym : SymbolId := (p.addModule m.name m.span).1
  let root : NodeId := ⟨p.nodes.size⟩
  have node (n : NodeId) : q.node n = _ := node_addRoot (p := p) _ m.span n
  have kindRoot : q.kind root = .block [] := by rw [kind, node, if_pos rfl]
  have kindOld {n : NodeId} (known : n.index < p.nodes.size) : q.kind n = p.kind n := by
    rw [kind, node, if_neg, kind]
    intro same
    rw [same] at known
    exact Nat.lt_irrefl _ known
  have symbolOld {v : SymbolId} (known : v.index < p.symbols.size) : q.symbol v = p.symbol v :=
    symbol_addSymbol_of_known _ known
  have nodes : q.nodes.size = p.nodes.size + 1 := Array.size_push ..
  have symbols : q.symbols.size = p.symbols.size + 1 := Array.size_push ..
  have modules : q.modules = p.modules ++ [sym] := rfl
  rw [moduleBlock?_addModule]
  have known : root.index < q.nodes.size := by
    rw [nodes]
    exact Nat.lt_succ_self _
  have outside : List.Forall₂ (Mirrors q) s.scopes [] := spelled.scopes ▸ .nil
  refine inScope_meets ?_
  refine (block_appends (s := { s with program := q, scopes := [] :: s.scopes }) outside rfl
    (items_append m.items) kindRoot known).mono (fun _ t appended => ?_) fun _ => id
  obtain ⟨ids, own, scopes, kindT, builds⟩ := appended
  rw [spelled.scopes] at scopes
  have adds := builds.adds
  refine ⟨by show t.scopes.tail = []; rw [scopes]; rfl, ?_⟩
  show List.Forall₂ _ (done ++ [m]) t.program.modules
  rw [adds.modules, modules]
  refine List.rel_append (spelled.modules.imp fun old v persists => ?_) (.cons ?_ .nil)
  · have knownQ : v.index < q.symbols.size := by
      rw [symbols]
      exact Nat.lt_succ_of_lt persists.known
    refine persists.grow ?_ ?_ (fun n before => ?_) ?_
    · exact Nat.le_trans (Nat.le_of_lt known) adds.nodes_le
    · exact Nat.le_trans (symbols ▸ Nat.le_succ _) adds.symbols_le
    · rw [← kindOld before]
      refine adds.kind (Nat.lt_trans before known) fun member => ?_
      rw [List.mem_singleton.mp member] at before
      exact Nat.lt_irrefl _ before
    · refine (adds.moduleBlock knownQ).trans ?_
      rw [moduleBlock?, symbolOld persists.known, moduleBlock?]
  · have knownSym : sym.index < q.symbols.size := by
      rw [symbols]
      exact Nat.lt_succ_self _
    refine ⟨Nat.lt_of_lt_of_le knownSym adds.symbols_le, root, ids, own,
      (adds.moduleBlock knownSym).trans (moduleBlock?_addModule p m.name m.span), fun r same => ?_⟩
    refine ⟨(same root (Nat.lt_of_lt_of_le known adds.nodes_le)).trans kindT, ?_⟩
    refine builds.spells (fun n _ before _ => same n before) ?_
    rw [scopes]
    exact widens_refl

/-- Lowering the modules one after the other spells all of them. -/
theorem modules_spelled (tree : ProgramTree) :
    Meets (tree.modules.forM moduleTree) {} (Unbound tree.namings) fun _ => Spelled tree.modules := by
  refine (Meets.forM (I := fun rest s => ∃ done, tree.modules = done ++ rest ∧ Spelled done s)
    ⟨[], rfl, rfl, .nil⟩ fun m rest s so => ?_).mono (fun _ s so => ?_) fun _ => id
  · obtain ⟨done, split, spelled⟩ := so
    have listed : m ∈ tree.modules := by
      rw [split]
      exact List.mem_append_right _ List.mem_cons_self
    refine ((moduleTree_spelled spelled m).within fun naming member =>
      List.mem_flatMap.mpr ⟨m, listed, member⟩).mono (fun _ t next => ?_) fun _ => id
    exact ⟨done ++ [m], by rw [split, List.append_assoc]; rfl, next⟩
  · obtain ⟨done, split, spelled⟩ := so
    rw [split, List.append_nil]
    exact spelled

end Lower

namespace ProgramTree

variable {tree : ProgramTree}

theorem error_unbound {e : LowerError} (failed : tree.lower = .error e) :
    Lower.Unbound tree.namings e := by
  have meets := Lower.modules_spelled tree
  unfold Lower.Meets at meets
  rw [lower, StateT.run] at failed
  cases run : tree.modules.forM Lower.moduleTree {} with
  | error e' =>
    rw [run] at failed meets
    cases failed
    exact meets
  | ok pair =>
    rw [run] at failed
    cases failed

/-- A program that lowers spells its modules. -/
theorem lowered_spelled {p : Program} (lowered : tree.lower = .ok p) :
    List.Forall₂ (SpellsModule p) tree.modules p.modules := by
  have meets := Lower.modules_spelled tree
  unfold Lower.Meets at meets
  rw [lower, StateT.run] at lowered
  cases run : tree.modules.forM Lower.moduleTree {} with
  | error e =>
    rw [run] at lowered
    cases lowered
  | ok pair =>
    rw [run] at lowered meets
    cases lowered
    refine meets.modules.imp fun m v persists => ?_
    obtain ⟨root, nodes, frame, found, spells⟩ := persists.spells
    exact ⟨root, nodes, frame, found, spells _ fun _ _ => rfl⟩

end ProgramTree

/-- Lowering binds names lexically. A program that lowers spells its text, so that each name and
each call names the symbol of the declaration that `select` finds for it, and each symbol has no
other definition than the one that is spelled there. If lowering does not know a name, then the
text uses that name where no variable and no formal is what the name stands for. -/
theorem ProgramTree.lower_binds (tree : ProgramTree) :
    match tree.lower with
    | .ok p => List.Forall₂ (SpellsModule p) tree.modules p.modules ∧
        ∀ n v, (p.kind n).defines? = some v → (p.symbol v).decl = some n
    | .error e => ∀ name span, e = .unknownName name span →
        ∃ naming ∈ tree.namings, naming.name = name ∧ naming.span = span ∧
          naming.isBound = false := by
  cases result : tree.lower with
  | error e => exact tree.error_unbound result
  | ok p =>
    have settled := (ProgramTree.lowered result).1
    exact ⟨ProgramTree.lowered_spelled result, fun n v => settled.sound.bound⟩

end MiddleEnd.Surface
