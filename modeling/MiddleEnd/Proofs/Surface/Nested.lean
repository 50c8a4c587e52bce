import MiddleEnd.Proofs.Surface.Sight

/-! Blocks: a block declares types and functions before its first statement, and what it declares is
not seen after it. -/

namespace MiddleEnd.Surface

open Program

namespace Lower

variable {s t u : Lowering} {S : Scope} {outer : List Scope} {visible : List Visible} {span : Span}
  {sort : SymbolSort} {v : SymbolId}

/-! What a block declares beforehand. -/

/-- A symbol was made, and no node. -/
structure Makes (s : Lowering) (sort : SymbolSort) (v : SymbolId) (t : Lowering) : Prop where
  adds : Adds s.program [] t.program
  size : t.program.nodes.size = s.program.nodes.size
  scopes : t.scopes = s.scopes
  known : v.index < t.program.symbols.size
  sorted : (t.program.symbol v).kind.sort = sort

theorem makes_addSymbol (sym : Symbol) :
    Makes s sym.kind.sort (s.program.addSymbol sym).1
      { s with program := (s.program.addSymbol sym).2 } where
  adds := adds_addSymbol sym
  size := rfl
  scopes := rfl
  known := by
    show s.program.symbols.size < (s.program.symbols.push sym).size
    rw [Array.size_push]
    omega
  sorted := by rw [symbol_addSymbol, if_pos rfl]

theorem makes_addTemp (ty : Ty) : Makes s .var (s.program.addTemp ty).1
    { s with program := (s.program.addTemp ty).2 } :=
  makes_addSymbol { name := _, kind := .var, ty := ty, flags := FlagSet.empty.insert .temp }

theorem Makes.relabel (makes : Makes s sort v t) {q : Program} (change : Relabel t.program q) :
    Makes s sort v { t with program := q } where
  adds := makes.adds.trans change.adds
  size := (congrArg Array.size change.nodes).trans makes.size
  scopes := makes.scopes
  known := change.symbols_size ▸ makes.known
  sorted := (change.sort v).trans makes.sorted

theorem Makes.inserts (makes : Makes s sort v t) : Inserts s (fun _ _ => True) t :=
  ⟨⟨makes.adds, makes.scopes ▸ widens_refl, fun _ _ => trivial⟩, makes.scopes⟩

/-- The scope of a block, which was empty, now declares what `items` declare in it beforehand. -/
structure Announces (s : Lowering) (outer : List Scope) (items : List Stmt) (t : Lowering) :
    Prop where
  adds : Adds s.program [] t.program
  size : t.program.nodes.size = s.program.nodes.size
  scope : ∃ S, t.scopes = S :: outer ∧ Mirrors t.program S (items.filterMap Stmt.hoists?)

theorem Announces.declare {items : List Stmt} (announces : Announces s outer items t) {st : Stmt}
    {name : String} (isHoisted : st.hoists? = some (name, sort)) (makes : Makes t sort v u) :
    Meets (declare name v span) u (Unbound []) fun _ => Announces s outer (items ++ [st]) := by
  obtain ⟨S, scopes, mirrors⟩ := announces.scope
  refine declare_meets (makes.scopes.trans scopes) nofun fun missing => ?_
  have declared := (mirrors.adds makes.adds).declare missing makes.known makes.sorted
  refine ⟨announces.adds.trans makes.adds, makes.size.trans announces.size, _, rfl, ?_⟩
  rw [List.filterMap_append, List.filterMap_cons_some isHoisted]
  exact declared

theorem hoistName_announces {items : List Stmt} (announces : Announces s outer items t) (st : Stmt) :
    Meets (hoistName st) t (Unbound []) fun _ => Announces s outer (items ++ [st]) := by
  have plain (silent : st.hoists? = none) : Announces s outer (items ++ [st]) t := by
    have same : (items ++ [st]).filterMap Stmt.hoists? = items.filterMap Stmt.hoists? := by
      simp [silent]
    exact ⟨announces.adds, announces.size, same ▸ announces.scope⟩
  cases st with
  | type span name =>
    refine Meets.build_bind (Meets.change_bind ?_)
    have makes := makes_addSymbol (s := t) { name := name, kind := .type, ty := .unknown }
    refine announces.declare rfl (makes.relabel (relabel_modifySymbol _ _ ?_ ?_ ?_ ?_ ?_))
    all_goals exact fun _ => rfl
  | fn span name formals ret retTag flags body =>
    refine Meets.build_bind (Meets.change_bind ?_)
    let sym : Symbol := { name := name, kind := .fn { retTag := retTag }, ty := .void }
    have makes := (makes_addSymbol (s := t) sym).relabel
      (relabel_attachFlags (t.program.addSymbol sym).1 flags)
    cases ret with
    | none => exact announces.declare rfl makes
    | some ret =>
      refine Meets.change_bind (announces.declare rfl ?_)
      exact makes.relabel (relabel_attachFlag _ _)
  | _ => exact Meets.pure (plain rfl)

theorem hoistReturnType_announces {items : List Stmt} (announces : Announces s outer items t)
    (st : Stmt) : Meets (hoistReturnType st) t (Unbound []) fun _ => Announces s outer items := by
  unfold hoistReturnType
  split
  · refine (ty_meets (fun _ => OfType.unbound) _).bind fun ty u same => ?_
    subst same
    refine Meets.get_bind ?_
    split
    · rename_i sym _
      have change : Relabel u.program (u.program.modifySymbol sym fun s => { s with ty := ty }) := by
        refine relabel_modifySymbol _ _ ?_ ?_ ?_ ?_ ?_
        all_goals exact fun _ => rfl
      obtain ⟨S, scopes, mirrors⟩ := announces.scope
      exact ⟨announces.adds.trans change.adds, (congrArg Array.size change.nodes).trans announces.size,
        S, scopes, mirrors.adds (change.adds : Adds _ [] _)⟩
    · exact Meets.pure announces
  · exact Meets.pure announces

theorem hoist_announces (scopes : s.scopes = [] :: outer) (items : List Stmt) :
    Meets (hoist items) s (Unbound []) fun _ => Announces s outer items := by
  have start : Announces s outer [] s := ⟨.refl, rfl, [], scopes, fun _ => rfl, nofun⟩
  refine Meets.bind (Q := fun _ => Announces s outer items) ?_ fun _ t announces => ?_
  · refine (Meets.forM (I := fun rest t => ∃ done, items = done ++ rest ∧ Announces s outer done t)
      ⟨[], rfl, start⟩ fun st rest t so => ?_).mono (fun _ t so => ?_) fun _ => id
    · obtain ⟨done, split, announces⟩ := so
      refine (hoistName_announces announces st).mono (fun _ u next => ?_) fun _ => id
      exact ⟨done ++ [st], by rw [split, List.append_assoc]; rfl, next⟩
    · obtain ⟨done, split, announces⟩ := so
      rw [split, List.append_nil]
      exact announces
  · exact Meets.forM (I := fun _ => Announces s outer items) announces
      fun st _ t announces => hoistReturnType_announces announces st

/-! Blocks. -/

/-- The statement stands in a block, and what it declares beforehand can be seen there. -/
structure Foreseen (visible : List Visible) (st : Stmt) : Prop where
  inside : visible ≠ []
  hoisted {name : String} {sort : SymbolSort} : st.hoists? = some (name, sort) →
    (visible.head?.bind (·.lookup name)).isSome = true

theorem foreseen_enterBlock {body : List Stmt} {st : Stmt} (member : st ∈ body) :
    Foreseen (enterBlock visible body) st where
  inside := List.cons_ne_nil _ _
  hoisted {name sort} isHoisted := by
    show ((body.filterMap Stmt.hoists?).lookup name).isSome = true
    refine List.lookup_isSome_iff.mpr ⟨(name, sort), ?_, beq_self_eq_true name⟩
    exact List.mem_filterMap.mpr ⟨st, member, isHoisted⟩

theorem Foreseen.seeNext {st other : Stmt} (foreseen : Foreseen visible st) :
    Foreseen (seeNext visible other) st := by
  cases visible with
  | nil => exact absurd rfl foreseen.inside
  | cons D visible =>
    cases other with
    | var span x =>
      refine ⟨List.cons_ne_nil _ _, fun {name sort} isHoisted => ?_⟩
      have here : (D.lookup name).isSome = true := foreseen.hoisted isHoisted
      show ((D ++ [(x, SymbolSort.var)]).lookup name).isSome = true
      rw [List.lookup_append, Option.isSome_or, here]
      rfl
    | _ => exact foreseen

theorem own?_spec {p : Program} {scopes : List Scope}
    (mirrors : List.Forall₂ (Mirrors p) scopes visible) (name : String) :
    (own? scopes name).map (fun v => (p.symbol v).kind.sort) =
      visible.head?.bind (·.lookup name) := by
  cases mirrors with
  | nil => rfl
  | cons here _ => exact here.lookup name

theorem declared_meets (sees : Sees s visible) {name : String}
    (found : (visible.head?.bind (·.lookup name)).isSome = true) :
    Meets (declared name span) s (Unbound []) fun v t => t = s ∧ own? s.scopes name = some v := by
  refine Meets.get_bind ?_
  rw [← own?_spec sees name, Option.isSome_map] at found
  obtain ⟨v, found⟩ := Option.isSome_iff_exists.mp found
  rw [show s.scopes.head?.bind (·.lookup name) = some v from found]
  exact Meets.pure ⟨rfl, found⟩

/-- Statements became nodes of `block`, which had `ids`. -/
structure Appends (s : Lowering) (visible : List Visible) (body : List Stmt) (block : NodeId)
    (ids nodes : List NodeId) (t : Lowering) : Prop where
  builds : Builds s [block] (SpellsItems · · (resolveItems visible body) nodes) t
  kind : t.program.kind block = .block (ids ++ nodes)
  tail : t.scopes.tail = s.scopes.tail

/-- A statement became `nodes`. -/
structure Writes (s : Lowering) (visible : List Visible) (st : Stmt) (nodes : List NodeId)
    (t : Lowering) : Prop where
  builds : Builds s [] (SpellsStmt · · (resolveStmt visible st) nodes) t
  sees : Sees t (seeNext visible st)
  tail : t.scopes.tail = s.scopes.tail

/-- Statements became a block, which may still get more nodes at its end. -/
structure Blocked (s : Lowering) (visible : List Visible) (body : List Stmt) (block : NodeId)
    (nodes : List NodeId) (t : Lowering) : Prop where
  builds : Builds s [block] (fun q frames => ∃ own,
    SpellsItems q (own :: frames) (resolveItems (enterBlock visible body) body) nodes) t
  kind : t.program.kind block = .block nodes
  new : s.program.nodes.size ≤ block.index
  known : block.index < t.program.nodes.size
  scopes : t.scopes = s.scopes

theorem Blocked.close {body : List Stmt} {block : NodeId} {nodes : List NodeId}
    (blocked : Blocked s visible body block nodes t) :
    Inserts s (fun q frames => q.kind block = .block nodes ∧ ∃ own,
      SpellsItems q (own :: frames) (resolveItems (enterBlock visible body) body) nodes) t := by
  refine ⟨(blocked.builds.close blocked.new blocked.known).mono fun q frames both => ?_,
    blocked.scopes⟩
  exact ⟨both.2.trans blocked.kind, both.1⟩

theorem Appends.scopes {body : List Stmt} {block : NodeId} {ids nodes : List NodeId}
    (appends : Appends s visible body block ids nodes t) (inside : s.scopes = S :: outer) :
    ∃ own, t.scopes = own :: outer := by
  have widens := appends.builds.widens
  have tail := appends.tail
  rw [inside] at widens tail
  obtain ⟨own, outside, _, _, equal⟩ := List.forall₂_cons_left_iff.mp widens
  rw [equal] at tail
  exact ⟨own, equal.trans (congrArg (own :: ·) tail)⟩

/-- Statements can be lowered to the end of a block from whose place `visible` can be seen. -/
def Appendable (visible : List Visible) (body : List Stmt) : Prop :=
  ∀ {s : Lowering} {block : NodeId} {ids : List NodeId}, Sees s visible →
    (∀ st ∈ body, Foreseen visible st) → s.program.kind block = .block ids →
    block.index < s.program.nodes.size →
    Meets (items body block) s (Unbound (Resolved.namingsIn (resolveItems visible body)))
      fun _ t => ∃ nodes, Appends s visible body block ids nodes t

/-- The statements of a block come after what the block declares beforehand. -/
theorem block_appends (sees : List.Forall₂ (Mirrors s.program) outer visible)
    (scopes : s.scopes = [] :: outer) {body : List Stmt}
    (appendable : Appendable (enterBlock visible body) body) {block : NodeId}
    (kind : s.program.kind block = .block []) (known : block.index < s.program.nodes.size) :
    Meets (do hoist body; items body block) s
      (Unbound (Resolved.namingsIn (resolveItems (enterBlock visible body) body)))
      fun _ t => ∃ nodes own, t.scopes = own :: outer ∧ t.program.kind block = .block nodes ∧
        Builds s [block] (SpellsItems · · (resolveItems (enterBlock visible body) body) nodes) t := by
  refine Meets.bind ((hoist_announces scopes body).within (List.nil_subset _)) fun _ t announces => ?_
  obtain ⟨S, inside, mirrors⟩ := announces.scope
  have seesT : Sees t (enterBlock visible body) := by
    unfold Sees
    rw [inside]
    exact .cons mirrors (sees.imp fun _ _ mirrors => mirrors.adds announces.adds)
  have kindT : t.program.kind block = .block [] :=
    (announces.adds.kind known List.not_mem_nil).trans kind
  refine (appendable seesT (fun st member => foreseen_enterBlock member) kindT
    (announces.size ▸ known)).mono (fun _ u appended => ?_) fun _ => id
  obtain ⟨nodes, appends⟩ := appended
  obtain ⟨own, scopesU⟩ := appends.scopes inside
  have before : Builds s [block] (fun _ _ => True) t := by
    refine ⟨announces.adds.mono (List.nil_subset _), ?_, fun _ _ => trivial⟩
    rw [scopes, inside]
    exact .cons ⟨List.nil_subset _, nofun⟩ widens_refl
  exact ⟨nodes, own, scopesU, appends.kind,
    (before.trans appends.builds).mono fun q frames both => both.2⟩

theorem inBlock_blocked (sees : Sees s visible) {body : List Stmt}
    (appendable : Appendable (enterBlock visible body) body) :
    Meets (inBlock body span fun block => items body block) s
      (Unbound (Resolved.namingsIn (resolveItems (enterBlock visible body) body)))
      fun block t => ∃ nodes, Blocked s visible body block nodes t := by
  refine Meets.build_bind ?_
  let q := (s.program.addNode (.block []) span).2
  let block : NodeId := ⟨s.program.nodes.size⟩
  have size : q.nodes.size = s.program.nodes.size + 1 := (size_addNode (.block []) span).1
  have known : block.index < q.nodes.size := by
    rw [size]
    exact Nat.lt_succ_self _
  have kind : q.kind block = .block [] := (kind_addNode (.block []) span block).trans (if_pos rfl)
  have made : Adds s.program [block] q := adds_addNode (.block []) span
  -- The block itself is still open, so nothing is said about it yet.
  have start : Builds s [block] (fun _ _ => True) { s with program := q } :=
    ⟨made, widens_refl, fun _ _ => trivial⟩
  refine Meets.bind (Q := fun _ t => ∃ nodes, Blocked s visible body block nodes t)
    (inScope_meets ?_) fun _ t blocked => Meets.pure blocked
  refine (block_appends (sees.imp fun _ _ mirrors => mirrors.adds made) rfl appendable kind
    known).mono (fun _ u appended => ?_) fun _ => id
  obtain ⟨nodes, own, scopes, kindU, builds⟩ := appended
  have left := builds.leave { s with program := q } s.function u.function scopes
  refine ⟨nodes, (start.trans left).mono fun q frames both => ⟨own, both.2⟩, kindU, Nat.le_refl _,
    Nat.lt_of_lt_of_le known builds.adds.nodes_le, ?_⟩
  show u.scopes.tail = s.scopes
  rw [scopes]
  rfl

end Lower

end MiddleEnd.Surface
