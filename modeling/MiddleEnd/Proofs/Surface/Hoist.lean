import MiddleEnd.Proofs.Surface.Build

namespace MiddleEnd.Surface

open Program

/-- The name that the block of a statement declares beforehand, and the sort of its symbol. -/
def Stmt.hoists? : Stmt → Option (String × SymbolSort)
  | .type _ name => some (name, .type)
  | .fn _ name .. => some (name, .fn)
  | _ => none

namespace Lower

variable {s t u : Lowering} {S S' : Scope} {outer : List Scope} {span : Span}

/-! New symbols and scopes. -/

theorem Ready.of_grows (ready : Ready s) (settled : t.program.Settled)
    (grows : Grows s.program [] [] t.program) (nodes : t.program.nodes = s.program.nodes)
    (registries : t.program.registries = s.program.registries) (scopes : t.scopes = s.scopes) :
    Ready t where
  settled := settled
  ordered := ready.ordered.grow grows ready.settled.sound settled.sound nofun registries
  valued n v defined live equal := by
    rw [Live, node_of_nodes nodes] at live
    rw [kind, node_of_nodes nodes] at equal
    have known := (ready.settled.lawful live).defines_known (s := v) (by rw [kind, equal]; rfl)
    rw [Symbol.isValue_iff, grows.sort known, ← Symbol.isValue_iff]
    exact ready.valued n v defined live equal
  known v member := by
    rw [scopes] at member
    exact grows.known (ready.known v member)

theorem Ready.relabel (ready : Ready s) {q : Program} (change : Relabel s.program q) :
    Ready { s with program := q } :=
  ready.of_grows (change.settled ready.settled) change.grows change.nodes change.registries rfl

/-- A symbol that comes into being. -/
structure Fresh (s : Lowering) (sort : SymbolSort) (v : SymbolId) (t : Lowering) : Prop where
  ready : Ready t
  grows : Grows s.program [] [] t.program
  scopes : t.scopes = s.scopes
  new : s.program.symbols.size ≤ v.index
  known : v.index < t.program.symbols.size
  sort_eq : (t.program.symbol v).kind.sort = sort
  decl : (t.program.symbol v).decl = none

theorem fresh_addSymbol (ready : Ready s) (sym : Symbol) (live : sym.live = true)
    (uncalled : sym.callers = []) (decl : sym.decl = none) :
    Fresh s sym.kind.sort (s.program.addSymbol sym).1
      { s with program := (s.program.addSymbol sym).2 } := by
  have found : (s.program.addSymbol sym).2.symbol (s.program.addSymbol sym).1 = sym := by
    rw [symbol_addSymbol, if_pos rfl]
  have grows := grows_addSymbol ready.settled.sound.rooted sym
  exact
    { ready := ready.of_grows (ready.settled.addSymbol live uncalled) grows rfl rfl rfl
      grows := grows
      scopes := rfl
      new := Nat.le_refl _
      known := by
        show s.program.symbols.size < (s.program.symbols.push sym).size
        rw [Array.size_push]
        omega
      sort_eq := by rw [found]
      decl := by rw [found, decl] }

theorem fresh_addTemp (ready : Ready s) (ty : Ty) :
    Fresh s .var (s.program.addTemp ty).1 { s with program := (s.program.addTemp ty).2 } := by
  let flags := FlagSet.empty.insert .temp
  exact fresh_addSymbol ready { name := _, kind := .var, ty := ty, flags := flags } rfl rfl rfl

theorem Fresh.relabel {sort : SymbolSort} {v : SymbolId} (fresh : Fresh s sort v t) {q : Program}
    (change : Relabel t.program q) : Fresh s sort v { t with program := q } where
  ready := fresh.ready.relabel change
  grows := fresh.grows.after change.grows
  scopes := fresh.scopes
  new := fresh.new
  known := change.symbols_size ▸ fresh.known
  sort_eq := by rw [change.sort, fresh.sort_eq]
  decl := by rw [change.decl, fresh.decl]

theorem declaredIn_cons : declaredIn (S :: outer) = S.map Prod.snd ++ declaredIn outer := rfl

theorem Ready.declare (ready : Ready s) (scopes : s.scopes = S :: outer) (name : String)
    {v : SymbolId} (known : v.index < s.program.symbols.size) :
    Ready { s with scopes := ((name, v) :: S) :: outer } where
  settled := ready.settled
  valued := ready.valued
  ordered := ready.ordered
  known w member := by
    rw [declaredIn_cons, List.map_cons, List.cons_append] at member
    rcases List.mem_cons.mp member with rfl | member
    · exact known
    · exact ready.known w (by rw [scopes]; exact member)

theorem declare_meets {E : LowerError → Prop} {Q : Unit → Lowering → Prop}
    (scopes : s.scopes = S :: outer) {name : String} {v : SymbolId}
    (twice : E (.duplicate name span))
    (done : S.lookup name = none → Q () { s with scopes := ((name, v) :: S) :: outer }) :
    Meets (declare name v span) s E Q := by
  refine Meets.get_bind ?_
  rw [scopes]
  show Meets (if (S.lookup name).isSome then _ else _) s E Q
  split
  · exact Meets.throw twice
  · rename_i missing
    exact done (Option.not_isSome_iff_eq_none.mp missing)

theorem declare_ends {Q : Unit → Lowering → Prop} (scopes : s.scopes = S :: outer) {name : String}
    {v : SymbolId}
    (done : S.lookup name = none → Q () { s with scopes := ((name, v) :: S) :: outer }) :
    Ends (declare name v span) s Q := declare_meets scopes nofun done

theorem inScope_meets {α : Type} {E : LowerError → Prop} {inner : Lower α}
    {Q : α → Lowering → Prop} (meets : Meets inner { s with scopes := [] :: s.scopes } E fun a t =>
      Q a { t with scopes := t.scopes.tail }) : Meets (inScope inner) s E Q :=
  Meets.modify_bind (meets.bind fun _ _ done => Meets.modify_bind (Meets.pure done))

theorem inScope_ends {α : Type} {inner : Lower α} {Q : α → Lowering → Prop}
    (ends : Ends inner { s with scopes := [] :: s.scopes } fun a t =>
      Q a { t with scopes := t.scopes.tail }) : Ends (inScope inner) s Q := inScope_meets ends

theorem inFunction_meets {α : Type} {E : LowerError → Prop} {f : SymbolId} {inner : Lower α}
    {Q : α → Lowering → Prop} (meets : Meets inner { s with function := some f } E fun a t =>
      Q a { t with function := s.function }) : Meets (inFunction f inner) s E Q :=
  Meets.get_bind (Meets.modify_bind (meets.bind fun _ _ done => Meets.modify_bind (Meets.pure done)))

theorem inFunction_ends {α : Type} {f : SymbolId} {inner : Lower α} {Q : α → Lowering → Prop}
    (ends : Ends inner { s with function := some f } fun a t =>
      Q a { t with function := s.function }) : Ends (inFunction f inner) s Q := inFunction_meets ends

theorem Ready.enter (ready : Ready s) : Ready { s with scopes := [] :: s.scopes } :=
  ⟨ready.settled, ready.valued, ready.ordered, ready.known⟩

/-! The text of a type. -/

/-- An error of a type's text. -/
def OfType (e : LowerError) : Prop :=
  ∃ name span, e = .malformedType name span ∨ e = .unknownType name span

theorem OfType.faultless {e : LowerError} (ofType : OfType e) (fault : EditError) :
    e ≠ .arena fault := by
  obtain ⟨_, _, rfl | rfl⟩ := ofType <;> exact nofun

theorem typeOf_ofType (named? : String → Option SymbolId) (rounds : Nat) (text : List Char)
    {e : LowerError} (failed : typeOf named? span rounds text = .error e) : OfType e := by
  induction rounds generalizing text e with
  | zero =>
    cases failed
    exact ⟨_, _, .inl rfl⟩
  | succ rounds ih =>
    rw [typeOf] at failed
    split at failed
    · rename_i inner _
      cases nested : typeOf named? span rounds inner with
      | error e' =>
        rw [nested] at failed
        cases failed
        exact ih inner nested
      | ok ty =>
        rw [nested] at failed
        simp only [bind, Except.bind] at failed
        split at failed <;> cases failed
        exact ⟨_, _, .inl rfl⟩
    · repeat' split at failed
      all_goals cases failed
      · exact ⟨_, _, .inl rfl⟩
      · exact ⟨_, _, .inr rfl⟩

theorem ty_meets {E : LowerError → Prop} (within : ∀ e, OfType e → E e) (text : String) :
    Meets (ty text span) s E fun _ t => t = s := by
  refine Meets.get_bind ?_
  simp only
  split
  · exact Meets.pure rfl
  · rename_i e failed
    exact Meets.throw (within e (typeOf_ofType _ _ _ failed))

theorem ty_ends (text : String) : Ends (ty text span) s fun _ t => t = s :=
  ty_meets (fun _ => OfType.faultless) text

theorem optionalTy_meets {E : LowerError → Prop} (within : ∀ e, OfType e → E e)
    (text : Option String) : Meets (optionalTy text span) s E fun _ t => t = s := by
  cases text with
  | none => exact Meets.pure rfl
  | some text => exact ty_meets within text

theorem optionalTy_ends (text : Option String) : Ends (optionalTy text span) s fun _ t => t = s :=
  optionalTy_meets (fun _ => OfType.faultless) text

/-! What a block declares before its first statement. -/

/-- The symbol that was declared for a statement beforehand. -/
def ownSymbol? (S : Scope) (st : Stmt) : Option SymbolId := st.hoists?.bind fun (name, _) => S.lookup name

/-- The symbol of the statement waits for its definition. -/
def Announced (p : Program) (S : Scope) (st : Stmt) : Prop :=
  ∀ name sort, st.hoists? = some (name, sort) → ∃ v, S.lookup name = some v ∧
    v.index < p.symbols.size ∧ (p.symbol v).kind.sort = sort ∧ (p.symbol v).decl = none

/-- The symbols of the statements wait for their definitions, each for one. -/
structure Hoisted (p : Program) (S : Scope) (items : List Stmt) : Prop where
  announced : ∀ st ∈ items, Announced p S st
  distinct : (items.filterMap (ownSymbol? S)).Nodup

/-- The scope still says what it said. -/
structure Widens (S S' : Scope) : Prop where
  subset : S ⊆ S'
  lookup : ∀ name v, S.lookup name = some v → S'.lookup name = some v

theorem Widens.refl : Widens S S := ⟨List.Subset.refl _, fun _ _ => id⟩

theorem Widens.cons {name : String} {v : SymbolId} (missing : S.lookup name = none) :
    Widens S ((name, v) :: S) := by
  refine ⟨List.subset_cons_self _ _, fun other w found => ?_⟩
  have different : other ≠ name := by
    rintro rfl
    rw [missing] at found
    cases found
  rwa [List.lookup_cons, beq_eq_false_iff_ne.mpr different]

theorem Announced.ownSymbol? {p : Program} {st : Stmt} (announced : Announced p S st)
    (widens : Widens S S') : ownSymbol? S' st = Lower.ownSymbol? S st := by
  unfold Lower.ownSymbol?
  cases hoists : st.hoists? with
  | none => rfl
  | some pair =>
    obtain ⟨v, found, _⟩ := announced _ _ hoists
    show S'.lookup pair.1 = S.lookup pair.1
    rw [found, widens.lookup _ _ found]

theorem Announced.grow {p q : Program} {st : Stmt} {touched : List NodeId} {claimed : List SymbolId}
    (announced : Announced p S st) (grows : Grows p touched claimed q) (widens : Widens S S')
    (apart : ∀ v, Lower.ownSymbol? S st = some v → v ∉ claimed) : Announced q S' st := by
  intro name sort hoists
  obtain ⟨v, found, known, sorted, decl⟩ := announced name sort hoists
  have own : Lower.ownSymbol? S st = some v := by rw [Lower.ownSymbol?, hoists]; exact found
  refine ⟨v, widens.lookup _ _ found, grows.known known, ?_, ?_⟩
  · rw [grows.sort known, sorted]
  · rw [grows.decl known (apart v own), decl]

theorem Hoisted.waits {p : Program} {items : List Stmt} (hoisted : Hoisted p S items) {v : SymbolId}
    (member : v ∈ items.filterMap (ownSymbol? S)) :
    v.index < p.symbols.size ∧ (p.symbol v).decl = none := by
  obtain ⟨st, listed, own⟩ := List.mem_filterMap.mp member
  obtain ⟨⟨name, sort⟩, hoists, found⟩ := Option.bind_eq_some_iff.mp own
  obtain ⟨w, found', known, _, decl⟩ := hoisted.announced st listed name sort hoists
  cases Option.some.inj (found.symm.trans found')
  exact ⟨known, decl⟩

theorem Hoisted.filterMap_eq {p : Program} {items : List Stmt} (hoisted : Hoisted p S items)
    (widens : Widens S S') : items.filterMap (ownSymbol? S') = items.filterMap (ownSymbol? S) :=
  List.filterMap_congr fun st member => (hoisted.announced st member).ownSymbol? widens

theorem Hoisted.grow {p q : Program} {items : List Stmt} {touched : List NodeId}
    {claimed : List SymbolId} (hoisted : Hoisted p S items) (grows : Grows p touched claimed q)
    (widens : Widens S S') (apart : ∀ v ∈ items.filterMap (ownSymbol? S), v ∉ claimed) :
    Hoisted q S' items where
  announced st member := (hoisted.announced st member).grow grows widens fun v own =>
    apart v (List.mem_filterMap.mpr ⟨st, member, own⟩)
  distinct := hoisted.filterMap_eq widens ▸ hoisted.distinct

/-- What hoisting the statements `items` into an empty scope ends with. -/
structure Hoists (s : Lowering) (outer : List Scope) (items : List Stmt) (S : Scope) (t : Lowering) :
    Prop where
  ready : Ready t
  grows : Grows s.program [] [] t.program
  scopes : t.scopes = S :: outer
  hoisted : Hoisted t.program S items
  own : ∀ v ∈ S.map Prod.snd, v ∈ items.filterMap (ownSymbol? S)
  new : ∀ v ∈ S.map Prod.snd, s.program.symbols.size ≤ v.index

theorem Hoists.relabel {items : List Stmt} (hoists : Hoists s outer items S t) {q : Program}
    (change : Relabel t.program q) : Hoists s outer items S { t with program := q } where
  ready := hoists.ready.relabel change
  grows := hoists.grows.after change.grows
  scopes := hoists.scopes
  hoisted := hoists.hoisted.grow change.grows .refl fun _ _ => List.not_mem_nil
  own := hoists.own
  new := hoists.new

/-- One more statement, with a new symbol. -/
theorem Hoists.declare {items : List Stmt} (hoists : Hoists s outer items S t) {st : Stmt}
    {name : String} {sort : SymbolSort} {v : SymbolId} (isHoisted : st.hoists? = some (name, sort))
    (fresh : Fresh t sort v u) :
    Ends (declare name v span) u fun _ w => ∃ S', Hoists s outer (items ++ [st]) S' w := by
  have scopes : u.scopes = S :: outer := fresh.scopes.trans hoists.scopes
  refine declare_ends scopes fun missing => ⟨(name, v) :: S, ?_⟩
  have widens : Widens S ((name, v) :: S) := .cons missing
  have own : ownSymbol? ((name, v) :: S) st = some v := by
    rw [ownSymbol?, isHoisted]
    exact List.lookup_cons_self
  have symbols : (items ++ [st]).filterMap (ownSymbol? ((name, v) :: S)) =
      items.filterMap (ownSymbol? S) ++ [v] := by
    rw [List.filterMap_append, hoists.hoisted.filterMap_eq widens]
    simp [own]
  have before := hoists.hoisted.grow fresh.grows widens fun _ _ => List.not_mem_nil
  exact
    { ready := fresh.ready.declare scopes name fresh.known
      grows := hoists.grows.after fresh.grows
      scopes := rfl
      hoisted :=
        { announced := fun st' member => by
            rcases List.mem_append.mp member with old | added
            · exact before.announced st' old
            · cases List.mem_singleton.mp added
              intro name' sort' hoists'
              cases isHoisted.symm.trans hoists'
              exact ⟨v, List.lookup_cons_self, fresh.known, fresh.sort_eq, fresh.decl⟩
          distinct := by
            rw [symbols]
            refine List.nodup_append'.mpr ⟨hoists.hoisted.distinct, List.nodup_singleton v, ?_⟩
            intro w old added
            cases List.mem_singleton.mp added
            have known := (hoists.hoisted.waits old).1
            have new := fresh.new
            omega }
      own := fun w member => by
        rw [symbols]
        rcases List.mem_cons.mp member with rfl | old
        · exact List.mem_append_right _ (List.mem_singleton.mpr rfl)
        · exact List.mem_append_left _ (hoists.own w old)
      new := fun w member => by
        rcases List.mem_cons.mp member with rfl | old
        · exact hoists.grows.symbols_le.trans fresh.new
        · exact hoists.new w old }

theorem Hoists.skip {items : List Stmt} (hoists : Hoists s outer items S t) {st : Stmt}
    (plain : st.hoists? = none) : Hoists s outer (items ++ [st]) S t := by
  have silent : ownSymbol? S st = none := by rw [ownSymbol?, plain]; rfl
  have symbols : (items ++ [st]).filterMap (ownSymbol? S) = items.filterMap (ownSymbol? S) := by
    simp [silent]
  exact
    { hoists with
      hoisted :=
        { announced := fun st' member => by
            rcases List.mem_append.mp member with old | added
            · exact hoists.hoisted.announced st' old
            · cases List.mem_singleton.mp added
              intro name sort found
              rw [plain] at found
              cases found
          distinct := symbols ▸ hoists.hoisted.distinct }
      own := symbols ▸ hoists.own }

theorem hoistName_ends {items : List Stmt} (hoists : Hoists s outer items S t) (st : Stmt) :
    Ends (hoistName st) t fun _ u => ∃ S', Hoists s outer (items ++ [st]) S' u := by
  cases st with
  | type span name =>
    refine Ends.build_bind (Ends.change_bind ?_)
    have fresh := fresh_addSymbol hoists.ready { name := name, kind := .type, ty := .unknown } rfl rfl
      rfl
    refine hoists.declare rfl (fresh.relabel (relabel_modifySymbol _ _ ?_ ?_ ?_ ?_ ?_))
    all_goals exact fun _ => rfl
  | fn span name formals ret retTag flags body =>
    refine Ends.build_bind (Ends.change_bind ?_)
    let sym : Symbol := { name := name, kind := .fn { retTag := retTag }, ty := .void }
    have fresh := (fresh_addSymbol hoists.ready sym rfl rfl rfl).relabel
      (relabel_attachFlags (t.program.addSymbol sym).1 flags)
    cases ret with
    | none => exact hoists.declare rfl fresh
    | some ret =>
      refine Ends.change_bind (hoists.declare rfl ?_)
      exact fresh.relabel (relabel_attachFlag _ _)
  | _ => exact Ends.pure ⟨S, hoists.skip rfl⟩

theorem hoistReturnType_ends {items : List Stmt} (hoists : Hoists s outer items S t) (st : Stmt) :
    Ends (hoistReturnType st) t fun _ u => Hoists s outer items S u := by
  unfold hoistReturnType
  split
  · refine (ty_ends _).bind ?_
    rintro ty _ rfl
    refine Ends.get_bind ?_
    split
    · refine hoists.relabel (relabel_modifySymbol _ _ ?_ ?_ ?_ ?_ ?_)
      all_goals exact fun _ => rfl
    · exact Ends.pure hoists
  · exact Ends.pure hoists

theorem hoist_ends (ready : Ready s) (scopes : s.scopes = [] :: outer) (items : List Stmt) :
    Ends (hoist items) s fun _ t => ∃ S, Hoists s outer items S t := by
  have start : Hoists s outer [] [] s :=
    { ready := ready
      grows := .refl
      scopes := scopes
      hoisted := ⟨nofun, List.nodup_nil⟩
      own := nofun
      new := nofun }
  refine Ends.bind (Ends.forM
    (I := fun rest t => ∃ done S, done ++ rest = items ∧ Hoists s outer done S t)
    ⟨[], [], rfl, start⟩ ?_) ?_
  · rintro st rest t ⟨done, S, rfl, hoists⟩
    refine (hoistName_ends hoists st).mono fun _ u => ?_
    rintro ⟨S', hoists⟩
    exact ⟨_, S', by simp, hoists⟩
  · rintro _ t ⟨done, S, rfl, hoists⟩
    rw [List.append_nil]
    refine (Ends.forM (I := fun _ t => Hoists s outer done S t) hoists ?_).mono
      fun _ u hoists => ⟨S, hoists⟩
    exact fun st _ t hoists => hoistReturnType_ends hoists st

end Lower

end MiddleEnd.Surface
