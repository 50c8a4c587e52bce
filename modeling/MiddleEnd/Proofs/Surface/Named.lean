import MiddleEnd.Proofs.Arena.Confined
import MiddleEnd.Proofs.Surface.Labels
import MiddleEnd.Proofs.Surface.Linked
import MiddleEnd.Proofs.Surface.Sight

/-! No name is declared twice: what lowering puts below one node is declared in one scope. -/

namespace MiddleEnd

namespace Program

variable {p q r : Program}

/-- Functions, types and formals that are defined side by side have different names. -/
def UniquelyNamed (p : Program) : Prop :=
  ∀ ⦃o c d : NodeId⦄ ⦃v w : SymbolId⦄, c ∈ p.children o → d ∈ p.children o →
    (p.kind c).defines? = some v → (p.kind d).defines? = some w →
    (p.symbol v).kind.sort ≠ .var → (p.symbol w).kind.sort ≠ .var → p.name v = p.name w → v = w

/-- Binding calls declares nothing. -/
theorem UniquelyNamed.retarget (unique : p.UniquelyNamed) (change : p.Retarget q) :
    q.UniquelyNamed := by
  intro o c d v w childC childD definesV definesW sortV sortW same
  rw [change.children] at childC childD
  rw [change.defines] at definesV definesW
  rw [Symbol.sort_of_core (change.core _)] at sortV sortW
  rw [name, name, Symbol.name_of_core (change.core v), Symbol.name_of_core (change.core w)] at same
  exact unique childC childD definesV definesW sortV sortW same

/-! What lowering does to names. -/

theorem name_adopt (owner node : NodeId) (s : SymbolId) :
    (p.adopt owner node).name s = p.name s := by
  have touched (scope : Option SymbolId) (t : Program) : (t.touch scope).name s = t.name s := by
    rw [name, symbol_touch, name]
  have entered (t : Program) :
      (if t.isAttached owner then t.registerSubtree node else t).name s = t.name s := by
    split <;> rfl
  have rescoped (depth : Nat) (scope : Option SymbolId) (t : Program) :
      (rescope depth node scope t).name s = t.name s := by
    rw [name, symbol_of_symbols (symbols_rescope ..), name]
  rw [adopt, touched, entered, rescoped]
  rfl

/-- Symbols were added or got types and flags, and nothing else happened. -/
structure Dresses (p q : Program) : Prop extends Steady p q where
  nodes : q.nodes = p.nodes
  name {v : SymbolId} : v.index < p.symbols.size → q.name v = p.name v

theorem Dresses.refl : Dresses p p := ⟨.refl, rfl, fun _ => rfl⟩

theorem Dresses.trans (first : Dresses p q) (second : Dresses q r) : Dresses p r where
  toSteady := first.toSteady.trans second.toSteady
  nodes := second.nodes.trans first.nodes
  name known := (second.name (known.trans_le first.symbols_size)).trans (first.name known)

theorem dresses_addSymbol (sym : Symbol) : Dresses p (p.addSymbol sym).2 where
  symbols_size := by simp [addSymbol]
  sort known := by rw [symbol_addSymbol_of_known sym known]
  nodes := rfl
  name known := by rw [name, symbol_addSymbol_of_known sym known, name]

theorem dresses_modifySymbol (v : SymbolId) {change : Symbol → Symbol}
    (names : ∀ sym, (change sym).name = sym.name)
    (sorts : ∀ sym, (change sym).kind.sort = sym.kind.sort) :
    Dresses p (p.modifySymbol v change) where
  symbols_size := (size_modifySymbol ..).ge
  sort _ := by
    rw [symbol_modifySymbol]
    split
    · exact sorts _
    · rfl
  nodes := rfl
  name _ := by
    rw [name, symbol_modifySymbol]
    split
    · exact names _
    · rfl

theorem dresses_attachFlags (v : SymbolId) (flags : List Flag) :
    Dresses p (p.attachFlags v flags) := by
  unfold attachFlags
  induction flags generalizing p with
  | nil => exact .refl
  | cons flag flags ih =>
    have first : Dresses p (p.attachFlag v flag) :=
      dresses_modifySymbol v (fun _ => rfl) fun _ => rfl
    exact first.trans ih

theorem node_addModule (name : String) (span : Span) (n : NodeId) :
    (p.addModule name span).2.node n = if n = ⟨p.nodes.size⟩ then
      { kind := .block [], span := span, scope := some ⟨p.symbols.size⟩ } else p.node n :=
  node_push _ n

end Program

namespace Surface.Lower

open Program

variable {α β : Type} {s t u : Lowering} {touched : List NodeId} {frames frames' : List Scope}
  {n : NodeId}

/-! The invariant. -/

/-- The symbol that `n` defines is a variable, or the innermost scope declares it under its name. -/
structure Fits (p : Program) (frames : List Scope) (n : NodeId) : Prop where
  known : n.index < p.nodes.size
  own {v : SymbolId} : (p.kind n).defines? = some v → v.index < p.symbols.size ∧
    ((p.symbol v).kind.sort ≠ .var → own? frames (p.name v) = some v)

/-- Scopes know symbols by their names, and what stands below one node is declared in one scope. -/
structure Named (s : Lowering) : Prop where
  entry {S : Scope} {x : String} {v : SymbolId} : S ∈ s.scopes → (x, v) ∈ S →
    v.index < s.program.symbols.size ∧ s.program.name v = x
  covered (o : NodeId) : ∃ frames, ∀ c ∈ s.program.children o, Fits s.program frames c

theorem Named.uniquelyNamed (named : Named s) : s.program.UniquelyNamed := by
  intro o c d v w childC childD definesV definesW sortV sortW same
  obtain ⟨frames, fits⟩ := named.covered o
  have first := ((fits c childC).own definesV).2 sortV
  have second := ((fits d childD).own definesW).2 sortW
  rw [same] at first
  exact Option.some.inj (first.symm.trans second)

/-- On the way from `s` to `t` nodes that were there stay what they are. Only those at `touched` may
get children that define something. -/
structure Advances (s : Lowering) (touched : List NodeId) (t : Lowering) : Prop
    extends Steady s.program t.program where
  name {v : SymbolId} : v.index < s.program.symbols.size → t.program.name v = s.program.name v
  size : s.program.nodes.size ≤ t.program.nodes.size
  defines {n : NodeId} : n.index < s.program.nodes.size →
    (t.program.kind n).defines? = (s.program.kind n).defines?
  children {o : NodeId} : o.index < s.program.nodes.size → o ∉ touched →
    ∀ c ∈ t.program.children o, c ∈ s.program.children o ∨
      c.index < t.program.nodes.size ∧ (t.program.kind c).defines? = none
  widens : List.Forall₂ Widens s.scopes t.scopes

theorem Fits.of_defines_none {p : Program} (known : n.index < p.nodes.size)
    (nothing : (p.kind n).defines? = none) : Fits p frames n :=
  ⟨known, fun defines => by rw [nothing] at defines; cases defines⟩

namespace Advances

theorem of_dresses {p : Program} (dresses : Dresses s.program p) :
    Advances s touched { s with program := p } where
  toSteady := dresses.toSteady
  name := dresses.name
  size := (congrArg Array.size dresses.nodes).ge
  defines _ := by rw [kind, node_of_nodes dresses.nodes, kind]
  children {o} _ _ c child := .inl (by rwa [Program.children, kind, node_of_nodes dresses.nodes] at child)
  widens := widens_refl

theorem refl : Advances s touched s := of_dresses .refl

theorem trans (first : Advances s touched t) (second : Advances t touched u) :
    Advances s touched u where
  toSteady := first.toSteady.trans second.toSteady
  name known := (second.name (known.trans_le first.symbols_size)).trans (first.name known)
  size := first.size.trans second.size
  defines known := (second.defines (known.trans_le first.size)).trans (first.defines known)
  children {o} known apart c child := by
    rcases second.children (known.trans_le first.size) apart c child with old | new
    · refine (first.children known apart c old).imp_right fun new => ?_
      exact ⟨new.1.trans_le second.size, (second.defines new.1).trans new.2⟩
    · exact .inr new
  widens := widens_trans first.widens second.widens

theorem mono {touched' : List NodeId} (advances : Advances s touched t)
    (wider : touched ⊆ touched') : Advances s touched' t :=
  { advances with children := fun known apart =>
      advances.children known fun member => apart (wider member) }

/-- A block that was not there before is no longer touched once it is done. -/
theorem close {block : NodeId} (advances : Advances s [block] t)
    (new : s.program.nodes.size ≤ block.index) : Advances s [] t :=
  { advances with
    children := fun {o} known _ => advances.children known fun member => by
      cases List.mem_singleton.mp member
      omega }

theorem fits (advances : Advances s touched t) (wider : List.Forall₂ Widens frames frames')
    (fits : Fits s.program frames n) : Fits t.program frames' n where
  known := fits.known.trans_le advances.size
  own {v} defines := by
    rw [advances.defines fits.known] at defines
    obtain ⟨known, own⟩ := fits.own defines
    refine ⟨known.trans_le advances.symbols_size, fun sort => ?_⟩
    rw [advances.sort known] at sort
    rw [advances.name known]
    exact own?_of_widens wider (own sort)

/-- What stands below a node that is not touched is still declared in one scope. -/
theorem fits_children (advances : Advances s touched t)
    (wider : List.Forall₂ Widens frames frames') {o : NodeId}
    (known : o.index < s.program.nodes.size) (apart : o ∉ touched)
    (fits : ∀ c ∈ s.program.children o, Fits s.program frames c) :
    ∀ c ∈ t.program.children o, Fits t.program frames' c := by
  intro c child
  rcases advances.children known apart c child with old | ⟨knownC, nothing⟩
  · exact advances.fits wider (fits c old)
  · exact .of_defines_none knownC nothing

theorem named (advances : Advances s touched t) (named : Named s) (scopes : t.scopes = s.scopes)
    (rest : ∀ o : NodeId, o ∈ touched ∨ s.program.nodes.size ≤ o.index →
      ∃ frames, ∀ c ∈ t.program.children o, Fits t.program frames c) : Named t where
  entry inside member := by
    obtain ⟨known, same⟩ := named.entry (scopes ▸ inside) member
    exact ⟨known.trans_le advances.symbols_size, (advances.name known).trans same⟩
  covered o := by
    by_cases other : o ∈ touched ∨ s.program.nodes.size ≤ o.index
    · exact rest o other
    · rw [not_or, Nat.not_le] at other
      obtain ⟨frames, fits⟩ := named.covered o
      exact ⟨frames, advances.fits_children widens_refl other.2 other.1 fits⟩

/-- What was done in a scope of its own, after that scope is left. -/
theorem leave (advances : Advances { s with scopes := [] :: s.scopes } touched t) :
    Advances s touched { t with scopes := t.scopes.tail } :=
  { advances with
    widens := by
      obtain ⟨S, outer, _, widens, scopes⟩ := List.forall₂_cons_left_iff.mp advances.widens
      show List.Forall₂ Widens s.scopes t.scopes.tail
      rw [scopes]
      exact widens }

end Advances

theorem Named.enter (named : Named s) : Named { s with scopes := [] :: s.scopes } where
  entry inside member := by
    rcases List.mem_cons.mp inside with rfl | inside
    · cases member
    · exact named.entry inside member
  covered := named.covered

theorem Named.leave (named : Named t) : Named { t with scopes := t.scopes.tail } where
  entry inside := named.entry (List.mem_of_mem_tail inside)
  covered := named.covered

/-! Steps. -/

theorem Named.dress (named : Named s) {p : Program} (dresses : Dresses s.program p) :
    Named { s with program := p } := by
  have advances : Advances s [] { s with program := p } := .of_dresses dresses
  refine advances.named named rfl fun o other => ⟨[], ?_⟩
  have unknown : s.program.nodes.size ≤ o.index := other.resolve_left List.not_mem_nil
  have none : p.children o = [] := by
    rw [children, kind, node_of_nodes dresses.nodes, node_of_not_known unknown]
    rfl
  rw [none]
  exact fun c child => absurd child List.not_mem_nil

theorem addNode_advances (k : NodeKind) (span : Span) :
    Advances s [] { s with program := (s.program.addNode k span).2 } where
  toSteady := (spares_addNode k span).toSteady
  name {v} _ := by
    rw [Program.name, symbol_addNode]
    rfl
  size := by
    show _ ≤ (s.program.addNode k span).2.nodes.size
    rw [(size_addNode k span).1]
    omega
  defines known := by
    show ((s.program.addNode k span).2.kind _).defines? = _
    rw [kind_addNode, if_neg (ne_of_known known)]
  children known _ c child := by
    refine .inl ?_
    rwa [Program.children, kind_addNode, if_neg (ne_of_known known)] at child
  widens := widens_refl

theorem Named.addNode (named : Named s) (frames : List Scope) {k : NodeKind} (span : Span)
    (fits : ∀ c ∈ k.children, Fits s.program frames c) :
    Named { s with program := (s.program.addNode k span).2 } := by
  have advances := addNode_advances (s := s) k span
  refine advances.named named rfl fun o other => ⟨frames, fun c child => ?_⟩
  have unknown : s.program.nodes.size ≤ o.index := other.resolve_left List.not_mem_nil
  rw [children, kind_addNode] at child
  split at child
  · exact advances.fits widens_refl (fits c child)
  · rw [kind, node_of_not_known unknown] at child
    cases child

theorem append_advances {block : NodeId} {q : Program} (result : s.program.append block n = .ok q) :
    Advances s [block] { s with program := q } := by
  have both : Enlarges (fun _ => none) s.program (fun _ => none) q ∧ Spares s.program q :=
    append_enlarges result
  obtain ⟨enlarges, spares⟩ := both
  obtain ⟨_, _, _, equal⟩ := of_append result
  obtain ⟨_, _, kinds⟩ := kind_of_append result
  exact
    { toSteady := spares.toSteady
      name := fun {v} _ => by
        show q.name v = _
        rw [equal, name_adopt]
        rfl
      size := enlarges.size
      defines := enlarges.defines
      children := fun _ apart c child => by
        refine .inl ?_
        rwa [Program.children, kinds, if_neg fun same => apart (List.mem_singleton.mpr same)]
          at child
      widens := widens_refl }

theorem mem_children_of_append {p q : Program} {block c : NodeId} (result : p.append block n = .ok q)
    (child : c ∈ q.children block) : c ∈ p.children block ∨ c = n := by
  obtain ⟨ids, list, kinds⟩ := kind_of_append result
  have grown : (ids ++ [n]).Perm (n :: ids) := List.perm_append_singleton ..
  rw [children, kinds, if_pos rfl] at child
  exact (NodeKind.mem_children_withChildList list grown).mp child

theorem Named.append (named : Named s) {block : NodeId} {q : Program}
    (result : s.program.append block n = .ok q)
    (fits : ∀ c ∈ s.program.children block, Fits s.program frames c)
    (fitsN : Fits s.program frames n) :
    Named { s with program := q } ∧ ∀ c ∈ q.children block, Fits q frames c := by
  have advances := append_advances result
  have all (c : NodeId) (child : c ∈ q.children block) : Fits q frames c := by
    rcases mem_children_of_append result child with old | rfl
    · exact advances.fits widens_refl (fits c old)
    · exact advances.fits widens_refl fitsN
  refine ⟨advances.named named rfl fun o other => ?_, all⟩
  by_cases same : o = block
  · exact ⟨frames, same ▸ all⟩
  · have unknown : s.program.nodes.size ≤ o.index :=
      other.resolve_left fun member => same (List.mem_singleton.mp member)
    obtain ⟨_, _, kinds⟩ := kind_of_append result
    refine ⟨[], fun c child => ?_⟩
    rw [Program.children, kinds, if_neg same, kind, node_of_not_known unknown] at child
    cases child

theorem addModule_advances (name : String) (span : Span) :
    Advances s [] { s with program := (s.program.addModule name span).2 } where
  symbols_size := by simp [Program.addModule, addSymbol]
  sort known := congrArg (·.kind.sort) (symbol_addSymbol_of_known _ known)
  name known := congrArg Symbol.name (symbol_addSymbol_of_known _ known)
  size := by simp [Program.addModule, addSymbol]
  defines known := by rw [kind, node_addModule, if_neg (ne_of_known known), kind]
  children known _ c child := by
    rw [Program.children, kind, node_addModule, if_neg (ne_of_known known)] at child
    exact .inl child
  widens := widens_refl

/-- A new module has nothing in it. -/
theorem Named.addModule (named : Named s) (name : String) (span : Span) :
    Named { s with program := (s.program.addModule name span).2 } := by
  refine (addModule_advances name span).named named rfl fun o other => ⟨[], fun c child => ?_⟩
  have unknown : s.program.nodes.size ≤ o.index := other.resolve_left List.not_mem_nil
  rw [children, kind, node_addModule] at child
  split at child
  · cases child
  · rw [node_of_not_known unknown] at child
    cases child

/-! What a run can rely on. -/

/-- What can be known of a symbol or a node while names are declared. -/
inductive Trait where
  | named (v : SymbolId) (x : String)
  | isVar (v : SymbolId)
  /-- The innermost scope declares the symbol. -/
  | declared (v : SymbolId)
  | defines (n : NodeId) (v : Option SymbolId)
  | fits (n : NodeId)

namespace Trait

def Holds (s : Lowering) : Trait → Prop
  | named v x => v.index < s.program.symbols.size ∧ s.program.name v = x
  | isVar v => v.index < s.program.symbols.size ∧ (s.program.symbol v).kind.sort = .var
  | declared v => v.index < s.program.symbols.size ∧ own? s.scopes (s.program.name v) = some v
  | defines n v => n.index < s.program.nodes.size ∧ (s.program.kind n).defines? = v
  | fits n => Fits s.program s.scopes n

/-- Is the trait none of the innermost scope? -/
def IsFree : Trait → Prop
  | named .. | isVar _ | defines .. => True
  | declared _ | fits _ => False

theorem Holds.rescope {trait : Trait} (holds : trait.Holds s) (free : trait.IsFree)
    (program : t.program = s.program) : trait.Holds t := by
  cases trait with
  | named | isVar | defines =>
    unfold Holds
    rw [program]
    exact holds
  | declared | fits => exact free.elim

theorem Holds.fits_of_var {v : SymbolId} (isVar : (Trait.isVar v).Holds s)
    (defines : (Trait.defines n (some v)).Holds s) : (Trait.fits n).Holds s where
  known := defines.1
  own {w} definesW := by
    cases defines.2.symm.trans definesW
    exact ⟨isVar.1, fun other => absurd isVar.2 other⟩

theorem Holds.fits_of_declared {v : SymbolId} (declared : (Trait.declared v).Holds s)
    (defines : (Trait.defines n (some v)).Holds s) : (Trait.fits n).Holds s where
  known := defines.1
  own {w} definesW := by
    cases defines.2.symm.trans definesW
    exact ⟨declared.1, fun _ => declared.2⟩

end Trait

theorem Advances.holds (advances : Advances s touched t) {trait : Trait} (holds : trait.Holds s) :
    trait.Holds t := by
  cases trait with
  | named v x =>
    exact ⟨holds.1.trans_le advances.symbols_size, (advances.name holds.1).trans holds.2⟩
  | isVar v =>
    exact ⟨holds.1.trans_le advances.symbols_size, (advances.sort holds.1).trans holds.2⟩
  | declared v =>
    refine ⟨holds.1.trans_le advances.symbols_size, ?_⟩
    rw [advances.name holds.1]
    exact own?_of_widens advances.widens holds.2
  | defines n v =>
    exact ⟨holds.1.trans_le advances.size, (advances.defines holds.1).trans holds.2⟩
  | fits n => exact advances.fits advances.widens holds

/-- From a state where `given` holds, a run that succeeds keeps the invariant, and then `got` holds
as well. -/
structure Upholds (given : List Trait) (m : Lower α) (got : α → List Trait) : Prop where
  meets {s : Lowering} : Named s → (∀ trait ∈ given, trait.Holds s) →
    Meets m s (fun _ => True) fun a t => Named t ∧ Advances s [] t ∧
      ∀ trait ∈ got a, trait.Holds t

namespace Upholds

variable {given given' : List Trait}

theorem pure {a : α} {got : α → List Trait} (held : got a ⊆ given) :
    Upholds given (Pure.pure a : Lower α) got :=
  ⟨fun named holds => Meets.pure ⟨named, .refl, fun trait member => holds trait (held member)⟩⟩

theorem throw (e : LowerError) : Upholds given (MonadExcept.throw e : Lower α) fun _ => [] :=
  ⟨fun _ _ => Meets.throw trivial⟩

theorem get : Upholds given (MonadState.get : Lower Lowering) fun _ => [] :=
  ⟨fun named _ => ⟨named, .refl, nofun⟩⟩

theorem bind {m : Lower α} {k : α → Lower β} {got : α → List Trait} {got' : β → List Trait}
    (first : Upholds given m got) (rest : ∀ a, Upholds (got a ++ given) (k a) got') :
    Upholds given (m >>= k) got' where
  meets {s} named holds := by
    refine Meets.bind (first.meets named holds) ?_
    rintro a t ⟨namedT, advances, found⟩
    refine ((rest a).meets namedT fun trait member => ?_).mono ?_ fun _ => id
    · exact (List.mem_append.mp member).elim (found trait) fun old =>
        advances.holds (holds trait old)
    · rintro b u ⟨namedU, further, found⟩
      exact ⟨namedU, advances.trans further, found⟩

theorem mono {m : Lower α} {got got' : α → List Trait} (upholds : Upholds given m got)
    (more : given ⊆ given') (fewer : ∀ a, got' a ⊆ got a) : Upholds given' m got' where
  meets named holds := by
    refine (upholds.meets named fun trait member => holds trait (more member)).mono ?_ fun _ => id
    rintro a t ⟨namedT, advances, found⟩
    exact ⟨namedT, advances, fun trait member => found trait (fewer a member)⟩

theorem map {m : Lower α} {k : α → β} {got : β → List Trait}
    (upholds : Upholds given m fun a => got (k a)) : Upholds given (k <$> m) got where
  meets named holds := Meets.map (upholds.meets named holds)

theorem forM {k : α → Lower PUnit} {items : List α}
    (turn : ∀ a ∈ items, Upholds given (k a) fun _ => []) :
    Upholds given (items.forM k) fun _ => [] := by
  induction items with
  | nil => exact .pure (List.nil_subset _)
  | cons a rest ih =>
    exact (turn a List.mem_cons_self).bind fun _ =>
      ih fun a member => turn a (List.mem_cons_of_mem _ member)

theorem mapM {k : α → Lower β} {got : β → List Trait} {items : List α}
    (turn : ∀ a ∈ items, Upholds given (k a) got) :
    Upholds given (items.mapM k) fun bs => bs.flatMap got := by
  induction items generalizing given with
  | nil =>
    rw [List.mapM_nil]
    exact .pure (List.nil_subset _)
  | cons a rest ih =>
    rw [List.mapM_cons]
    refine (turn a List.mem_cons_self).bind fun b => ?_
    have others : Upholds (got b ++ given) (rest.mapM k) fun bs => bs.flatMap got :=
      ih fun a member => (turn a (List.mem_cons_of_mem _ member)).mono
        (List.subset_append_right ..) fun _ => List.Subset.refl _
    refine others.bind fun bs => .pure ?_
    rw [List.flatMap_cons]
    grind

/-- A node over nodes that fit. -/
theorem node {k : NodeKind} {span : Span} (fits : ∀ c ∈ k.children, .fits c ∈ given) :
    Upholds given (Lower.node k span) fun n => [.defines n k.defines?] where
  meets {s} named holds := by
    refine ⟨named.addNode s.scopes span fun c child => holds _ (fits c child), addNode_advances k span,
      fun trait member => ?_⟩
    cases List.mem_singleton.mp member
    refine ⟨?_, ?_⟩
    · show s.program.nodes.size < (s.program.addNode k span).2.nodes.size
      rw [(size_addNode k span).1]
      exact Nat.lt_succ_self _
    · exact congrArg NodeKind.defines? ((kind_addNode k span _).trans (if_pos rfl))

/-- What follows from what is known may be added to it. -/
theorem derive {m : Lower α} {got got' : α → List Trait} (upholds : Upholds given m got)
    (follow : ∀ a s, (∀ trait ∈ got a ++ given, trait.Holds s) → ∀ trait ∈ got' a, trait.Holds s) :
    Upholds given m got' where
  meets named holds := by
    refine (upholds.meets named holds).mono ?_ fun _ => id
    rintro a t ⟨namedT, advances, found⟩
    refine ⟨namedT, advances, follow a t fun trait member => ?_⟩
    exact (List.mem_append.mp member).elim (found trait) fun old => advances.holds (holds trait old)

/-- A node that defines nothing. -/
theorem plain {k : NodeKind} {span : Span} (nothing : k.defines? = none)
    (fits : ∀ c ∈ k.children, .fits c ∈ given) :
    Upholds given (Lower.node k span) fun n => [.fits n] :=
  (node fits).derive fun n s holds trait member => by
    cases List.mem_singleton.mp member
    have defines := holds (.defines n k.defines?) (by simp)
    exact Fits.of_defines_none defines.1 (defines.2.trans nothing)

theorem build {k : Program → α × Program} (dresses : ∀ p, Dresses p (k p).2) :
    Upholds given (Lower.build k) fun _ => [] :=
  ⟨fun named _ => Meets.build ⟨named.dress (dresses _), .of_dresses (dresses _), nofun⟩⟩

theorem change {k : Program → Program} (dresses : ∀ p, Dresses p (k p)) :
    Upholds given (Lower.change k) fun _ => [] :=
  build (k := fun p => ((), k p)) dresses

theorem newSymbol {k : Program → Symbol} {got : SymbolId → List Trait}
    (found : ∀ s v, v.index < s.program.symbols.size → (∃ p, s.program.symbol v = k p) →
      ∀ trait ∈ got v, trait.Holds s) :
    Upholds given (Lower.build fun p => p.addSymbol (k p)) got where
  meets {s} named _ := by
    have dresses : Dresses s.program (s.program.addSymbol (k s.program)).2 := dresses_addSymbol _
    refine Meets.build ⟨named.dress dresses, .of_dresses dresses, found _ _ ?_ ⟨s.program, ?_⟩⟩
    · simp [addSymbol]
    · exact (symbol_addSymbol _ _).trans (if_pos rfl)

theorem symbol (sym : Symbol) :
    Upholds given (Lower.build (·.addSymbol sym)) fun v => [.named v sym.name] :=
  newSymbol fun s v known found trait member => by
    cases List.mem_singleton.mp member
    obtain ⟨_, found⟩ := found
    exact ⟨known, congrArg Symbol.name found⟩

theorem newVar (sym : Symbol) (isVar : sym.kind.sort = .var) :
    Upholds given (Lower.build (·.addSymbol sym)) fun v => [.named v sym.name, .isVar v] :=
  newSymbol fun s v known found trait member => by
    obtain ⟨_, found⟩ := found
    rcases List.mem_pair.mp member with rfl | rfl
    · exact ⟨known, congrArg Symbol.name found⟩
    · exact ⟨known, found ▸ isVar⟩

theorem temp (ty : Ty) : Upholds given (Lower.build (·.addTemp ty)) fun v => [.isVar v] :=
  newSymbol fun s v known found trait member => by
    cases List.mem_singleton.mp member
    obtain ⟨_, found⟩ := found
    exact ⟨known, by rw [found]; rfl⟩

theorem typed (v : SymbolId) (ty : Ty) :
    Upholds given (Lower.change (·.modifySymbol v fun s => { s with ty := ty })) fun _ => [] :=
  change fun _ => dresses_modifySymbol v (fun _ => rfl) fun _ => rfl

theorem attachFlag (v : SymbolId) (flag : Flag) :
    Upholds given (Lower.change (·.attachFlag v flag)) fun _ => [] :=
  change fun _ => dresses_modifySymbol v (fun _ => rfl) fun _ => rfl

theorem attachFlags (v : SymbolId) (flags : List Flag) :
    Upholds given (Lower.change (·.attachFlags v flags)) fun _ => [] :=
  change fun _ => dresses_attachFlags v flags

/-- What holds of the innermost scope is neither known inside nor taken along. -/
theorem inScope {inner : Lower α} {got : α → List Trait} (upholds : Upholds given' inner got)
    (known : ∀ trait ∈ given', trait ∈ given ∧ trait.IsFree)
    (free : ∀ a, ∀ trait ∈ got a, trait.IsFree) : Upholds given (Lower.inScope inner) got where
  meets {s} named holds := by
    refine inScope_meets ((upholds.meets named.enter fun trait member => ?_).mono ?_ fun _ => id)
    · exact (holds trait (known trait member).1).rescope (known trait member).2 rfl
    · rintro a t ⟨namedT, advances, found⟩
      exact ⟨namedT.leave, advances.leave, fun trait member =>
        (found trait member).rescope (free a trait member) rfl⟩

theorem inFunction {f : SymbolId} {inner : Lower α} {got : α → List Trait}
    (upholds : Upholds given inner got) : Upholds given (Lower.inFunction f inner) got where
  meets {s} named holds := by
    have start : Named { s with function := some f } := ⟨named.entry, named.covered⟩
    refine inFunction_meets ((upholds.meets start fun trait member => ?_).mono ?_ fun _ => id)
    · have here := holds trait member
      cases trait <;> exact here
    · rintro a t ⟨namedT, advances, found⟩
      refine ⟨⟨namedT.entry, namedT.covered⟩, { advances with }, fun trait member => ?_⟩
      have here := found trait member
      cases trait <;> exact here

/-- The node that is made fits, whatever else is known of it. -/
theorem only {m : Lower NodeId} {got : NodeId → List Trait} (upholds : Upholds given m got)
    (among : ∀ n, .fits n ∈ got n) :
    Upholds given (do Pure.pure [← m]) fun ns => ns.map .fits :=
  upholds.bind fun n => .pure (by simpa using .inl (among n))

end Upholds

end Surface.Lower

end MiddleEnd
