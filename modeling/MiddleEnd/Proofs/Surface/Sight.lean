import MiddleEnd.Proofs.Surface.Additions

/-! Lowering sees what the text says can be seen, and what it builds for an expression spells it. -/

namespace MiddleEnd.Surface

open Program

namespace Lower

variable {p q : Program} {s t u : Lowering} {S : Scope} {scopes frames : List Scope} {D : Visible}
  {visible : List Visible} {touched : List NodeId} {span : Span}

/-- The scope declares what can be seen of it, each name for a symbol of its sort. -/
structure Mirrors (p : Program) (S : Scope) (D : Visible) : Prop where
  lookup (name : String) : (S.lookup name).map (fun v => (p.symbol v).kind.sort) = D.lookup name
  known {name : String} {v : SymbolId} : S.lookup name = some v → v.index < p.symbols.size

theorem Mirrors.adds (mirrors : Mirrors p S D) (adds : Adds p touched q) : Mirrors q S D where
  lookup name := by
    rw [← mirrors.lookup name]
    cases found : S.lookup name with
    | none => rfl
    | some v => exact congrArg some (adds.sort (mirrors.known found))
  known found := Nat.lt_of_lt_of_le (mirrors.known found) adds.symbols_le

theorem Mirrors.declare (mirrors : Mirrors p S D) {name : String} (missing : S.lookup name = none)
    {v : SymbolId} (known : v.index < p.symbols.size) {sort : SymbolSort}
    (sorted : (p.symbol v).kind.sort = sort) :
    Mirrors p ((name, v) :: S) (D ++ [(name, sort)]) where
  lookup other := by
    have unseen : D.lookup name = none := by
      rw [← mirrors.lookup name, missing]
      rfl
    rw [List.lookup_append, List.lookup_cons]
    by_cases same : other = name
    · subst same
      rw [unseen]
      simp [sorted]
    · have different : (other == name) = false := beq_eq_false_iff_ne.mpr same
      simp only [different]
      rw [mirrors.lookup other]
      simp [List.lookup_cons, different]
  known {other w} found := by
    rw [List.lookup_cons] at found
    split at found
    · cases found
      exact known
    · exact mirrors.known found

/-- The scopes around the current place declare what can be seen from there. -/
def Sees (s : Lowering) (visible : List Visible) : Prop :=
  List.Forall₂ (Mirrors s.program) s.scopes visible

theorem Sees.adds (sees : Sees s visible) (adds : Adds s.program touched t.program)
    (scopes : t.scopes = s.scopes) : Sees t visible := by
  unfold Sees
  rw [scopes]
  exact sees.imp fun _ _ mirrors => mirrors.adds adds

/-- What a name stands for by the text, it stands for in lowering. -/
theorem select_spec (mirrors : List.Forall₂ (Mirrors p) scopes visible) (name : String) :
    (lookup? scopes name).map (fun v => (p.symbol v).kind.sort) =
        (select visible name).map Target.sort ∧
      ∀ target, select visible name = some target →
        target.symbol? scopes name = lookup? scopes name := by
  induction mirrors with
  | nil => exact ⟨rfl, nofun⟩
  | @cons S D scopes visible mirrors _ ih =>
    have here := mirrors.lookup name
    rw [lookup?, List.findSome?_cons, select]
    cases found : S.lookup name with
    | some v =>
      rw [found] at here
      rw [← here]
      refine ⟨rfl, fun target chosen => ?_⟩
      cases chosen
      exact found
    | none =>
      rw [found] at here
      rw [← here]
      refine ⟨?_, fun target chosen => ?_⟩
      · show (lookup? scopes name).map _ = _
        rw [ih.1]
        cases select visible name <;> rfl
      · obtain ⟨inner, outside, rfl⟩ := Option.map_eq_some_iff.mp chosen
        exact ih.2 inner outside

theorem symbol?_of_widens (widens : List.Forall₂ Widens scopes frames) {target : Target}
    {name : String} {v : SymbolId} (found : target.symbol? scopes name = some v) :
    target.symbol? frames name = some v := by
  obtain ⟨depth, sort⟩ := target
  induction widens generalizing depth with
  | nil => cases found
  | cons first _ ih =>
    cases depth with
    | zero => exact first.lookup _ _ found
    | succ depth => exact ih depth found

theorem own?_of_widens (widens : List.Forall₂ Widens scopes frames) {name : String} {v : SymbolId}
    (found : own? scopes name = some v) : own? frames name = some v := by
  cases widens with
  | nil => cases found
  | cons first _ => exact first.lookup _ _ found

theorem Widens.trans {S S' S'' : Scope} (first : Widens S S') (second : Widens S' S'') :
    Widens S S'' :=
  ⟨List.Subset.trans first.subset second.subset, fun name v found =>
    second.lookup name v (first.lookup name v found)⟩

theorem widens_refl : List.Forall₂ Widens scopes scopes := List.forall₂_same.mpr fun _ _ => .refl

theorem widens_trans {scopes' scopes'' : List Scope} (first : List.Forall₂ Widens scopes scopes')
    (second : List.Forall₂ Widens scopes' scopes'') : List.Forall₂ Widens scopes scopes'' := by
  induction first generalizing scopes'' with
  | nil =>
    cases second
    exact .nil
  | cons here _ ih =>
    cases second with
    | cons next later => exact .cons (here.trans next) (ih later)

/-! What was built. -/

/-- On the way from `s` to `t` nodes were built for which `X` holds in whatever becomes of the
program, as long as these nodes stay what they are and the scopes only gain names. Constructs at
`touched` are not done yet. -/
structure Builds (s : Lowering) (touched : List NodeId) (X : Program → List Scope → Prop)
    (t : Lowering) : Prop where
  adds : Adds s.program touched t.program
  widens : List.Forall₂ Widens s.scopes t.scopes
  spells {q : Program} {frames : List Scope} :
    (∀ n : NodeId, s.program.nodes.size ≤ n.index → n.index < t.program.nodes.size → n ∉ touched →
      q.kind n = t.program.kind n) →
    List.Forall₂ Widens t.scopes frames → X q frames

namespace Builds

variable {X Y : Program → List Scope → Prop}

theorem nothing : Builds s touched (fun _ _ => True) s where
  adds := .refl
  widens := widens_refl
  spells _ _ := trivial

theorem mono (builds : Builds s touched X t) (weaker : ∀ q frames, X q frames → Y q frames) :
    Builds s touched Y t :=
  ⟨builds.adds, builds.widens, fun same wider => weaker _ _ (builds.spells same wider)⟩

/-- What was built does not depend on constructs from before or after. -/
theorem touch (builds : Builds s [] X t) (apart : ∀ n ∈ touched,
    n.index < s.program.nodes.size ∨ t.program.nodes.size ≤ n.index) : Builds s touched X t where
  adds := builds.adds.mono (List.nil_subset _)
  widens := builds.widens
  spells same wider := builds.spells (fun n new known _ => same n new known fun member => by
    have outside := apart n member
    omega) wider

theorem trans (first : Builds s touched X t) (second : Builds t touched Y u) :
    Builds s touched (fun q frames => X q frames ∧ Y q frames) u where
  adds := first.adds.trans second.adds
  widens := widens_trans first.widens second.widens
  spells := fun {q frames} same wider => by
    constructor
    · refine first.spells (fun n new known apart => ?_) (widens_trans second.widens wider)
      rw [same n new (Nat.lt_of_lt_of_le known second.adds.nodes_le) apart,
        second.adds.kind known apart]
    · refine second.spells (fun n new known apart => ?_) wider
      exact same n (Nat.le_trans first.adds.nodes_le new) known apart

/-- The program has changed, but nothing was built. -/
theorem after (builds : Builds s touched X t) (adds : Adds t.program touched u.program)
    (scopes : u.scopes = t.scopes) (size : u.program.nodes.size = t.program.nodes.size) :
    Builds s touched X u where
  adds := builds.adds.trans adds
  widens := scopes ▸ builds.widens
  spells {q frames} same wider := by
    rw [scopes] at wider
    refine builds.spells (fun n new known apart => ?_) wider
    rw [same n new (size ▸ known) apart, adds.kind known apart]

/-- A block is done. -/
theorem close {block : NodeId} (builds : Builds s [block] X t)
    (new : s.program.nodes.size ≤ block.index) (known : block.index < t.program.nodes.size) :
    Builds s [] (fun q frames => X q frames ∧ q.kind block = t.program.kind block) t where
  adds :=
    { builds.adds with
      kind := fun {n} old _ => builds.adds.kind old fun member => by
        cases List.mem_singleton.mp member
        omega }
  widens := builds.widens
  spells same wider :=
    ⟨builds.spells (fun n new known _ => same n new known List.not_mem_nil) wider,
      same block new known List.not_mem_nil⟩

/-- What was built in a scope of its own, after that scope is left. -/
theorem leave {inner : List Scope} (s : Lowering) (function around : Option SymbolId)
    (builds : Builds { s with scopes := inner, function := function } touched X t)
    (scopes : t.scopes = S :: s.scopes) :
    Builds s touched (fun q frames => X q (S :: frames))
      { t with scopes := t.scopes.tail, function := around } where
  adds := builds.adds
  widens := by
    show List.Forall₂ Widens s.scopes t.scopes.tail
    rw [scopes]
    exact widens_refl
  spells same wider := by
    refine builds.spells same ?_
    rw [scopes] at wider ⊢
    exact .cons .refl wider

/-- Names are declared, nothing is built. -/
theorem declaring {scopes : List Scope} {P : List Scope → Prop}
    (widens : List.Forall₂ Widens s.scopes scopes)
    (here : ∀ frames, List.Forall₂ Widens scopes frames → P frames) :
    Builds s touched (fun _ frames => P frames) { s with scopes := scopes } where
  adds := .refl
  widens := widens
  spells _ wider := here _ wider

end Builds

/-- As `Builds`, with the scopes left alone. -/
structure Inserts (s : Lowering) (X : Program → List Scope → Prop) (t : Lowering) : Prop
    extends Builds s [] X t where
  scopes : t.scopes = s.scopes

namespace Inserts

variable {X Y : Program → List Scope → Prop}

theorem nothing : Inserts s (fun _ _ => True) s := ⟨.nothing, rfl⟩

theorem mono (inserts : Inserts s X t) (weaker : ∀ q frames, X q frames → Y q frames) :
    Inserts s Y t := ⟨inserts.toBuilds.mono weaker, inserts.scopes⟩

theorem trans (first : Inserts s X t) (second : Inserts t Y u) :
    Inserts s (fun q frames => X q frames ∧ Y q frames) u :=
  ⟨first.toBuilds.trans second.toBuilds, second.scopes.trans first.scopes⟩

theorem sees (inserts : Inserts s X t) (sees : Sees s visible) : Sees t visible :=
  sees.adds inserts.adds inserts.scopes

end Inserts

/-! Expressions. -/

/-- The error is none of a name, or it is that of a value's name that stands for no value. -/
def Unbound (namings : List Naming) (e : LowerError) : Prop :=
  ∀ name span, e = .unknownName name span →
    ∃ naming ∈ namings, naming.name = name ∧ naming.span = span ∧ naming.isBound = false

theorem Unbound.mono {namings namings' : List Naming} (wider : namings ⊆ namings')
    {e : LowerError} (unbound : Unbound namings e) : Unbound namings' e := by
  intro name span isUnknown
  obtain ⟨naming, member, same⟩ := unbound name span isUnknown
  exact ⟨naming, wider member, same⟩

theorem OfType.unbound {namings : List Naming} {e : LowerError} (ofType : OfType e) :
    Unbound namings e := by
  obtain ⟨_, _, rfl | rfl⟩ := ofType <;> exact nofun

/-- A run that builds with fewer namings to look up. -/
theorem Meets.within {α : Type} {m : Lower α} {namings namings' : List Naming}
    {Q : α → Lowering → Prop} (meets : Meets m s (Unbound namings) Q)
    (wider : namings ⊆ namings') : Meets m s (Unbound namings') Q :=
  meets.mono (fun _ _ => id) fun _ => .mono wider

theorem node_meets {E : LowerError → Prop} (kind : NodeKind) :
    Meets (build (·.addNode kind span)) s E fun id => Inserts s fun q _ => q.kind id = kind := by
  refine Meets.build ?_
  have size := (size_addNode (p := s.program) kind span).1
  refine ⟨⟨adds_addNode kind span, widens_refl, fun same _ => ?_⟩, rfl⟩
  refine (same ⟨s.program.nodes.size⟩ (Nat.le_refl _) ?_ List.not_mem_nil).trans ?_
  · show s.program.nodes.size < (s.program.addNode kind span).2.nodes.size
    omega
  · exact (kind_addNode kind span _).trans (if_pos rfl)

/-- A node over what was built before. -/
theorem Inserts.node_meets {E : LowerError → Prop} {X : Program → List Scope → Prop}
    (inserts : Inserts s X t) (kind : NodeKind) {Z : NodeId → Program → List Scope → Prop}
    (whole : ∀ id q frames, X q frames → q.kind id = kind → Z id q frames) :
    Meets (build (·.addNode kind span)) t E fun id => Inserts s (Z id) :=
  (Lower.node_meets kind).mono
    (fun id _ built => (inserts.trans built).mono fun q frames both => whole id q frames both.1 both.2)
    fun _ => id

theorem valueNamed_meets (sees : Sees s visible) (name : String) :
    Meets (valueNamed name span) s (Unbound [⟨span, name, select visible name⟩]) fun v t => t = s ∧
      ∃ target, select visible name = some target ∧ target.isValue = true ∧
        target.symbol? s.scopes name = some v := by
  obtain ⟨sorts, places⟩ := select_spec sees name
  refine Meets.get_bind ?_
  cases found : lookup? s.scopes name with
  | none =>
    rw [found] at sorts
    have missing : select visible name = none := Option.map_eq_none_iff.mp sorts.symm
    refine Meets.throw fun other span' same => ?_
    cases same
    exact ⟨_, List.mem_singleton.mpr rfl, rfl, rfl, by rw [Naming.isBound, missing]; rfl⟩
  | some v =>
    rw [found] at sorts
    obtain ⟨target, chosen, sort⟩ := Option.map_eq_some_iff.mp sorts.symm
    have sort : target.sort = (s.program.symbol v).kind.sort := sort
    have value : target.isValue = true ↔ (s.program.symbol v).isValue = true := by
      rw [Target.isValue, Symbol.isValue_iff, sort]
      simp
    by_cases isValue : (s.program.symbol v).isValue = true
    · simp only [Option.filter_some, isValue, if_true]
      exact Meets.pure ⟨rfl, target, chosen, value.mpr isValue, (places target chosen).trans found⟩
    · simp only [Option.filter_some, isValue]
      refine Meets.throw fun other span' same => ?_
      cases same
      refine ⟨_, List.mem_singleton.mpr rfl, rfl, rfl, ?_⟩
      rw [Naming.isBound, chosen]
      exact Bool.eq_false_iff.mpr fun isBound => isValue (value.mp isBound)

theorem function?_meets {E : LowerError → Prop} (sees : Sees s visible) (name : String) :
    Meets (function? name) s E fun callee t => t = s ∧
      CalleeOf s.scopes name (select visible name) callee := by
  obtain ⟨sorts, places⟩ := select_spec sees name
  refine Meets.get_bind (Meets.pure ⟨rfl, ?_⟩)
  cases found : lookup? s.scopes name with
  | none =>
    rw [found] at sorts
    have missing : select visible name = none := Option.map_eq_none_iff.mp sorts.symm
    intro target chosen
    rw [missing] at chosen
    cases chosen
  | some v =>
    rw [found] at sorts
    obtain ⟨target, chosen, sort⟩ := Option.map_eq_some_iff.mp sorts.symm
    have sort : target.sort = (s.program.symbol v).kind.sort := sort
    by_cases isFn : s.program.isFn v = true
    · simp only [Option.filter_some, isFn, if_true]
      exact ⟨target, chosen, sort.trans (isFn_iff_sort.mp isFn), (places target chosen).trans found⟩
    · simp only [Option.filter_some, isFn]
      intro other same isFnSort
      cases chosen.symm.trans same
      exact isFn (isFn_iff_sort.mpr (sort.symm.trans isFnSort))

theorem calleeOf_of_widens (widens : List.Forall₂ Widens scopes frames) {name : String}
    {target : Option Target} {callee : Option SymbolId} (bound : CalleeOf scopes name target callee) :
    CalleeOf frames name target callee := by
  cases callee with
  | none => exact bound
  | some f =>
    obtain ⟨t, chosen, sort, found⟩ := bound
    exact ⟨t, chosen, sort, symbol?_of_widens widens found⟩

mutual

/-- What lowering builds for an expression spells it. -/
theorem expr_spells {s : Lowering} (sees : Sees s visible) (span : Span) (e : Expr) :
    Meets (expr span e) s (Unbound (resolveExpr visible span e).namings) fun n =>
      Inserts s (SpellsExpr · · (resolveExpr visible span e) n) := by
  cases e with
  | int value | bool value | str value =>
    rw [expr]
    exact Inserts.nothing.node_meets _ fun id q frames _ kind => kind
  | name name =>
    rw [expr]
    refine (valueNamed_meets sees name).bind fun v t found => ?_
    obtain ⟨rfl, target, chosen, isValue, place⟩ := found
    refine (node_meets _).mono (fun n t built => ?_) fun _ => id
    refine ⟨⟨built.adds, built.widens, fun same wider => ?_⟩, built.scopes⟩
    rw [built.scopes] at wider
    exact ⟨target, v, chosen, isValue, symbol?_of_widens wider place,
      built.spells same (by rw [built.scopes]; exact wider)⟩
  | call name args =>
    rw [expr]
    refine Meets.bind (exprs_spells sees span args) fun nodes t first => ?_
    refine (function?_meets (first.sees sees) name).bind fun callee t' found => ?_
    obtain ⟨rfl, bound⟩ := found
    refine (node_meets _).mono (fun n u built => ?_) fun _ => id
    have whole := first.trans built
    refine ⟨⟨whole.adds, whole.widens, fun same wider => ?_⟩, whole.scopes⟩
    obtain ⟨spelled, kind⟩ := whole.spells same wider
    rw [built.scopes] at wider
    exact ⟨callee, nodes, kind, calleeOf_of_widens wider bound, spelled⟩
  | named name value =>
    rw [expr]
    refine Meets.bind (expr_spells sees span value) fun c t first => ?_
    exact first.node_meets _ fun id q frames spelled kind => ⟨c, kind, spelled⟩
  | prim op args =>
    rw [expr]
    refine Meets.bind (exprs_spells sees span args) fun nodes t first => ?_
    exact first.node_meets _ fun id q frames spelled kind => ⟨nodes, kind, spelled⟩
  | addrOf operand | deref operand =>
    rw [expr]
    refine Meets.bind ((expr_spells sees span operand).within ?_) fun c t first => ?_
    · exact List.subset_append_left _ _
    · exact first.node_meets _ fun id q frames spelled kind =>
        ⟨[c], kind, c, [], rfl, spelled, rfl⟩

theorem exprs_spells {s : Lowering} (sees : Sees s visible) (span : Span) (es : List Expr) :
    Meets (exprs span es) s (Unbound (Resolved.namingsOf (resolveExprs visible span es)))
      fun nodes => Inserts s (SpellsExprs · · (resolveExprs visible span es) nodes) := by
  cases es with
  | nil =>
    rw [exprs]
    exact Meets.pure (Inserts.nothing.mono fun _ _ _ => rfl)
  | cons e rest =>
    rw [exprs]
    refine Meets.bind ((expr_spells sees span e).within (List.subset_append_left _ _))
      fun n t first => ?_
    refine Meets.bind ((exprs_spells (first.sees sees) span rest).within
      (List.subset_append_right _ _)) fun nodes u second => ?_
    exact Meets.pure ((first.trans second).mono fun q frames both => ⟨n, nodes, rfl, both⟩)

end

theorem optionalExpr_spells (sees : Sees s visible) (span : Span) (e : Option Expr) :
    Meets (optionalExpr span e) s
      (Unbound (Resolved.namingsOf? (e.map (resolveExpr visible span)))) fun value =>
      Inserts s (SpellsOptional · · (e.map (resolveExpr visible span)) value) := by
  cases e with
  | none => exact Meets.pure (Inserts.nothing.mono fun _ _ _ => rfl)
  | some e =>
    refine Meets.map ((expr_spells sees span e).mono (fun n t built => ?_) fun _ => id)
    exact built.mono fun q frames spelled => ⟨n, rfl, spelled⟩

end Lower

end MiddleEnd.Surface
