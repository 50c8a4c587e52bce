import MiddleEnd.Proofs.Arena.Rebuilt
import MiddleEnd.Proofs.Arena.Survey

/-! Nothing is reported exactly for the programs that are sound from end to end: the checks look at
one node and its children at a time, and what they look at adds up to facts about whole ways down. -/

namespace MiddleEnd.Program

variable {p : Program} {n : NodeId}

/-- The function of the nearest definition that a way passes, or else the module where it starts. -/
def scopeAlong (p : Program) (i : Nat) (way : List (NodeId × Nat)) : Option SymbolId :=
  (way.findSome? fun (n, _) => if (p.kind n).isFnDef then (p.kind n).defines? else none).or
    p.modules[i]?

/-- What can be reached is live, along one way each, and in step with owners, scopes, symbols,
registries and call lists. -/
structure Upright (p : Program) : Prop where
  live {n : NodeId} : p.Reached n → p.Live n
  one_way {n : NodeId} :
    p.Reached n → ∃ i way, p.Way i way n ∧ ∀ j way', p.Way j way' n → j = i ∧ way' = way
  owner {n c : NodeId} : p.Reached n → c ∈ p.children n → p.parent? c = some n
  scope {i : Nat} {way : List (NodeId × Nat)} {n : NodeId} :
    p.Way i way n → p.scope? n = p.scopeAlong i way
  ref_live {n : NodeId} {s : SymbolId} :
    p.Reached n → p.kind n = .symRef s → (p.symbol s).live = true
  callee {n : NodeId} {f : SymbolId} :
    p.Reached n → p.callee? n = some f → (p.symbol f).live = true ∧ p.isFn f = true
  definition {n : NodeId} {s : SymbolId} : p.Reached n → (p.kind n).defines? = some s →
    (p.symbol s).live = true ∧ (p.symbol s).decl = some n
  registries : p.Exact p.Reached p.registries
  callers {f : SymbolId} {data : FnData} {c : NodeId} : f ∈ p.registries.fns →
    (p.symbol f).fnData? = some data → c ∈ data.calledBy → p.Reached c ∧ p.callee? c = some f

/-- The block of a module stands alone and belongs to the module. -/
def Planted (p : Program) : Prop :=
  ∀ m ∈ p.modules, ∀ r, p.moduleBlock? m = some r →
    p.parent? r = none ∧ p.scope? r = some m ∧ (p.kind r).isBlock = true

/-- Loops test references to symbols. -/
def Looping (p : Program) : Prop :=
  ∀ n, p.Reached n → ∀ test body testFirst, p.kind n = .loop test body testFirst →
    (p.kind test).symRef?.isSome = true

theorem rootViolations_eq_nil_iff {m : SymbolId} {r : NodeId} : p.rootViolations m r = [] ↔
    p.parent? r = none ∧ p.scope? r = some m ∧ (p.kind r).isBlock = true := by
  simp [rootViolations, parent?, scope?, kind, and_assoc]

theorem linkViolations_eq_nil_iff {c : NodeId} : p.linkViolations n c = [] ↔
    p.Live c ∧ p.parent? c = some n ∧ p.scope? c = p.scopeBelow n := by
  unfold linkViolations
  by_cases live : p.Live c
  · rw [if_pos live, and_iff_right live]
    simp [parent?, scope?]
  · simp [live]

/-- What the check of a single node asks for. -/
structure Fit (p : Program) (n : NodeId) : Prop where
  ref_live {s : SymbolId} : p.kind n = .symRef s → (p.symbol s).live = true
  callee {f : SymbolId} : p.callee? n = some f → (p.symbol f).live = true ∧ p.isFn f = true
  definition {s : SymbolId} : (p.kind n).defines? = some s →
    (p.symbol s).live = true ∧ (p.symbol s).decl = some n
  test {test body : NodeId} {testFirst : Bool} : p.kind n = .loop test body testFirst →
    (p.kind test).symRef?.isSome = true

theorem ite_violations_eq_nil_iff {live : Bool} {fits : Prop} [Decidable fits] {x y : Violation} :
    (if live = false then [x] else if fits then [] else [y]) = [] ↔ live = true ∧ fits := by
  cases live <;> by_cases fits <;> simp [*]

theorem nodeViolations_eq_nil_iff : p.nodeViolations n = [] ↔ p.Fit n := by
  have fit_iff : p.Fit n ↔ (∀ s, p.kind n = .symRef s → (p.symbol s).live = true) ∧
      (∀ f, p.callee? n = some f → (p.symbol f).live = true ∧ p.isFn f = true) ∧
      (∀ s, (p.kind n).defines? = some s →
        (p.symbol s).live = true ∧ (p.symbol s).decl = some n) ∧
      ∀ test body testFirst, p.kind n = .loop test body testFirst →
        (p.kind test).symRef?.isSome = true :=
    ⟨fun fit => ⟨fun _ => fit.ref_live, fun _ => fit.callee, fun _ => fit.definition,
      fun _ _ _ => fit.test⟩, fun ⟨ref, callee, definition, test⟩ =>
      ⟨ref _, callee _, definition _, test _ _ _⟩⟩
  rw [fit_iff]
  unfold nodeViolations callee?
  cases kind : p.kind n with
  | symRef sym => simp [NodeKind.callee?, NodeKind.defines?]
  | call callee name args =>
    cases callee with
    | none => simp [NodeKind.callee?, NodeKind.defines?]
    | some f => simp [NodeKind.callee?, NodeKind.defines?, ite_violations_eq_nil_iff]
  | loop test body testFirst =>
    simp [NodeKind.callee?, NodeKind.defines?, Option.isSome_iff_ne_none]
  | define sym value | fnDef sym formals body =>
    simp [NodeKind.callee?, NodeKind.defines?, ite_violations_eq_nil_iff]
  | _ => simp [NodeKind.callee?, NodeKind.defines?]

theorem scopeBelow_eq_scopeAlong {i k : Nat} {way : List (NodeId × Nat)}
    (here : p.scope? n = p.scopeAlong i way) :
    p.scopeBelow n = p.scopeAlong i ((n, k) :: way) := by
  rw [scopeBelow_eq, here]
  unfold scopeAlong
  rw [List.findSome?_cons]
  cases kind : p.kind n <;> simp [kind, NodeKind.isFnDef, NodeKind.defines?]

/-! From the checks to whole ways. -/

theorem spotless_iff : p.Spotless ↔ (∀ n, p.Reached n → p.Fit n) ∧
    (∀ n c, p.Reached n → c ∈ p.children n →
      p.Live c ∧ p.parent? c = some n ∧ p.scope? c = p.scopeBelow n) ∧ p.Planted := by
  constructor
  · intro spotless
    exact ⟨fun n reached => nodeViolations_eq_nil_iff.mp (spotless.node reached),
      fun n c reached child => linkViolations_eq_nil_iff.mp (spotless.links reached child),
      fun m member r block => rootViolations_eq_nil_iff.mp (spotless.root member block)⟩
  · rintro ⟨node, links, root⟩
    exact
      { node := fun reached => nodeViolations_eq_nil_iff.mpr (node _ reached)
        links := fun reached child => linkViolations_eq_nil_iff.mpr (links _ _ reached child)
        root := fun member block => rootViolations_eq_nil_iff.mpr (root _ member _ block) }

/-- Where the links are right, every node is live and lies in the scope that its way has entered. -/
theorem Spotless.live (spotless : p.Spotless) (roots : ∀ r ∈ p.roots, p.Live r)
    (reached : p.Reached n) : p.Live n := by
  cases reached with
  | root isRoot => exact roots n isRoot
  | child reached child =>
    exact (linkViolations_eq_nil_iff.mp (spotless.links reached child)).1

theorem Spotless.scope (spotless : p.Spotless) {i : Nat} {way : List (NodeId × Nat)}
    (down : p.Way i way n) : p.scope? n = p.scopeAlong i way := by
  induction down with
  | @root m r place block =>
    rw [(rootViolations_eq_nil_iff.mp (spotless.root (List.mem_of_getElem? place) block)).2.1, ← place]
    rfl
  | step before slot here =>
    have links := spotless.links before.reached (List.mem_of_getElem? slot)
    rw [(linkViolations_eq_nil_iff.mp links).2.2]
    exact scopeBelow_eq_scopeAlong here

/-- What the survey has covered branches. -/
theorem branches_of_covers {reached : List NodeId} (covers : p.Covers [] p.roots reached)
    (spotless : p.Spotless) : p.Branches where
  roots_nodup := covers.nodup
  root_top {r} root := by
    obtain ⟨m, member, block⟩ := mem_roots.mp root
    exact (rootViolations_eq_nil_iff.mp (spotless.root member block)).1
  child_parent reached child := (linkViolations_eq_nil_iff.mp (spotless.links reached child)).2.1
  children_nodup here := (covers.checked_of_reached here).children_nodup

/-! The two directions. -/

theorem staleCallSites_eq_nil_iff {reached : List NodeId} {f : SymbolId} :
    p.staleCallSites reached f = [] ↔
      ∀ data, (p.symbol f).fnData? = some data → ∀ c ∈ data.calledBy,
        c ∈ reached ∧ p.callee? c = some f := by
  unfold staleCallSites
  cases (p.symbol f).fnData? with
  | none => simp
  | some data => simp [List.filter_eq_nil_iff]

theorem verify_eq_nil_iff_parts : p.verify = [] ↔
    (p.modules.foldl p.surveyModule {}).violations = [] ∧
      p.computeRegistries.sameEntries p.registries = true ∧
      ∀ f ∈ p.registries.fns, p.staleCallSites (p.modules.foldl p.surveyModule {}).reached f = [] := by
  simp [verify, List.append_eq_nil_iff, List.flatMap_eq_nil_iff]

theorem verify_of_spotless (branches : p.Branches) (spotless : p.Spotless)
    (live : ∀ n, p.Reached n → p.Live n) (exact : p.Exact p.Reached p.registries)
    (callers : ∀ {f data c}, f ∈ p.registries.fns → (p.symbol f).fnData? = some data →
      c ∈ data.calledBy → p.Reached c ∧ p.callee? c = some f) : p.verify = [] := by
  have surveyed := foldl_surveyModule_spotless branches spotless
  refine verify_eq_nil_iff_parts.mpr ⟨surveyed,
    (branches.exact_computeRegistries live).sameEntries_iff.mpr exact,
    fun f listed => staleCallSites_eq_nil_iff.mpr fun data found c member => ?_⟩
  obtain ⟨here, callee⟩ := callers listed found member
  exact ⟨(foldl_surveyModule_covers surveyed).1.mem_of_reached here, callee⟩

theorem upright_of_verify (clean : p.verify = []) (roots : ∀ r ∈ p.roots, p.Live r) :
    p.Upright ∧ p.Planted ∧ p.Looping := by
  obtain ⟨surveyed, same, stale⟩ := verify_eq_nil_iff_parts.mp clean
  obtain ⟨covers, planted⟩ := foldl_surveyModule_covers surveyed
  have spotless : p.Spotless :=
    { node := fun here => (covers.checked_of_reached here).node
      links := fun here => (covers.checked_of_reached here).links _
      root := fun member => planted _ member _ }
  have branches := branches_of_covers covers spotless
  have live (n : NodeId) (here : p.Reached n) := spotless.live roots here
  obtain ⟨fit, links, planted⟩ := spotless_iff.mp spotless
  refine ⟨?_, planted, fun n here _ _ _ => (fit n here).test⟩
  exact
    { live := live _
      one_way := fun here => by
        obtain ⟨i, way, down⟩ := here.exists_way
        exact ⟨i, way, down, fun j way' other => branches.way_unique other down⟩
      owner := branches.child_parent
      scope := spotless.scope
      ref_live := fun here => (fit _ here).ref_live
      callee := fun here => (fit _ here).callee
      definition := fun here => (fit _ here).definition
      registries := (branches.exact_computeRegistries live).sameEntries_iff.mp same
      callers := fun {f data c} listed found member => by
        obtain ⟨met, callee⟩ := staleCallSites_eq_nil_iff.mp (stale f listed) data found c member
        exact ⟨reached_of_foldl_surveyModule (List.Subset.refl _) (by simp) c met, callee⟩ }

theorem Upright.way_unique (upright : p.Upright) {i j : Nat} {way way' : List (NodeId × Nat)}
    (first : p.Way i way n) (second : p.Way j way' n) : i = j ∧ way = way' := by
  obtain ⟨_, _, -, only⟩ := upright.one_way first.reached
  obtain ⟨rfl, rfl⟩ := only _ _ first
  obtain ⟨rfl, rfl⟩ := only _ _ second
  exact ⟨rfl, rfl⟩

/-- Two entries for one node would be two ways to it. -/
theorem Upright.branches (upright : p.Upright) (planted : p.Planted) : p.Branches where
  roots_nodup := by
    refine List.pairwise_filterMap.mpr (List.pairwise_iff_getElem.mpr ?_)
    rintro i j insideI insideJ less r block r' block' rfl
    have first : p.Way i [] r := .root (List.getElem?_eq_getElem insideI) block
    have second : p.Way j [] r := .root (List.getElem?_eq_getElem insideJ) block'
    exact Nat.ne_of_lt less (upright.way_unique first second).1
  root_top {r} root := by
    obtain ⟨m, member, block⟩ := mem_roots.mp root
    exact (planted m member r block).1
  child_parent := upright.owner
  children_nodup {n} here := by
    obtain ⟨i, way, down⟩ := here.exists_way
    refine List.pairwise_iff_getElem.mpr fun k l insideK insideL less same => ?_
    have first := down.step (List.getElem?_eq_getElem insideK)
    have second := down.step (List.getElem?_eq_getElem insideL)
    rw [← same] at second
    have slots := List.cons.inj (upright.way_unique first second).2
    exact Nat.ne_of_lt less (Prod.mk.inj slots.1).2

theorem verify_of_upright (upright : p.Upright) (planted : p.Planted) (looping : p.Looping) :
    p.verify = [] := by
  have branches := upright.branches planted
  have spotless : p.Spotless := spotless_iff.mpr
    ⟨fun n here => ⟨upright.ref_live here, upright.callee here, upright.definition here,
        looping n here _ _ _⟩, fun n c here child => by
      obtain ⟨i, way, down⟩ := here.exists_way
      obtain ⟨k, slot⟩ := List.mem_iff_getElem?.mp child
      refine ⟨upright.live (here.child child), upright.owner here child, ?_⟩
      rw [upright.scope (.step down slot), scopeBelow_eq_scopeAlong (upright.scope down)],
      planted⟩
  exact verify_of_spotless branches spotless (fun _ => upright.live) upright.registries
    fun listed => upright.callers listed

/-- The verifier reports nothing, on live module roots, exactly if all that can be reached is sound.
A circle below a root would give its nodes many ways, so none has to be excluded beforehand. -/
theorem verify_eq_nil_iff (p : Program) : (p.verify = [] ∧ ∀ r ∈ p.roots, p.Live r) ↔
    p.Upright ∧ p.Planted ∧ p.Looping := by
  constructor
  · rintro ⟨clean, roots⟩
    exact upright_of_verify clean roots
  · rintro ⟨upright, planted, looping⟩
    exact ⟨verify_of_upright upright planted looping, fun r root => upright.live (.root root)⟩

end MiddleEnd.Program
