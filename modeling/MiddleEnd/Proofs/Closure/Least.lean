import MiddleEnd.Proofs.Closure.Capture
import MiddleEnd.Proofs.Flow.Fixpoint

namespace MiddleEnd

namespace Flow.Ascending

variable {α : Type} {rank : α → Int}

/-- Members stand by rank, each once. -/
def Sorted (rank : α → Int) (xs : List α) : Prop := xs.Pairwise (rank · < rank ·)

theorem Sorted.insert (apart : ∀ {x y}, rank x = rank y → x = y) {a : α} {xs : List α}
    (sorted : Sorted rank xs) : Sorted rank (insert rank a xs) := by
  induction xs with
  | nil => exact List.pairwise_singleton _ _
  | cons b rest ih =>
    obtain ⟨first, later⟩ := List.pairwise_cons.mp sorted
    rw [Ascending.insert]
    split
    · rename_i below
      refine List.pairwise_cons.mpr ⟨fun c member => ?_, sorted⟩
      rcases List.mem_cons.mp member with rfl | member
      · exact below
      · exact below.trans (first c member)
    · split
      · rename_i below
        refine List.pairwise_cons.mpr ⟨fun c member => ?_, ih later⟩
        rcases (mem_insert apart).mp member with rfl | member
        · exact below
        · exact first c member
      · exact sorted

theorem Sorted.union (apart : ∀ {x y}, rank x = rank y → x = y) {xs : List α} (ys : List α)
    (sorted : Sorted rank xs) : Sorted rank (union rank xs ys) := by
  induction ys generalizing xs with
  | nil => exact sorted
  | cons y rest ih => exact ih (sorted.insert apart)

theorem Sorted.nodup {xs : List α} (sorted : Sorted rank xs) : xs.Nodup :=
  sorted.imp fun {a b} (below : rank a < rank b) same => by
    rw [same] at below
    exact lt_irrefl _ below

/-- The members say which list it is, and a list with more members is longer. -/
theorem Sorted.eq_or_length_lt {xs ys : List α} (sorted : Sorted rank xs) (sortedY : Sorted rank ys)
    (below : xs ⊆ ys) : xs = ys ∨ xs.length < ys.length := by
  have sub := sorted.nodup.subperm below
  by_cases short : xs.length < ys.length
  · exact .inr short
  · refine .inl (List.Perm.eq_of_pairwise (fun a b _ _ ab ba => ?_) sorted sortedY
      (sub.perm_of_length_le (Nat.not_lt.mp short)))
    exact absurd ab (lt_asymm ba)

end Flow.Ascending

namespace Calls.CallGraph

open Program

variable {p : Program}

theorem mem_foldl_insertNew {α : Type} [BEq α] [LawfulBEq α] {entries acc : List α} {a : α} :
    a ∈ entries.foldl Registries.insertNew acc ↔ a ∈ acc ∨ a ∈ entries := by
  induction entries generalizing acc with
  | nil => simp
  | cons entry rest ih =>
    rw [List.foldl_cons, ih, Registries.mem_insertNew, List.mem_cons]
    tauto

theorem mem_callees {f g : SymbolId} : g ∈ (build p).callees f ↔
    ∃ call ∈ p.registries.calls, edge? p call = some (f, g) := by
  rw [callees, build, List.mem_map]
  simp only [List.mem_filter, mem_foldl_insertNew, List.mem_filterMap]
  constructor
  · rintro ⟨⟨caller, callee⟩, ⟨listed, same⟩, rfl⟩
    obtain ⟨call, member, edge⟩ := listed.resolve_left (by simp)
    cases beq_iff_eq.mp same
    exact ⟨call, member, edge⟩
  · rintro ⟨call, member, edge⟩
    exact ⟨(f, g), ⟨.inr ⟨call, member, edge⟩, beq_self_eq_true f⟩, rfl⟩

theorem edge?_eq_some {call : NodeId} {f g : SymbolId} : edge? p call = some (f, g) ↔
    p.enclosingFn? call = some f ∧ p.callee? call = some g ∧
      f ∈ p.registries.fns ∧ g ∈ p.registries.fns := by
  unfold edge?
  cases p.enclosingFn? call with
  | none => simp
  | some caller =>
    cases p.callee? call with
    | none => simp
    | some callee =>
      simp only [Option.bind_eq_bind, Option.bind_some, Option.pure_def]
      split
      · rename_i both
        simp only [Bool.and_eq_true, List.contains_iff_mem] at both
        simp only [Option.some.injEq, Prod.mk.injEq]
        constructor
        · rintro ⟨rfl, rfl⟩
          exact ⟨rfl, rfl, both⟩
        · rintro ⟨rfl, rfl, _⟩
          exact ⟨rfl, rfl⟩
      · rename_i missing
        simp only [Bool.and_eq_true, List.contains_iff_mem] at missing
        constructor
        · nofun
        · rintro ⟨⟨⟩, ⟨⟩, both⟩
          exact absurd both missing

end Calls.CallGraph

namespace Closure

open Program Calls

variable {p : Program}

/-- The node stands in the formals or the body of the function, and in no function inside it. -/
def Holds (p : Program) (f : SymbolId) (n : NodeId) : Prop :=
  p.Reached n ∧ ∃ d, p.Innermost d f n

/-- The function itself refers to the symbol. -/
def Refers (p : Program) (f s : SymbolId) : Prop :=
  ∃ n, Holds p f n ∧ (p.kind n).symRef? = some s

/-- A call in the function itself is bound to the other one. -/
def CallsTo (p : Program) (f g : SymbolId) : Prop :=
  ∃ call ∈ p.registries.calls, Holds p f call ∧ p.callee? call = some g

theorem Holds.listed (tidy : p.Tidy) {f : SymbolId} {n : NodeId} (holds : Holds p f n) :
    f ∈ p.registries.fns := by
  obtain ⟨_, d, inner⟩ := holds
  exact tidy.registered_of_placed ⟨inner.reached, inner.fnDef, inner.defines⟩

theorem Refers.listed (tidy : p.Tidy) {f s : SymbolId} (refers : Refers p f s) :
    f ∈ p.registries.fns := by
  obtain ⟨_, holds, _⟩ := refers
  exact holds.listed tidy

theorem CallsTo.listed (tidy : p.Tidy) {f g : SymbolId} (calls : CallsTo p f g) :
    f ∈ p.registries.fns := by
  obtain ⟨_, _, holds, _⟩ := calls
  exact holds.listed tidy

/-- Functions that call one another up to one that refers to the symbol, an outer variable of all. -/
structure Demand (p : Program) (s : SymbolId) (chain : List SymbolId) : Prop where
  calls : chain.IsChain (CallsTo p)
  refers : ∃ last ∈ chain.getLast?, Refers p last s
  outer : ∀ g ∈ chain, p.isOuterVar s g = true

/-- The function or one that it calls, directly or not, needs the symbol from outside. -/
def Demanded (p : Program) (s f : SymbolId) : Prop :=
  ∃ chain, chain.head? = some f ∧ Demand p s chain

theorem Demanded.own {s f : SymbolId} (outer : p.isOuterVar s f = true) (refers : Refers p f s) :
    Demanded p s f :=
  ⟨[f], rfl, List.isChain_singleton f, ⟨f, rfl, refers⟩, by simpa using outer⟩

theorem Demanded.passed {s f g : SymbolId} (outer : p.isOuterVar s f = true)
    (calls : CallsTo p f g) (demanded : Demanded p s g) : Demanded p s f := by
  obtain ⟨chain, first, demand⟩ := demanded
  obtain ⟨rest, rfl⟩ : ∃ rest, chain = g :: rest := by
    cases chain with
    | nil => cases first
    | cons h rest => exact ⟨rest, by rw [Option.some.inj first]⟩
  refine ⟨f :: g :: rest, rfl, List.isChain_cons_cons.mpr ⟨calls, demand.calls⟩, ?_, ?_⟩
  · rw [List.getLast?_cons_cons]
    exact demand.refers
  · intro h member
    rcases List.mem_cons.mp member with rfl | member
    · exact outer
    · exact demand.outer h member

/-- Induction along the calls, from the function that refers to the symbol. -/
theorem Demanded.induct {s : SymbolId} {motive : SymbolId → Prop}
    (own : ∀ {f}, p.isOuterVar s f = true → Refers p f s → motive f)
    (passed : ∀ {f g}, p.isOuterVar s f = true → CallsTo p f g → motive g → motive f)
    {f : SymbolId} (demanded : Demanded p s f) : motive f := by
  obtain ⟨chain, first, demand⟩ := demanded
  induction chain generalizing f with
  | nil => cases first
  | cons g rest ih =>
    cases first
    have outer := demand.outer g List.mem_cons_self
    cases rest with
    | nil =>
      obtain ⟨last, isLast, refers⟩ := demand.refers
      cases isLast
      exact own outer refers
    | cons h rest =>
      obtain ⟨calls, later⟩ := List.isChain_cons_cons.mp demand.calls
      refine passed outer calls (ih rfl ⟨later, ?_, fun i member => ?_⟩)
      · rw [← List.getLast?_cons_cons]
        exact demand.refers
      · exact demand.outer i (List.mem_cons_of_mem _ member)

theorem mem_directCaptures {f v : SymbolId} :
    v ∈ directCaptures p f ↔ v ∈ ownRefs p f ∧ p.isOuterVar v f = true := by
  rw [directCaptures, Flow.Ascending.ofList, Flow.Ascending.mem_union captureRank_apart,
    List.mem_filter]
  simp

theorem mem_ownRefs (tidy : p.Tidy) {f v : SymbolId} (listed : f ∈ p.registries.fns) :
    v ∈ ownRefs p f ↔ Refers p f v := by
  obtain ⟨d, placed⟩ := tidy.placed_of_registered listed
  have live := tidy.sound.live_of_reached placed.1
  rw [ownRefs, (tidy.fnBody?_eq placed).1]
  simp only [List.mem_filterMap, tidy.sound.forest.mem_collectOwn live]
  constructor
  · rintro ⟨n, ⟨own, tag⟩, ref⟩
    have different : d ≠ n := by
      rintro rfl
      obtain ⟨_, formals, body, kind, _⟩ := tidy.fnBody?_eq placed
      rw [kind] at ref
      cases ref
    obtain ⟨reached, scope⟩ := (tidy.own_iff placed.1 placed.2.1 placed.2.2).mp ⟨own, different⟩
    have fn := tidy.isFn_of_fnDef live placed.2.1 placed.2.2
    exact ⟨n, ⟨reached, tidy.sound.innermost_of_scope reached scope fn⟩, ref⟩
  · rintro ⟨n, ⟨reached, e, inner⟩, ref⟩
    have scope := tidy.scope_of_innermost reached inner
    have own := ((tidy.own_iff placed.1 placed.2.1 placed.2.2).mpr ⟨reached, scope⟩).1
    refine ⟨n, ⟨own, ?_⟩, ref⟩
    exact NodeKind.symRef?_isSome_iff.mp (by rw [ref]; rfl)

theorem callsTo_iff (tidy : p.Tidy) {f g : SymbolId} (listed : g ∈ p.registries.fns) :
    CallsTo p f g ↔ g ∈ (CallGraph.build p).callees f := by
  rw [CallGraph.mem_callees]
  refine exists_congr fun call => and_congr_right fun member => ?_
  rw [CallGraph.edge?_eq_some]
  constructor
  · rintro ⟨⟨reached, d, inner⟩, callee⟩
    have live := tidy.sound.live_of_reached inner.reached
    have fn := tidy.isFn_of_fnDef live inner.fnDef inner.defines
    refine ⟨?_, callee, Holds.listed tidy ⟨reached, d, inner⟩, listed⟩
    exact Option.filter_eq_some_iff.mpr ⟨tidy.scope_of_innermost reached inner, fn⟩
  · rintro ⟨around, callee, _, _⟩
    obtain ⟨scope, fn⟩ := Option.filter_eq_some_iff.mp around
    have reached := (tidy.sound.exact.mem_calls.mp member).1
    exact ⟨⟨reached, tidy.sound.innermost_of_scope reached scope fn⟩, callee⟩

/-- Sets of symbols of the program, as the capture problem keeps them. -/
def CaptureSet (p : Program) (caps : List SymbolId) : Prop :=
  Flow.Ascending.Sorted captureRank caps ∧ ∀ v ∈ caps, v.index < p.symbols.size

theorem CaptureSet.length_le {caps : List SymbolId} (fits : CaptureSet p caps) :
    caps.length ≤ p.symbols.size := by
  have distinct : (caps.map SymbolId.index).Nodup :=
    fits.1.nodup.map fun a b => SymbolId.index_inj.mp
  have inside : caps.map SymbolId.index ⊆ List.range p.symbols.size := by
    intro i member
    obtain ⟨v, listed, rfl⟩ := List.mem_map.mp member
    exact List.mem_range.mpr (fits.2 v listed)
  simpa using (distinct.subperm inside).length_le

theorem CaptureSet.union {xs ys : List SymbolId} (fits : CaptureSet p xs)
    (known : ∀ v ∈ ys, v.index < p.symbols.size) :
    CaptureSet p (Flow.Ascending.union captureRank xs ys) := by
  refine ⟨fits.1.union captureRank_apart ys, fun v member => ?_⟩
  rcases (Flow.Ascending.mem_union captureRank_apart).mp member with left | right
  · exact fits.2 v left
  · exact known v right

theorem captureSet_directCaptures (p : Program) (f : SymbolId) :
    CaptureSet p (directCaptures p f) := by
  refine CaptureSet.union ⟨List.Pairwise.nil, nofun⟩ fun v member => ?_
  exact known_of_isOuterVar (List.mem_filter.mp member).2

variable {g : CallGraph}

theorem transfer_eq {node : Nat} {f : SymbolId} (found : g.functions[node]? = some f)
    (fromCallees : List SymbolId) : (captureProblem p g).transfer node fromCallees =
      Flow.Ascending.union captureRank (directCaptures p f)
        (fromCallees.filter (p.isOuterVar · f)) := by
  simp only [captureProblem, found]

theorem size_captureProblem : (captureProblem p g).size = g.functions.length := by
  simp [Flow.Problem.size, captureProblem, CallGraph.successors]

theorem exists_function {node : Nat} (known : node < (captureProblem p g).size) :
    ∃ f, g.functions[node]? = some f := by
  rw [size_captureProblem] at known
  exact ⟨_, List.getElem?_eq_getElem known⟩

theorem captureProblem_graded (p : Program) (g : CallGraph) :
    (captureProblem p g).Graded (CaptureSet p) (· ⊆ ·) List.length where
  fits_bottom := ⟨List.Pairwise.nil, nofun⟩
  fits_join ofA ofB := ofA.union ofB.2
  fits_transfer {node a} known ofA := by
    obtain ⟨f, found⟩ := exists_function known
    rw [transfer_eq found]
    exact (captureSet_directCaptures p f).union fun v member => ofA.2 v (List.mem_filter.mp member).1
  refl _ := List.Subset.refl _
  trans := List.Subset.trans
  antisymm ofA ofB below above := by
    rcases ofA.1.eq_or_length_lt ofB.1 below with same | short
    · exact same
    · have long := (ofB.1.nodup.subperm above).length_le
      omega
  bottom_le a := List.nil_subset a
  le_join_left _ _ _ member := (Flow.Ascending.mem_union captureRank_apart).mpr (.inl member)
  le_join_right _ _ _ member := (Flow.Ascending.mem_union captureRank_apart).mpr (.inr member)
  join_le _ _ left right _ member :=
    ((Flow.Ascending.mem_union captureRank_apart).mp member).elim (left ·) (right ·)
  transfer_mono {node a b} known _ _ below v member := by
    obtain ⟨f, found⟩ := exists_function known
    rw [transfer_eq found, Flow.Ascending.mem_union captureRank_apart, List.mem_filter] at member ⊢
    exact member.imp_right fun passed => ⟨below passed.1, passed.2⟩
  rank_lt ofA ofB below different := (ofA.1.eq_or_length_lt ofB.1 below).resolve_left different
  rank_le fits := fits.length_le

theorem mem_succOf {node s : Nat} {f : SymbolId} (found : g.functions[node]? = some f) :
    s ∈ (captureProblem p g).succOf node ↔ ∃ callee ∈ g.callees f, g.indexOf? callee = some s := by
  have successors : (captureProblem p g).succOf node = (g.callees f).filterMap g.indexOf? := by
    simp [Flow.Problem.succOf, captureProblem, CallGraph.successors, List.getD_eq_getElem?_getD,
      found]
  rw [successors, List.mem_filterMap]

theorem function_of_indexOf? {f : SymbolId} {i : Nat} (found : g.indexOf? f = some i) :
    g.functions[i]? = some f := by
  obtain ⟨known, same, _⟩ := List.findIdx?_eq_some_iff_getElem.mp found
  rw [List.getElem?_eq_getElem known, beq_iff_eq.mp same]

theorem succOf_lt {node s : Nat} (member : s ∈ (captureProblem p g).succOf node) :
    s < (captureProblem p g).size := by
  rw [size_captureProblem]
  cases found : g.functions[node]? with
  | none =>
    simp [Flow.Problem.succOf, captureProblem, CallGraph.successors, List.getD_eq_getElem?_getD,
      found] at member
  | some f =>
    obtain ⟨callee, _, place⟩ := (mem_succOf found).mp member
    exact (List.getElem?_eq_some_iff.mp (function_of_indexOf? place)).1

theorem exists_indexOf? {f : SymbolId} (member : f ∈ g.functions) : ∃ i, g.indexOf? f = some i := by
  rw [← Option.isSome_iff_exists, CallGraph.indexOf?, List.idxOf?, List.findIdx?_isSome,
    List.any_eq_true]
  exact ⟨f, member, beq_self_eq_true f⟩

theorem mem_joined {facts : Flow.Facts (List SymbolId)} {node : Nat} {v : SymbolId} :
    v ∈ (captureProblem p g).joined facts node ↔
      ∃ s ∈ (captureProblem p g).succOf node, v ∈ facts.inAt (captureProblem p g) s := by
  have union {ins : Nat → List SymbolId} (succ : List Nat) (acc : List SymbolId) :
      v ∈ succ.foldl (fun acc s => Flow.Ascending.union captureRank acc (ins s)) acc ↔
        v ∈ acc ∨ ∃ s ∈ succ, v ∈ ins s := by
    induction succ generalizing acc with
    | nil => simp
    | cons s rest ih =>
      rw [List.foldl_cons, ih, Flow.Ascending.mem_union captureRank_apart]
      simp only [List.mem_cons, exists_eq_or_imp]
      tauto
  refine (union _ _).trans (or_iff_right ?_)
  exact List.not_mem_nil

namespace Captures

/-- What a function captures is IN at its node. -/
theorem of_eq (distinct : g.functions.Nodup) {node : Nat} {f : SymbolId}
    (found : g.functions[node]? = some f) :
    (compute p g).of f = (captureProblem p g).solve.inAt (captureProblem p g) node := by
  let problem := captureProblem p g
  have entry {caps : List SymbolId} (member : (f, caps) ∈ (compute p g).sets) :
      problem.solve.ins[node]? = some caps := by
    obtain ⟨i, place⟩ := List.mem_iff_getElem?.mp (List.mem_of_mem_filter member)
    obtain ⟨atF, atCaps⟩ := List.getElem?_zip_eq_some.mp place
    have same : i = node := by
      obtain ⟨knownI, atI⟩ := List.getElem?_eq_some_iff.mp atF
      obtain ⟨known, atNode⟩ := List.getElem?_eq_some_iff.mp found
      exact (distinct.getElem_inj_iff).mp (atI.trans atNode.symm)
    rw [← same, ← Array.getElem?_toList]
    exact atCaps
  rw [of, Flow.Facts.inAt, Array.getD_eq_getD_getElem?]
  cases listed : (compute p g).sets.lookup f with
  | some caps =>
    obtain ⟨before, after, equal, _⟩ := List.lookup_eq_some_iff.mp listed
    have member : (f, caps) ∈ (compute p g).sets := by
      rw [equal]
      simp
    rw [entry member]
    rfl
  | none =>
    cases value : problem.solve.ins[node]? with
    | none => rfl
    | some caps =>
      -- A function that is not listed has no captures to be listed with.
      have place : (f, caps) ∈ g.functions.zip problem.solve.ins.toList :=
        List.mem_iff_getElem?.mpr ⟨node, List.getElem?_zip_eq_some.mpr
          ⟨found, (Array.getElem?_toList ..).trans value⟩⟩
      cases caps with
      | nil => rfl
      | cons v rest =>
        have missing := List.lookup_eq_none_iff.mp listed _ (List.mem_filter.mpr ⟨place, rfl⟩)
        simp at missing

theorem captureProblem_settled (p : Program) (g : CallGraph) :
    Flow.Problem.Graded.Rising (captureProblem p g) (CaptureSet p) (· ⊆ ·)
        (captureProblem p g).solve.toFacts ∧
      Flow.Problem.Graded.Settled (captureProblem p g) (captureProblem p g).solve.toFacts :=
  (captureProblem_graded p g).solveInOrder_settled (by simp)

/-- Captures come from callees that are functions of the program. -/
theorem mem_joined_iff (tidy : p.Tidy) {node : Nat} {f s : SymbolId}
    (found : (CallGraph.build p).functions[node]? = some f) :
    s ∈ (captureProblem p (.build p)).joined (captureProblem p (.build p)).solve.toFacts node ↔
      ∃ h ∈ p.registries.fns, CallsTo p f h ∧ s ∈ (compute p (.build p)).of h := by
  have distinct : (CallGraph.build p).functions.Nodup := tidy.sound.exact.distinct.entries .fn
  rw [mem_joined]
  constructor
  · rintro ⟨i, member, inside⟩
    obtain ⟨h, callee, place⟩ := (mem_succOf found).mp member
    have atH := function_of_indexOf? place
    have listed : h ∈ p.registries.fns := List.mem_of_getElem? atH
    refine ⟨h, listed, (callsTo_iff tidy listed).mpr callee, ?_⟩
    rwa [of_eq distinct atH]
  · rintro ⟨h, listed, calls, captured⟩
    obtain ⟨i, place⟩ := exists_indexOf? (g := .build p) listed
    rw [of_eq distinct (function_of_indexOf? place)] at captured
    exact ⟨i, (mem_succOf found).mpr ⟨h, (callsTo_iff tidy listed).mp calls, place⟩, captured⟩

/-- A function captures the outer variables that it refers to and those that its callees capture. -/
theorem mem_of_iff_step (tidy : p.Tidy) {f s : SymbolId} (listed : f ∈ p.registries.fns) :
    s ∈ (compute p (.build p)).of f ↔ p.isOuterVar s f = true ∧
      (Refers p f s ∨
        ∃ h ∈ p.registries.fns, CallsTo p f h ∧ s ∈ (compute p (.build p)).of h) := by
  let g := CallGraph.build p
  have distinct : g.functions.Nodup := tidy.sound.exact.distinct.entries .fn
  obtain ⟨i, found⟩ : ∃ i, g.functions[i]? = some f := List.mem_iff_getElem?.mp listed
  have known : i < (captureProblem p g).size := by
    rw [size_captureProblem]
    exact (List.getElem?_eq_some_iff.mp found).1
  obtain ⟨out, into⟩ := (captureProblem_settled p g).2 i known
  rw [of_eq distinct found, into, transfer_eq found, Flow.Ascending.mem_union captureRank_apart,
    mem_directCaptures, mem_ownRefs tidy listed, List.mem_filter, out, mem_joined_iff tidy found]
  tauto

/-- Whatever a function captures is demanded: the sets are no larger than the chains make them. -/
theorem demanded_of_mem (tidy : p.Tidy) {f s : SymbolId} (listed : f ∈ p.registries.fns)
    (captured : s ∈ (compute p (.build p)).of f) : Demanded p s f := by
  classical
  let g := CallGraph.build p
  have distinct : g.functions.Nodup := tidy.sound.exact.distinct.entries .fn
  -- The demanded symbols satisfy the equations, so the least solution is below them.
  let every := (List.range p.symbols.size).map SymbolId.mk
  let demandedBy (i : Nat) : List SymbolId :=
    every.filter fun v => ∃ h, g.functions[i]? = some h ∧ Demanded p v h
  let demandedBelow (i : Nat) : List SymbolId :=
    every.filter fun v => ∃ j ∈ (captureProblem p g).succOf i, v ∈ demandedBy j
  have memEvery {v : SymbolId} : v ∈ every ↔ v.index < p.symbols.size := by
    simp only [every, List.mem_map, List.mem_range]
    exact ⟨fun ⟨i, known, same⟩ => same ▸ known, fun known => ⟨v.index, known, rfl⟩⟩
  have closed : Flow.Problem.Graded.Closed (captureProblem p g) (CaptureSet p) (· ⊆ ·)
      demandedBy demandedBelow :=
    { fits_out := fun {i} _ => by
        refine ⟨List.Pairwise.filter _ (List.pairwise_map.mpr ?_), fun v member => ?_⟩
        · exact List.pairwise_lt_range.imp fun below => by simpa [captureRank] using below
        · exact memEvery.mp (List.mem_filter.mp member).1
      join_le := fun {i j} _ member v inside => by
        refine List.mem_filter.mpr ⟨(List.mem_filter.mp inside).1, ?_⟩
        exact decide_eq_true ⟨j, member, inside⟩
      transfer_le := fun {i} known v member => by
        obtain ⟨h, atH⟩ := exists_function known
        have listedH : h ∈ p.registries.fns := List.mem_of_getElem? atH
        rw [transfer_eq atH, Flow.Ascending.mem_union captureRank_apart, mem_directCaptures,
          mem_ownRefs tidy listedH, List.mem_filter] at member
        have outer : p.isOuterVar v h = true := member.elim And.right And.right
        refine List.mem_filter.mpr ⟨memEvery.mpr (known_of_isOuterVar outer), ?_⟩
        refine decide_eq_true ⟨h, atH, ?_⟩
        rcases member with ⟨refers, _⟩ | ⟨passed, _⟩
        · exact .own outer refers
        · obtain ⟨j, succ, inside⟩ := of_decide_eq_true (List.mem_filter.mp passed).2
          obtain ⟨k, atK, demanded⟩ := of_decide_eq_true (List.mem_filter.mp inside).2
          obtain ⟨callee, calls, place⟩ := (mem_succOf atH).mp succ
          cases atK.symm.trans (function_of_indexOf? place)
          have listedK : k ∈ p.registries.fns := List.mem_of_getElem? atK
          exact .passed outer ((callsTo_iff tidy listedK).mpr calls) demanded }
  have inside (node : Nat) (member : node ∈ (List.range (captureProblem p g).size).reverse) :
      node < (captureProblem p g).size := by simpa using member
  have under := (captureProblem_graded p g).solveInOrder_under inside (fun _ _ => succOf_lt) closed
  obtain ⟨i, found⟩ : ∃ i, g.functions[i]? = some f := List.mem_iff_getElem?.mp listed
  have known : i < (captureProblem p g).size := by
    rw [size_captureProblem]
    exact (List.getElem?_eq_some_iff.mp found).1
  rw [of_eq distinct found] at captured
  have listedS := (under i known).1 captured
  obtain ⟨h, atH, demanded⟩ := of_decide_eq_true (List.mem_filter.mp listedS).2
  cases atH.symm.trans found
  exact demanded

theorem mem_of_demanded (tidy : p.Tidy) {f s : SymbolId} (demanded : Demanded p s f) :
    f ∈ p.registries.fns ∧ s ∈ (compute p (.build p)).of f := by
  refine demanded.induct (motive := fun f => f ∈ p.registries.fns ∧ s ∈ (compute p _).of f) ?_ ?_
  · intro f outer refers
    have listed := refers.listed tidy
    exact ⟨listed, (mem_of_iff_step tidy listed).mpr ⟨outer, .inl refers⟩⟩
  · intro f h outer calls ⟨listedH, captured⟩
    have listed := calls.listed tidy
    exact ⟨listed, (mem_of_iff_step tidy listed).mpr ⟨outer, .inr ⟨h, listedH, calls, captured⟩⟩⟩

theorem of_sorted (tidy : p.Tidy) {f : SymbolId} (listed : f ∈ p.registries.fns) :
    ((compute p (.build p)).of f).Pairwise (·.index < ·.index) := by
  obtain ⟨i, found⟩ : ∃ i, (CallGraph.build p).functions[i]? = some f :=
    List.mem_iff_getElem?.mp listed
  rw [of_eq (tidy.sound.exact.distinct.entries .fn) found]
  refine ((captureProblem_settled p _).1.fits_in i).1.imp fun below => ?_
  simpa [captureRank] using below

end Captures

end Closure

end MiddleEnd
