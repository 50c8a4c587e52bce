import MiddleEnd.Proofs.Flow.Liveness
import MiddleEnd.Proofs.Store.Agree
import MiddleEnd.Proofs.Store.Erase
import MiddleEnd.Proofs.Surface.Lowering

namespace MiddleEnd.Store

open MiddleEnd.Flow Outcome TransformM

/-- Is the symbol a local of the function that nothing outside can reach? Its address is not taken, no
function captures it, and it is not what the function returns. -/
def isPrivate (p : Program) (f x : SymbolId) : Bool :=
  decide (x ∈ localsOf p f ∧ x ∉ addressTaken p f ∧ p.hasFlag x .captured = false ∧
    p.hasFlag x .returnValue = false)

theorem isPrivate_iff {p : Program} {f x : SymbolId} : isPrivate p f x = true ↔
    x ∈ localsOf p f ∧ x ∉ addressTaken p f ∧ p.hasFlag x .captured = false ∧
      p.hasFlag x .returnValue = false :=
  decide_eq_true_iff

/-- Private locals are those that are judged by liveness alone. -/
theorem isPrivate_iff_removable {p : Program} {f x : SymbolId} : isPrivate p f x = true ↔
    x ∈ localsOf p f ∧ removable p (addressTaken p f) x = true := by
  simp [isPrivate_iff, removable, and_assoc]

/-- The outside world does not notice when a pure value is stored in a symbol that is no part of
it. -/
def Quiet {Val World : Type} (p : Program) (own : SymbolId → Bool) (I : Meaning Val World) : Prop :=
  ∀ (store target value : NodeId) (x : SymbolId), p.kind store = .assign target value →
    p.kind target = .symRef x → own x = true → isPure p value = true →
    ∀ (values : List Val) (world : World), I.effect (.stmt store) values world = world

/-! The stores that are found dead. -/

section

variable {p : Program} {f : SymbolId} {g : Graph} {dead : List NodeId} {store : NodeId} {x : SymbolId}

/-- The dead stores of a block, from what is live after its items. -/
def deadIn (p : Program) (f : SymbolId) (g : Graph) (b : Nat) : List NodeId :=
  let l := Liveness.ofGraph p g
  ((g.block b).items.zip (l.afterEach p (l.outOf b) (g.block b).items).1).filterMap
    fun (item, live) => deadStore? p l (addressTaken p f) item live

/-- Once there is a graph, the dead stores are found without fail. -/
theorem deadStores_eq (built : Graph.build p f = .ok g) :
    deadStores p f = .ok ((List.range g.blocks.size).flatMap (deadIn p f g)) := by
  have each : deadStoresIn p g (Liveness.ofGraph p g) (addressTaken p f) =
      fun b => pure (deadIn p f g b) := by
    funext b
    rw [deadStoresIn, Liveness.liveAfter, Liveness.checkFresh_eq_ok built]
    rfl
  refine bind_eq_ok_iff.mpr ⟨g, built, bind_eq_ok_iff.mpr ⟨_, Liveness.analyze_eq_ok built, ?_⟩⟩
  rw [each, List.mapM_pure]
  rfl

/-- The dead stores of a block are found in the order in which they stand there. -/
theorem deadIn_sublist (b : Nat) : ((deadIn p f g b).map Item.stmt).Sublist (g.block b).items := by
  unfold deadIn
  dsimp only
  generalize ((Liveness.ofGraph p g).afterEach p ((Liveness.ofGraph p g).outOf b) (g.block b).items).1 = lives
  induction (g.block b).items generalizing lives with
  | nil => simp
  | cons item rest ih =>
    cases lives with
    | nil => simp
    | cons live lives =>
      rw [List.zip_cons_cons, List.filterMap_cons]
      cases found : deadStore? p (Liveness.ofGraph p g) (addressTaken p f) item live with
      | none => exact (ih lives).cons _
      | some store =>
        obtain ⟨rfl, _⟩ := deadStore?_eq_some found
        exact (ih lives).cons_cons _

/-- The store of a pure value to a private local that no path needs from there. -/
def IsDead (p : Program) (f : SymbolId) (g : Graph) (b : Nat) (store : NodeId) : Prop :=
  ∃ before rest target value x, (g.block b).items = before ++ .stmt store :: rest ∧
    p.kind store = .assign target value ∧ p.kind target = .symRef x ∧ isPrivate p f x = true ∧
    isPure p value = true ∧ ¬ Needed p g x b rest

theorem mem_deadIn (built : Graph.build p f = .ok g) {b : Nat} (known : b < g.blocks.size) :
    store ∈ deadIn p f g b ↔ IsDead p f g b store := by
  constructor
  · intro member
    obtain ⟨⟨item, live⟩, listed, found⟩ := List.mem_filterMap.mp member
    obtain ⟨rfl, target, value, x, bit, kind, ref, ofX, unneeded, judged, pure⟩ :=
      deadStore?_eq_some found
    obtain ⟨k, there⟩ := List.mem_iff_getElem?.mp listed
    obtain ⟨here, after⟩ := List.getElem?_zip_eq_some.mp there
    obtain ⟨inside, (here : _ = Item.stmt store)⟩ := List.getElem?_eq_some_iff.mp here
    have isLocal : x ∈ localsOf p f := (Liveness.exists_bit?_iff built).mp ⟨bit, ofX⟩
    have isRef : p.kind target = .symRef x := by
      cases kind : p.kind target <;> simp_all [NodeKind.symRef?]
    refine ⟨(g.block b).items.take k, (g.block b).items.drop (k + 1), target, value, x, ?_, kind,
      isRef, isPrivate_iff_removable.mpr ⟨isLocal, judged⟩, pure, fun needed => ?_⟩
    · rw [← here, ← List.drop_eq_getElem_cons, List.take_append_drop]
    · rw [(Liveness.contains_afterEach built ofX known after).mpr needed] at unneeded
      cases unneeded
  · rintro ⟨before, rest, target, value, x, items, kind, isRef, isPrivate, pure, unneeded⟩
    obtain ⟨isLocal, judged⟩ := isPrivate_iff_removable.mp isPrivate
    obtain ⟨bit, ofX⟩ := (Liveness.exists_bit?_iff built).mpr isLocal
    have here : (g.block b).items[before.length]? = some (.stmt store) := by simp [items]
    have inside : before.length < ((Liveness.ofGraph p g).afterEach p
        ((Liveness.ofGraph p g).outOf b) (g.block b).items).1.length := by
      rw [Liveness.length_afterEach, items]
      simp
    obtain ⟨live, after⟩ : ∃ live, _ = some live := ⟨_, List.getElem?_eq_getElem inside⟩
    have dead := Liveness.contains_afterEach built ofX known after
    have last : (g.block b).items.drop (before.length + 1) = rest := by simp [items, List.drop_append]
    rw [last, ← Bool.not_eq_false, not_iff_comm] at dead
    refine List.mem_filterMap.mpr ⟨(.stmt store, live), ?_, ?_⟩
    · exact List.mem_iff_getElem?.mpr ⟨before.length, List.getElem?_zip_eq_some.mpr ⟨here, after⟩⟩
    · simp [deadStore?, kind, isRef, NodeKind.symRef?, ofX, dead.mp unneeded, judged, pure]

theorem mem_deadStores (built : Graph.build p f = .ok g) (found : deadStores p f = .ok dead) :
    store ∈ dead ↔ ∃ b < g.blocks.size, IsDead p f g b store := by
  rw [deadStores_eq built] at found
  cases found
  simp only [List.mem_flatMap, List.mem_range]
  exact exists_congr fun b => and_congr_right fun known => mem_deadIn built known

/-- A store stays if the address of its variable is taken anywhere in the definition of the function.
Whatever else may know the storage, such as a formal bound to it, plays no part. -/
theorem not_dead_of_addressed {d prim operand target value : NodeId} {more : List NodeId}
    (tidy : p.Tidy) (placed : p.Placed f d) (found : deadStores p f = .ok dead) (live : p.Live prim)
    (above : p.Above d prim) (takes : p.kind prim = .prim .addrOf (operand :: more))
    (addressed : p.kind operand = .symRef x) (kind : p.kind store = .assign target value)
    (isRef : p.kind target = .symRef x) : store ∉ dead := by
  intro member
  obtain ⟨g, built, _⟩ := bind_eq_ok_iff.mp found
  obtain ⟨_, _, _, _, target', value', y, _, kind', isRef', isPrivate, _⟩ :=
    (mem_deadStores built found).mp member
  cases kind.symm.trans kind'
  cases isRef.symm.trans isRef'
  obtain ⟨foundDef, _, _, _, _⟩ := tidy.fnBody?_eq placed
  have listed : x ∈ addressTaken p f := by
    rw [addressTaken, foundDef]
    refine List.mem_filterMap.mpr ⟨prim, ?_, by rw [addressed?, takes]; simp [addressed, NodeKind.symRef?]⟩
    exact tidy.sound.forest.mem_collect.mpr ⟨live, above, by rw [takes]; rfl⟩
  exact (isPrivate_iff.mp isPrivate).2.1 listed

/-- No dead store is found twice. -/
theorem deadStores_nodup {d : NodeId} (tidy : p.Tidy) (placed : p.Placed f d)
    (built : Graph.build p f = .ok g) (found : deadStores p f = .ok dead) : dead.Nodup := by
  obtain ⟨_, _, once, _⟩ := Graph.contents_of_build tidy placed built
  rw [deadStores_eq built] at found
  cases found
  have sublist : (((List.range g.blocks.size).flatMap (deadIn p f g)).map Item.stmt).Sublist
      (contents g.blocks) := by
    rw [contents, List.map_flatMap]
    generalize List.range g.blocks.size = blocks
    induction blocks with
    | nil => exact List.Sublist.refl _
    | cons b blocks ih => exact (deadIn_sublist b).append ih
  exact List.Nodup.of_map _ (sublist.nodup once)

end

/-! Rounds. -/

section

variable {p q : Program} {f : SymbolId} {d : NodeId} {g : Graph} {dead : List NodeId}

/-- The store of a pure value to a symbol calls nothing and defines nothing. -/
theorem silent_of_pure (tidy : p.Tidy) {store target value : NodeId} {x : SymbolId}
    (kind : p.kind store = .assign target value) (isRef : p.kind target = .symRef x)
    (pure : isPure p value = true) : p.Silent (p.preorder store) := by
  have forest := tidy.sound.forest
  intro n member
  obtain ⟨liveN, above⟩ := forest.mem_preorder.mp member
  refine ⟨?_, tidy.silent_assign (by rw [kind]; rfl) liveN above⟩
  by_cases same : store = n
  · rw [← same, kind]
    rfl
  obtain ⟨c, child, below⟩ := forest.child_above above liveN same
  simp only [Program.children, kind, NodeKind.children, List.mem_cons, List.not_mem_nil, or_false] at child
  rcases child with rfl | rfl
  · have leaf : p.children c = [] := by simp [Program.children, isRef, NodeKind.children]
    by_cases top : c = n
    · rw [← top, isRef]
      rfl
    · obtain ⟨_, inner, _⟩ := forest.child_above below liveN top
      simp [leaf] at inner
  · have judged := List.all_eq_true.mp pure n (forest.mem_preorder.mpr ⟨liveN, below⟩)
    cases kindN : p.kind n <;> simp_all [NodeKind.isCall]

/-- A dead store of a function stands in its definition. -/
theorem stands_of_dead {store : NodeId} (tidy : p.Tidy) (placed : p.Placed f d)
    (built : Graph.build p f = .ok g) (found : deadStores p f = .ok dead) (member : store ∈ dead) :
    p.Reached store ∧ p.Above d store ∧ d ≠ store ∧ ∃ target value x,
      p.kind store = .assign target value ∧ p.kind target = .symRef x ∧ isPrivate p f x = true ∧
      isPure p value = true := by
  have forest := tidy.sound.forest
  obtain ⟨body, foundBody, _, below⟩ := Graph.contents_of_build tidy placed built
  obtain ⟨_, _, body', kindD, foundBody'⟩ := tidy.fnBody?_eq placed
  cases foundBody.symm.trans foundBody'
  obtain ⟨b, _, before, rest, target, value, x, items, kind, isRef, isPrivate, pure, _⟩ :=
    (mem_deadStores built found).mp member
  have listed : .stmt store ∈ contents g.blocks :=
    mem_contents.mpr ⟨b, by rw [show itemsAt g.blocks b = _ from items]; simp⟩
  obtain ⟨live, above, _⟩ := below _ listed
  have child : body ∈ p.children d := by simp [Program.children, kindD, NodeKind.children]
  have link := forest.child_parent (tidy.sound.live_of_reached placed.1) child
  have aboveD : p.Above d store := (Program.Above.of_parent link).trans above
  have different : d ≠ store := by
    rintro rfl
    cases kindD.symm.trans kind
  exact ⟨placed.1.of_above forest live aboveD, aboveD, different,
    target, value, x, kind, isRef, isPrivate, pure⟩

/-- The dead stores can be removed together, and nothing else goes with them. -/
theorem erase_deadStores (settled : p.Settled) (placed : p.Placed f d)
    (built : Graph.build p f = .ok g) (found : deadStores p f = .ok dead) :
    ∃ q, (dead.forM fun store => edit (·.remove store)) p = .ok () q ∧ p.Erased dead q := by
  have tidy := settled.toTidy
  have ends := Program.exists_erased settled (deadStores_nodup tidy placed built found)
    (fun store member => by
      obtain ⟨reached, above, different, target, value, x, kind, _⟩ :=
        stands_of_dead tidy placed built found member
      refine ⟨by rw [kind]; rfl, reached, ?_⟩
      cases above with
      | refl => exact absurd rfl different
      | up link _ => exact ⟨_, link⟩)
    fun store member => by
      obtain ⟨_, _, _, target, value, x, kind, isRef, _, pure⟩ :=
        stands_of_dead tidy placed built found member
      exact silent_of_pure tidy kind isRef pure
  obtain ⟨_, q, removed, erased⟩ := ends.exists_ok
  exact ⟨q, removed, erased⟩

theorem remove_deadStores (settled : p.Settled) (placed : p.Placed f d)
    (built : Graph.build p f = .ok g) (found : deadStores p f = .ok dead) :
    ∃ q, (dead.forM fun store => edit (·.remove store)) p = .ok () q ∧ p.Prunes dead q := by
  obtain ⟨q, removed, erased⟩ := erase_deadStores settled placed built found
  exact ⟨q, removed, erased.toPrunes⟩

/-- Nothing can notice that dead stores are gone. -/
theorem fades_of_prunes {Val World : Type} {I : Meaning Val World} {g' : Graph} (settled : p.Settled)
    (placed : p.Placed f d) (built : Graph.build p f = .ok g) (found : deadStores p f = .ok dead)
    (prunes : p.Prunes dead q) (placedQ : q.Placed f d) (built' : Graph.build q f = .ok g')
    (blocks : g'.blocks = g.blocks.map (Block.keep (Item.isKept dead)))
    (quiet : Quiet p (isPrivate p f) I) : Fades p q g g' (isPrivate p f) I dead := by
  obtain ⟨_, _, once, below⟩ := Graph.contents_of_build settled.toTidy placed built
  obtain ⟨_, _, _, belowQ⟩ := Graph.contents_of_build prunes.settled.toTidy placedQ built'
  have items (b : Nat) : (g'.block b).items = (g.block b).items.filter (Item.isKept dead) := by
    show itemsAt g'.blocks b = _
    rw [blocks, Builder.itemsAt_keep]
    rfl
  constructor
  case items => exact items
  case succ =>
    intro b
    show succAt g'.blocks b = _
    rw [blocks, Builder.succAt_keep]
    rfl
  case accesses =>
    intro b item member kept
    have listed : item ∈ contents g.blocks := mem_contents.mpr ⟨b, member⟩
    have listedQ : item ∈ contents g'.blocks :=
      mem_contents.mpr ⟨b, show item ∈ (g'.block b).items from
        items b ▸ List.mem_filter.mpr ⟨member, kept⟩⟩
    exact accesses_of_prunes settled.toTidy prunes (belowQ item listedQ).1 (below item listed).2.2.2
  case unneeded =>
    intro b before rest store x here member written
    obtain ⟨b', _, _, rest', target, value, y, there, kind, isRef, isOwn, _, unneeded⟩ :=
      (mem_deadStores built found).mp member
    obtain ⟨rfl, rfl⟩ := place_unique once here there
    obtain rfl : x = y := by
      simp only [accesses, kind, isRef, List.mem_append, write_not_mem_reads, false_or,
        List.mem_singleton, Access.write.injEq] at written
      exact written
    exact ⟨isOwn, unneeded⟩
  case effect =>
    intro store values world member
    obtain ⟨_, _, _, _, target, value, x, _, kind, isRef, isOwn, isPure, _⟩ :=
      (mem_deadStores built found).mp member
    exact quiet store target value x kind isRef isOwn isPure values world

/-- The programs that rounds of removing dead stores come to. -/
inductive Rounds (start : Program) : Program → Prop
  | start : Rounds start start
  | round {p q : Program} {f : SymbolId} {dead : List NodeId} : Rounds start p →
      f ∈ sweptFunctions start → deadStores p f = .ok dead →
      (dead.forM fun store => edit (·.remove store)) p = .ok () q → Rounds start q

theorem Rounds.swept {start : Program} (settled : start.Settled) (rounds : Rounds start p) :
    Swept start p := by
  induction rounds with
  | start => exact ⟨settled, .refl⟩
  | round _ _ found removed ih =>
    exact (remove_ends ih fun store member => deadStores_assign found member).of_ok removed

theorem Rounds.placed {start : Program} (settled : start.Settled) (rounds : Rounds start p)
    (swept : f ∈ sweptFunctions start) : ∃ d, p.Placed f d := by
  obtain ⟨d, placed⟩ := settled.placed_of_registered (List.mem_filter.mp swept).1
  exact ⟨d, (rounds.swept settled).2.placed_iff.mpr placed⟩

/-- Dead store removal only makes such rounds, also when it fails. -/
theorem sweepFunction_rounds {start : Program} (settled : start.Settled)
    (swept : f ∈ sweptFunctions start) (fuel : Nat) (rounds : Rounds start p) (tally : Tally) :
    Ends (sweepFunction f fuel tally) p (fun _ => Rounds start) (Rounds start) := by
  induction fuel generalizing p tally with
  | zero => exact Ends.pure rounds
  | succ fuel ih =>
    unfold sweepFunction
    refine Ends.get_bind ?_
    cases found : deadStores p f with
    | error e => exact Ends.throw rounds
    | ok dead =>
      cases dead with
      | nil => exact Ends.pure rounds
      | cons store more =>
        obtain ⟨d, placed⟩ := rounds.placed settled swept
        obtain ⟨g, built, _⟩ := bind_eq_ok_iff.mp found
        obtain ⟨q, removed, _⟩ := remove_deadStores (rounds.swept settled).1 placed built found
        refine Ends.bind (Q := fun _ => Rounds start) ?_ fun _ t kept => ih kept _
        unfold Ends
        rw [removed]
        exact .round rounds swept found removed

theorem eliminateDeadStores_rounds {start : Program} (settled : start.Settled) :
    Ends eliminateDeadStores start (fun _ => Rounds start) (Rounds start) := by
  unfold eliminateDeadStores
  refine Ends.get_bind ?_
  refine Ends.bind (Ends.foldlM
    (I := fun rest _ t => Rounds start t ∧ ∀ f ∈ rest, f ∈ sweptFunctions start)
    ⟨.start, fun _ => id⟩ ?_) fun _ _ kept => Ends.pure kept.1
  intro f rest tally t ⟨rounds, listed⟩
  exact (sweepFunction_rounds settled (listed f List.mem_cons_self) _ rounds tally).mono
    (fun _ _ rounds => ⟨rounds, fun f member => listed f (List.mem_cons_of_mem _ member)⟩) fun _ => id

/-- Each stretch of the run `m` of `p` goes with one of the run `m'` of `q`, and the other way around:
the second shows the same but for the items of some assignments, the moments to which they come agree,
and neither is over before the other. -/
structure Mirrors {Val World : Type} (p q : Program) (g g' : Graph) (own : SymbolId → Bool)
    (I : Meaning Val World) (gone : List NodeId) (m m' : Moment Val World) : Prop where
  forth (n : Nat) : ∃ k, (m'.run own I q g' k).1 = (m.run own I p g n).1.filter (keepsEvent gone) ∧
    Agree p g own I gone (m.run own I p g n).2 (m'.run own I q g' k).2 ∧
    ((m.run own I p g n).2.step own I p g = none → (m'.run own I q g' k).2.step own I q g' = none)
  back (k : Nat) : ∃ n, (m'.run own I q g' k).1 = (m.run own I p g n).1.filter (keepsEvent gone) ∧
    Agree p g own I gone (m.run own I p g n).2 (m'.run own I q g' k).2 ∧
    ((m'.run own I q g' k).2.step own I q g' = none → (m.run own I p g n).2.step own I p g = none)

/-- To remove all dead stores of a function together changes none of its runs, except that the removed
items are missing. -/
theorem round_preserves {tree : Surface.ProgramTree} {start : Program} (lowered : tree.lower = .ok start)
    (rounds : Rounds start p) (swept : f ∈ sweptFunctions start) (found : deadStores p f = .ok dead) :
    ∃ q g g', (dead.forM fun store => edit (·.remove store)) p = .ok () q ∧
      Graph.build p f = .ok g ∧ Graph.build q f = .ok g' ∧
      ∀ {Val World : Type} (I : Meaning Val World), Quiet p (isPrivate p f) I →
        ∀ (locals : SymbolId → Val) (world : World) (choice : Nat),
          Mirrors p q g g' (isPrivate p f) I dead
            (.start g locals world choice) (.start g' locals world choice) := by
  obtain ⟨settledStart, _⟩ := Surface.ProgramTree.lowered lowered
  obtain ⟨settled, _⟩ := rounds.swept settledStart
  obtain ⟨d, placed⟩ := rounds.placed settledStart swept
  obtain ⟨g, built, _⟩ := bind_eq_ok_iff.mp found
  obtain ⟨q, removed, prunes⟩ := remove_deadStores settled placed built found
  obtain ⟨g', built', blocks, placedQ⟩ := Graph.build_of_prunes settled.toTidy placed prunes built
  refine ⟨q, g, g', removed, built, built', fun I quiet locals world choice => ?_⟩
  have fades := fades_of_prunes settled placed built found prunes placedQ built' blocks quiet
  have agree : Agree p g (isPrivate p f) I dead
      (.start g locals world choice) (.start g' locals world choice) :=
    { inside := ⟨[], rfl⟩
      block := rfl
      rest := fades.items 0
      world := rfl
      choice := rfl
      value := fun _ => rfl }
  refine ⟨fun n => ?_, fun k => agree.backward fades k⟩
  obtain ⟨k, events, agreeLast⟩ := agree.forward fades n
  exact ⟨k, events, agreeLast, agreeLast.step_eq_none fades⟩

end

/-- Tests are counted in the outside world, and the result of an item is one more than the sum of what
it reads. -/
def countsTests : Meaning Nat Nat where
  look world _ := world
  result _ values _ := values.sum + 1
  choice _ values _ := values.sum % 2
  effect item _ world :=
    match item with
    | .stmt _ => world
    | _ => world + 1

/-- The last store of `jumpingProgram` can go. -/
theorem jumpingProgram_round : ∃ dead q g g', deadStores Surface.jumpingProgram ⟨1⟩ = .ok dead ∧
    ⟨33⟩ ∈ dead ∧ (dead.forM fun store => edit (·.remove store)) Surface.jumpingProgram = .ok () q ∧
    Graph.build Surface.jumpingProgram ⟨1⟩ = .ok g ∧ Graph.build q ⟨1⟩ = .ok g' ∧
    Mirrors Surface.jumpingProgram q g g' (isPrivate Surface.jumpingProgram ⟨1⟩) countsTests dead
      (.start g (fun _ => 0) 0 0) (.start g' (fun _ => 0) 0 0) := by
  have swept : ⟨1⟩ ∈ sweptFunctions Surface.jumpingProgram := by decide +kernel
  have shape : ((Graph.build Surface.jumpingProgram ⟨1⟩).toOption.map fun g =>
      (g.blocks.size, (g.block 4).items, (g.block 4).succ)) = some (10, [.stmt ⟨33⟩], []) := by
    decide +kernel
  cases built : Graph.build Surface.jumpingProgram ⟨1⟩ with
  | error e =>
    rw [built] at shape
    cases shape
  | ok g =>
    simp only [built, Except.toOption, Option.map_some, Option.some.injEq, Prod.mk.injEq] at shape
    obtain ⟨size, items, leaf⟩ := shape
    have found := deadStores_eq built
    have last : IsDead Surface.jumpingProgram ⟨1⟩ g 4 ⟨33⟩ :=
      ⟨[], [], ⟨32⟩, ⟨31⟩, ⟨3⟩, items, by decide +kernel, by decide +kernel, by decide +kernel,
        by decide +kernel, not_needed_of_leaf leaf⟩
    have listed := (mem_deadStores built found).mpr ⟨4, by omega, last⟩
    obtain ⟨q, g₁, g', removed, built₁, built', mirrors⟩ :=
      round_preserves Surface.jumpingTree_lowers .start swept found
    cases built.symm.trans built₁
    exact ⟨_, q, g, g', found, listed, removed, rfl, built', mirrors countsTests (fun _ _ _ _ _ _ _ _ _ _ => rfl) _ _ _⟩

end MiddleEnd.Store
