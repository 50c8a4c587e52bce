import MiddleEnd.Proofs.Arena.Untouched
import MiddleEnd.Proofs.Flow.Liveness
import MiddleEnd.Proofs.Flow.Plain
import MiddleEnd.Proofs.Surface.Lowering

namespace MiddleEnd

namespace Flow

open Program

variable {p q : Program} {d body : NodeId} {f : SymbolId} {formals : List NodeId}

section

variable (untouched : Untouched p d f q) (sound : p.Sound) (soundQ : q.Sound) (live : p.Live d)

include untouched sound live

section

variable (kind : p.kind d = .fnDef f formals body) (plain : p.Plain body)

include kind plain

/-- A statement of untouched code adds to a graph what it added before, with whatever depth suffices
for what is below it. -/
theorem stmt_of_untouched {n : NodeId} (stands : p.Statement body n) {depth depthQ : Nat}
    (deep : p.nodes.size - (p.path n).length < depth)
    (deepQ : p.nodes.size - (p.path n).length < depthQ) (b : Builder) :
    Builder.stmt q depthQ n b = Builder.stmt p depth n b := by
  induction depth generalizing n depthQ b with
  | zero => omega
  | succ depth ih =>
    cases depthQ with
    | zero => omega
    | succ depthQ =>
      have own := plain.own_of_statement kind stands
      have liveN := sound.forest.live_of_own live own
      rw [Builder.stmt, Builder.stmt]
      cases fn : (p.kind n).isFnDef with
      | true =>
        have fnQ := (untouched.isFnDef own).trans fn
        cases kindN : p.kind n <;> cases kindQ : q.kind n <;>
          simp [kindN, kindQ, NodeKind.isFnDef] at fn fnQ ⊢
      | false =>
        have inside {block : NodeId} (ownBlock : p.Own d block)
            (other : (p.kind block).isFnDef = false)
            (near : p.nodes.size - (p.path block).length ≤ p.nodes.size - (p.path n).length)
            (statements : ∀ c ∈ p.children block, p.Statement body c) :
            (fun b => (q.children block).foldl (fun b c => Builder.stmt q depthQ c b) b) =
              fun b => (p.children block).foldl (fun b c => Builder.stmt p depth c b) b := by
          funext b
          rw [untouched.children ownBlock (.inr other)]
          refine List.foldl_ext _ _ _ fun b c child => ?_
          have closer := sound.forest.room_child (sound.forest.live_of_own live ownBlock) child
          exact ih (statements c child) (by omega) (by omega) b
        have ofBody {block : NodeId} (inner : block ∈ (p.kind n).bodies) :
            (fun b => (q.children block).foldl (fun b c => Builder.stmt q depthQ c b) b) =
              fun b => (p.children block).foldl (fun b c => Builder.stmt p depth c b) b := by
          have part := List.mem_append_left (p.kind n).operands inner
          have closer := sound.forest.room_child liveN (NodeKind.child_of_body inner)
          exact inside (plain.own_of_part kind stands part) (plain.part stands part) closer.le
            fun c child => .inside stands inner child
        rcases NodeKind.cases_of_bare (untouched.kind own (.inr fn)) with
          same | ⟨_, _, _, _, call, callQ⟩
        · rw [same]
          cases kindN : p.kind n <;> simp only [kindN, NodeKind.bodies] at ofBody ⊢
          case block ids =>
            have all := inside own fn (Nat.le_refl _) fun c child =>
              .nested stands (by rw [kindN]; rfl) child
            exact congrFun all b
          case cond test thenBlock elseBlock =>
            refine congrArg₂ (b.choice (.branch test)) (ofBody List.mem_cons_self) ?_
            cases elseBlock with
            | none => rfl
            | some other => exact congrArg some (ofBody (by simp))
          case loop test inner testFirst =>
            have same := ofBody (List.mem_singleton_self _)
            cases testFirst with
            | true => exact congrArg (b.headedLoop (.loopTest test)) same
            | false => exact congrArg (b.testedLoop (.loopTest test)) same
          case forLoop index iterable inner =>
            exact congrArg (b.headedLoop (.forHeader n)) (ofBody (List.mem_singleton_self _))
        · rw [call, callQ]

theorem stmts_of_untouched (b : Builder) : Builder.stmts q body b = Builder.stmts p body b := by
  rw [Builder.stmts, Builder.stmts, untouched.children (own_body kind) (.inr plain.top)]
  refine List.foldl_ext _ _ _ fun b c child => ?_
  have size := untouched.size
  exact stmt_of_untouched untouched sound live kind plain (.top child) (by omega) (by omega) b

/-- The graph of untouched code is the one that it had. -/
theorem build_of_untouched {g : Graph} (found : p.fnBody? f = some body)
    (foundQ : q.fnBody? f = some body) (epoch : q.epoch f = p.epoch f)
    (defines : (p.kind d).defines? = some f) (built : Graph.build p f = .ok g) :
    Graph.build q f = .ok g := by
  rw [Graph.build, found] at built
  rw [Graph.build, foundQ, ← built]
  dsimp only
  rw [stmts_of_untouched untouched sound live kind plain, untouched.name (sound.bound_known defines),
    epoch]

end

include soundQ

theorem reads_of_untouched {root : NodeId} (own : p.Own d root) (plain : (p.kind root).isFnDef = false) :
    reads q root = reads p root := by
  have forest := sound.forest
  rw [reads, reads, untouched.collectOwn forest soundQ.forest live own plain]
  refine List.filterMap_congr fun n member => ?_
  obtain ⟨inner, tag⟩ := (forest.mem_collectOwn (forest.live_of_own live own)).mp member
  have other : (p.kind n).isFnDef = false := by
    cases kind : p.kind n <;> simp [kind, NodeKind.tag, NodeKind.isFnDef] at tag ⊢
  rw [NodeKind.symRef_of_bare (untouched.kind (own.trans plain inner) (.inr other))]

theorem localsOf_of_untouched (kind : p.kind d = .fnDef f formals body) (plain : p.Plain body)
    (found : p.fnBody? f = some body) (foundQ : q.fnBody? f = some body) :
    localsOf q f = localsOf p f := by
  have forest := sound.forest
  have own := own_body kind
  have isOwn {n : NodeId} (member : n ∈ p.collectOwn .define body) : p.Own d n :=
    own.trans plain.top ((forest.mem_collectOwn (forest.live_of_own live own)).mp member).1
  rw [localsOf, localsOf, found, foundQ]
  dsimp only
  rw [untouched.collectOwn forest soundQ.forest live own plain.top,
    List.filterMap_congr fun n member => untouched.defines (isOwn member)]
  refine List.filter_congr fun s member => untouched.isVar ?_
  obtain ⟨n, _, defines⟩ := List.mem_filterMap.mp member
  exact sound.bound_known defines

end

section

variable (untouched : Untouched p d f q) (sound : p.Sound) (soundQ : q.Sound) (live : p.Live d)
  (kind : p.kind d = .fnDef f formals body) (plain : p.Plain body)

include untouched sound soundQ live kind plain

/-- The items of untouched code do what they did. -/
theorem accesses_of_untouched {m : NodeId} (stands : p.Statement body m) {item : Item}
    (of : item.Of p m) : accesses q item = accesses p item := by
  have own := plain.own_of_statement kind stands
  have operand {c : NodeId} (member : c ∈ (p.kind m).operands) : p.Own d c ∧
      (p.kind c).isFnDef = false := by
    have part := List.mem_append_right (p.kind m).bodies member
    exact ⟨plain.own_of_part kind stands part, plain.part stands part⟩
  have readsOf {c : NodeId} (member : c ∈ (p.kind m).operands) : reads q c = reads p c :=
    reads_of_untouched untouched sound soundQ live (operand member).1 (operand member).2
  cases item with
  | branch test =>
    obtain ⟨_, _, kindM⟩ := of
    exact readsOf (by simp [kindM, NodeKind.operands])
  | loopTest test =>
    obtain ⟨_, _, kindM⟩ := of
    exact readsOf (by simp [kindM, NodeKind.operands])
  | forHeader id =>
    obtain ⟨rfl, fn⟩ := of
    rw [accesses, accesses]
    rcases NodeKind.cases_of_bare (untouched.kind own (.inr fn)) with
      same | ⟨_, _, _, _, call, callQ⟩
    · rw [same]
      cases kindM : p.kind id <;> simp only
      case forLoop index iterable inner =>
        have child : index ∈ p.children id := by simp [Program.children, kindM, NodeKind.children]
        rw [readsOf (by simp [kindM, NodeKind.operands]), untouched.defines (.down own (.inr fn) child)]
    · rw [call, callQ]
  | stmt id =>
    obtain ⟨rfl, fn⟩ := of
    have whole := reads_of_untouched untouched sound soundQ live own fn
    rw [accesses, accesses]
    rcases NodeKind.cases_of_bare (untouched.kind own (.inr fn)) with
      same | ⟨_, _, _, _, call, callQ⟩
    · rw [same]
      cases kindM : p.kind id <;> simp only [whole]
      case assign target value =>
        have isTarget : target ∈ (p.kind id).operands := by simp [kindM, NodeKind.operands]
        have isValue : value ∈ (p.kind id).operands := by simp [kindM, NodeKind.operands]
        obtain ⟨ownTarget, fnTarget⟩ := operand isTarget
        rw [readsOf isValue, readsOf isTarget]
        congr 1
        rcases NodeKind.cases_of_bare (untouched.kind ownTarget (.inr fnTarget)) with
          sameT | ⟨_, _, _, _, callT, callTQ⟩
        · rw [sameT]
        · rw [callT, callTQ]
      case define sym value =>
        cases value with
        | none => rfl
        | some value =>
          have isValue : value ∈ (p.kind id).operands := by simp [kindM, NodeKind.operands]
          exact congrArg (· ++ [.write sym]) (readsOf isValue)
    · rw [call, callQ]
      exact whole

/-- A graph of untouched code has the analysis that it had. -/
theorem ofGraph_of_untouched {g : Graph} (found : p.fnBody? f = some body)
    (foundQ : q.fnBody? f = some body) (built : Graph.build p f = .ok g) :
    Liveness.ofGraph q g = Liveness.ofGraph p g := by
  obtain ⟨_, _, _, function, _⟩ := Graph.resolved_of_build built
  obtain ⟨body', found', listed⟩ := Graph.contents_perm built
  cases Option.some.inj (found.symm.trans found')
  have locals : localsOf q g.function = localsOf p g.function := by
    rw [function]
    exact localsOf_of_untouched untouched sound soundQ live kind plain found foundQ
  have items {block : Block} (ofG : block ∈ g.blocks.toList) :
      block.items.flatMap (accesses q) = block.items.flatMap (accesses p) := by
    refine List.flatMap_congr fun item member => ?_
    obtain ⟨x, known, rfl⟩ := List.getElem_of_mem ofG
    have shown : item ∈ contents g.blocks := by
      refine mem_contents.mpr ⟨x, ?_⟩
      simpa [itemsAt, Array.getD_eq_getD_getElem?, show x < g.blocks.size by simpa using known]
        using member
    obtain ⟨c, child, ofC⟩ := List.mem_flatMap.mp (listed.mem_iff.mp shown)
    obtain ⟨m, stands, of⟩ := exists_statement (.top child) ofC
    exact accesses_of_untouched untouched sound soundQ live kind plain stands of
  have problem (bits : Array SymbolId) : liveProblem q g bits = liveProblem p g bits := by
    have summaries : g.blocks.toList.map (fun b => summarize bits (b.items.flatMap (accesses q))) =
        g.blocks.toList.map fun b => summarize bits (b.items.flatMap (accesses p)) :=
      List.map_congr_left fun b ofG => by rw [items ofG]
    rw [liveProblem, summaries]
    rfl
  rw [Liveness.ofGraph, Liveness.ofGraph, locals]
  simp only [problem]

end

/-- Epochs only grow. As long as a graph is not stale, and no definition of a function stands where
the graph or its analysis begins to look below a node, building it anew gives the same graph, and
the analysis gives the same locals and the same live sets. -/
theorem unchanged_while_fresh {tree : Surface.ProgramTree} {p₀ : Program}
    (lowered : tree.lower = .ok p₀) (before : p₀.Later p) (after : p.Later q) :
    (∀ s, p.epoch s ≤ q.epoch s) ∧
      ∀ f g, (∃ d, p.Placed f d) → (∃ d, q.Placed f d) → Graph.build p f = .ok g →
        (∀ body, p.fnBody? f = some body → p.Plain body) → g.isStale q = false →
        Graph.build q f = .ok g ∧
          ∃ l, Liveness.analyze p g = .ok l ∧ Liveness.analyze q g = .ok l := by
  have sound := before.sound (Surface.ProgramTree.lowered lowered).1.sound
  have soundQ := after.sound sound
  refine ⟨after.epoch_le sound, fun f g ⟨d, placed⟩ ⟨e, placedQ⟩ built plain fresh => ?_⟩
  obtain ⟨_, formals, body, kind, found⟩ := sound.fnBody?_eq placed
  obtain ⟨_, _, _, function, epoch⟩ := Graph.resolved_of_build built
  have live := sound.live_of_reached placed.1
  have definesQ := (after.defines sound live.known).trans placed.2.2
  cases soundQ.bound_unique placedQ.2.2 definesQ
  have same : q.epoch f = p.epoch f := by simpa [Graph.isStale, function, epoch] using fresh
  have untouched := after.untouched sound placed.1 placed.2.1 placed.2.2
    (soundQ.live_of_reached placedQ.1) same
  have kindQ : q.kind d = .fnDef f formals body := by
    rw [NodeKind.eq_of_bare (untouched.kind .refl (.inl rfl)) (by rw [kind]; rfl), kind]
  have foundQ : q.fnBody? f = some body := by
    obtain ⟨_, _, _, kind', found'⟩ := soundQ.fnBody?_eq placedQ
    cases kindQ.symm.trans kind'
    exact found'
  have plainBody := plain body found
  have builtQ :=
    build_of_untouched untouched sound live kind plainBody found foundQ same placed.2.2 built
  refine ⟨builtQ, _, Liveness.analyze_eq_ok built, ?_⟩
  rw [Liveness.analyze_eq_ok builtQ,
    ofGraph_of_untouched untouched sound soundQ live kind plainBody found foundQ built]

/-- A function with a label and an assignment behind it, and with a function inside that reads a
variable of the outer one. -/
def readerTree : Surface.ProgramTree where
  modules := [{ name := "main", items := [
    .fn .nowhere "f" [] none .value [] [
      .var .nowhere "x" (some "int") (some (.int 1)) [],
      .var .nowhere "y" (some "int") (some (.int 2)) [],
      .label .nowhere "next",
      .assign .nowhere (.name "y") (.int 3),
      .fn .nowhere "g" [] (some "int") .value [] [.ret .nowhere (some (.name "x"))]]] }]

@[irreducible] def readerProgram : Program := readerTree.lower.toOption.getD .empty

theorem readerTree_lowers : readerTree.lower = .ok readerProgram := by
  unfold readerProgram
  exact Surface.ProgramTree.lower_eq_ok (by decide +kernel)

/-- The inner function of `readerProgram` reads `y` in the place of `x`. -/
def rereadProgram : Program := (Request.setRef ⟨11⟩ ⟨4⟩).after readerProgram

theorem rereadProgram_unchanged :
    readerProgram.Later rereadProgram ∧ rereadProgram.epoch ⟨2⟩ = 1 ∧
      ∃ g, Graph.build readerProgram ⟨1⟩ = .ok g ∧ g.isStale rereadProgram = false ∧
        Graph.build rereadProgram ⟨1⟩ = .ok g ∧ ∃ l, Liveness.analyze readerProgram g = .ok l ∧
          Liveness.analyze rereadProgram g = .ok l := by
  have settled := (Surface.ProgramTree.lowered readerTree_lowers).1
  have later : readerProgram.Later rereadProgram := .step .start (.request _)
  have placed : readerProgram.Placed ⟨1⟩ ⟨14⟩ :=
    ⟨settled.sound.isAttached_iff.mp (by decide +kernel), by decide +kernel, by decide +kernel⟩
  have placedQ : rereadProgram.Placed ⟨1⟩ ⟨14⟩ :=
    ⟨(later.sound settled.sound).isAttached_iff.mp (by decide +kernel), by decide +kernel,
      by decide +kernel⟩
  have plain (body : NodeId) (found : readerProgram.fnBody? ⟨1⟩ = some body) :
      readerProgram.Plain body := by
    obtain ⟨_, _, _, kind, found'⟩ := settled.fnBody?_eq placed
    cases Option.some.inj (found.symm.trans found')
    exact settled.plain placed.1 kind
  have fresh : ((Graph.build readerProgram ⟨1⟩).toOption.map fun g => g.isStale rereadProgram) =
      some false := by decide +kernel
  cases built : Graph.build readerProgram ⟨1⟩ with
  | error e =>
    rw [built] at fresh
    cases fresh
  | ok g =>
    rw [built] at fresh
    have isFresh := Option.some.inj fresh
    obtain ⟨_, each⟩ := unchanged_while_fresh readerTree_lowers .start later
    exact ⟨later, by decide +kernel, g, rfl, isFresh,
      each ⟨1⟩ g ⟨_, placed⟩ ⟨_, placedQ⟩ built plain isFresh⟩

/-- The inner function of `readerProgram` has become the value that the outer one assigns. -/
def lentProgram : Program :=
  (Request.replace ⟨7⟩ ⟨13⟩).after ((Request.detach ⟨13⟩).after readerProgram)

/-- In the place of `x`, the function that is assigned reads `y`. -/
def rereadLentProgram : Program := (Request.setRef ⟨11⟩ ⟨4⟩).after lentProgram

/-- A definition of a function that is assigned is read as a whole, but changes inside it are not
counted against the function around it: its graph stays fresh while the live sets change. -/
theorem changed_while_fresh :
    readerTree.lower = .ok readerProgram ∧ readerProgram.Later lentProgram ∧
      lentProgram.Later rereadLentProgram ∧ (∃ d, lentProgram.Placed ⟨1⟩ d) ∧
      (∃ d, rereadLentProgram.Placed ⟨1⟩ d) ∧ ∃ g, Graph.build lentProgram ⟨1⟩ = .ok g ∧
        g.isStale rereadLentProgram = false ∧
        ¬ (Graph.build rereadLentProgram ⟨1⟩ = .ok g ∧ ∃ l, Liveness.analyze lentProgram g = .ok l ∧
          Liveness.analyze rereadLentProgram g = .ok l) := by
  have first : readerProgram.Later lentProgram :=
    .step (.step .start (.request (.detach ⟨13⟩))) (.request (.replace ⟨7⟩ ⟨13⟩))
  have second : lentProgram.Later rereadLentProgram := .step .start (.request (.setRef ⟨11⟩ ⟨4⟩))
  have sound := first.sound (Surface.ProgramTree.lowered readerTree_lowers).1.sound
  have placed : lentProgram.Placed ⟨1⟩ ⟨14⟩ :=
    ⟨sound.isAttached_iff.mp (by decide +kernel), by decide +kernel, by decide +kernel⟩
  have placedQ : rereadLentProgram.Placed ⟨1⟩ ⟨14⟩ :=
    ⟨(second.sound sound).isAttached_iff.mp (by decide +kernel), by decide +kernel, by decide +kernel⟩
  -- Is `x` live at the label, before and after the change?
  have differ : ((Graph.build lentProgram ⟨1⟩).toOption.map fun g => (g.isStale rereadLentProgram,
      (Liveness.analyze lentProgram g).toOption.map fun l => l.isLiveIn 1 ⟨3⟩,
      (Liveness.analyze rereadLentProgram g).toOption.map fun l => l.isLiveIn 1 ⟨3⟩)) =
      some (false, some true, some false) := by decide +kernel
  cases built : Graph.build lentProgram ⟨1⟩ with
  | error e =>
    rw [built] at differ
    cases differ
  | ok g =>
    rw [built] at differ
    simp only [Except.toOption, Option.map_some, Option.some.injEq, Prod.mk.injEq] at differ
    obtain ⟨isFresh, live, dead⟩ := differ
    refine ⟨readerTree_lowers, first, second, ⟨_, placed⟩, ⟨_, placedQ⟩, g, rfl, isFresh, ?_⟩
    rintro ⟨_, l, analyzed, analyzed'⟩
    simp only [analyzed, analyzed', Option.map_some, Option.some.injEq] at live dead
    rw [live] at dead
    cases dead

end Flow

end MiddleEnd
