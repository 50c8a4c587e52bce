import MiddleEnd.Check.Suite
import MiddleEnd.Proofs.Closure.Correspond
import MiddleEnd.Proofs.Closure.Course

/-! What becomes of assignments to captured variables. -/

namespace MiddleEnd

open Outcome

namespace Closure

open Program

variable {p q : Program}

/-- The statement `n` of the function `f` assigns to the variable `s`, by its target `target`. -/
structure Assigns (p : Program) (f s : SymbolId) (n target : NodeId) : Prop where
  reached : p.Reached n
  inside : p.enclosingFn? n = some f
  kind : ∃ value, p.kind n = .assign target value
  ref : p.kind target = .symRef s

/-- The functions through which `f` gets a variable `s`: itself, and the callers of such functions
that do not declare `s`. -/
inductive Through (p : Program) (s f : SymbolId) : SymbolId → Prop where
  | self : Through p s f f
  | caller {g h : SymbolId} {call : NodeId} (through : Through p s f g) (reached : p.Reached call)
      (target : p.callee? call = some g) (around : p.enclosingFn? call = some h)
      (other : p.declaringFn? s ≠ some h) : Through p s f h

/-- The symbol `formal` is the new formal of `f` for the variable `s` that `f` captures. -/
def TakesAs (p q : Program) (f s formal : SymbolId) : Prop :=
  ∃ d, (s, d) ∈ ((Captures.compute p (.build p)).of f).zip
    ((q.formalDefs f).drop (p.formalDefs f).length) ∧ q.kind d = .define formal none

/-- The statement `n` assigns to what the new formal of `f` for `s` refers to. -/
def StoresThrough (p q : Program) (f s : SymbolId) (n : NodeId) : Prop :=
  q.Reached n ∧ ∃ target value x formal, q.kind n = .assign target value ∧
    q.kind target = .prim .deref [x] ∧ q.kind x = .symRef formal ∧ TakesAs p q f s formal

/-- The node `a` is the new actual of `call`, a call of `g`, for the variable `s` that `g` captures. -/
def ActualFor (p q : Program) (g : SymbolId) (call : NodeId) (s : SymbolId) (a : NodeId) : Prop :=
  ∃ args args', p.callArgs? call = some args ∧ q.callArgs? call = some args' ∧
    (s, a) ∈ ((Captures.compute p (.build p)).of g).zip (args'.drop args.length)

/-- The actual `a` of `call` is a new variable that holds the address of `s`. It is defined in front of
the statement of the call, in the same block. -/
def HoldsAddress (q : Program) (call : NodeId) (s : SymbolId) (a : NodeId) : Prop :=
  ∃ temp d init ref stmt, q.kind a = .symRef temp ∧ q.enclosingStmt? call = some stmt ∧
    Precedes q d stmt ∧ q.kind d = .define temp (some init) ∧
    q.kind init = .prim .addrOf [ref] ∧ q.kind ref = .symRef s

/-- The new formals of these functions for `s` carry the address of `s`: every call of one of them
passes the address of `s`, taken in the function that declares `s`, or the formal of another. -/
def Carriers (p q : Program) (s : SymbolId) (carriers : SymbolId → Prop) : Prop :=
  ∀ g call, carriers g → q.Reached call → q.callee? call = some g → ∃ caller a,
    p.enclosingFn? call = some caller ∧ ActualFor p q g call s a ∧
      (p.declaringFn? s = some caller ∧ HoldsAddress q call s a ∨
        carriers caller ∧ HandedOn p q caller s a)

/-- The new formal of `f` for `s` carries the address of `s`. -/
def Carries (p q : Program) (s f : SymbolId) : Prop :=
  ∃ carriers, carriers f ∧ Carriers p q s carriers

/-! The target. -/

/-- The target of an assignment in `f` to the captured variable `s` still refers to `s`, or what the
new formal refers to has taken its place. -/
inductive Aims (p : Program) (given : SymbolId → List SymbolId) (w : Rework) (t : Program)
    (f s : SymbolId) (target : NodeId) : Prop where
  | direct (swap : w.swap target = target) (ref : t.kind target = .symRef s)
  | through {d x : NodeId} {formal : SymbolId} (swap : w.swap target = d)
      (isNew : p.nodes.size ≤ d.index) (deref : t.kind d = .prim .deref [x])
      (ref : t.kind x = .symRef formal) (stands : StandsFor p given w t f s formal)

namespace Assigns

variable {f s : SymbolId} {n target : NodeId} (assigns : Assigns p f s n target)

include assigns

theorem child : target ∈ p.children n := by
  obtain ⟨value, kind⟩ := assigns.kind
  simp [children, kind, NodeKind.children]

theorem isFn : p.isFn f = true := (Option.filter_eq_some_iff.mp assigns.inside).2

theorem known : target.index < p.nodes.size := known_of_ref assigns.ref

theorem scope (sound : p.Sound) : p.scope? target = some f := by
  obtain ⟨value, kind⟩ := assigns.kind
  rw [sound.scope_below assigns.reached assigns.child, scopeBelow, kind]
  exact (Option.filter_eq_some_iff.mp assigns.inside).1

theorem use (sound : p.Sound) : useOf p target = .store := by
  obtain ⟨value, kind⟩ := assigns.kind
  have link := sound.forest.child_parent (sound.live_of_reached assigns.reached) assigns.child
  rw [useOf, show (p.node target).parent = some n from link]
  simp [kind]

variable {w : Rework} {t : Program}

/-- The assignment stays, with what has taken the place of its target. -/
theorem evolved (evolved : Evolved p w t) :
    t.Reached n ∧ ∃ value, t.kind n = .assign (w.swap target) value := by
  obtain ⟨value, kind⟩ := assigns.kind
  have reached := evolved.stage.frame.kept assigns.reached (.inl (by rw [kind]; rfl))
  refine ⟨reached, w.swap value, ?_⟩
  rw [evolved.reworked.kind (evolved.stage.base_sound.live_of_reached assigns.reached).known
    (evolved.sound.live_of_reached reached) (by rw [kind]; rfl), kind]
  rfl

theorem reached_target (evolved : Evolved p w t) (swap : w.swap target = target) :
    t.Reached target := by
  obtain ⟨reached, value, kind⟩ := assigns.evolved evolved
  refine reached.child ?_
  rw [children, kind, swap]
  simp [NodeKind.children]

end Assigns

section

variable {captures : Captures} {passed : List NodeId} {first w : Rework} {start t : Program}
  {given : SymbolId → List SymbolId} {f s : SymbolId} {n target : NodeId}

theorem Lot.aims {hoists : NodeId → List (NodeId × NodeId)} (lot : Lot p given w t hoists f target)
    (use : useOf p target = .store) (ref : p.kind target = .symRef s)
    (indirect : byReference p f s = true) : Aims p given w t f s target := by
  cases lot with
  | kept swap refs => exact .direct swap (refs s ref)
  | aimed before direct =>
    cases before.symm.trans ref
    cases direct.symm.trans indirect
  | placed before _ _ now =>
    cases before.symm.trans ref
    obtain ⟨isNew, x, deref, formal, _, refX, stands⟩ := now
    exact .through rfl isNew deref refX stands
  | moved _ hoist => cases use.symm.trans hoist.use
  | addressed before => cases before.symm.trans ref
  | buried _ address => cases use.symm.trans address

/-- All along the conversion the target refers to the variable or goes through the formal for it. -/
theorem Converting.aims (run : Converting p captures passed first start given w t)
    (supplying : Supplying p first passed start)
    (known : ∀ f, ∀ v ∈ captures.of f, v.index < p.symbols.size)
    (assigns : Assigns p f s n target) (form : (p.symbol s).ty.hasRefForm = true)
    (plain : isIteratorHelper p f = false) : Aims p given w t f s target := by
  have sound := (run.underway supplying known).evolved.stage.base_sound
  obtain ⟨hoists, course⟩ := run.course supplying known
  exact (course.lot (assigns.reached.child assigns.child) (assigns.scope sound)).aims
    (assigns.use sound) assigns.ref (by simp [byReference, form, plain])

/-- In the end the assignment goes through the formal. -/
theorem Converts.storesThrough (converts : Converts p (.compute p (.build p)) passed first start w t q)
    (converted : Converted (fun _ _ _ => False) p q) (lexical : p.Lexical)
    (assigns : Assigns p f s n target) (captured : s ∈ (Captures.compute p (.build p)).of f)
    (form : (p.symbol s).ty.hasRefForm = true) (plain : isIteratorHelper p f = false) :
    StoresThrough p q f s n := by
  have moved := converts.moved
  have evolved := converts.underway.evolved
  have aims := converts.run.aims converts.supplying (fun _ _ => Captures.known_of_mem) assigns form
    plain
  obtain ⟨reached, value, kind⟩ := assigns.evolved evolved
  cases aims with
  | direct swap ref =>
    exfalso
    obtain ⟨u, stage, change⟩ := converted.staged
    have settled := stage.base_settled
    have reachedP := assigns.reached.child assigns.child
    have scopeP := assigns.scope settled.sound
    have reachedU := change.reached.mp (moved.reached.mpr (assigns.reached_target evolved swap))
    have scope : u.scope? target = some f :=
      (stage.frame.scope reachedP (stage.settled.sound.live_of_reached reachedU)).trans scopeP
    refine not_ref_of_captured stage lexical reachedU scope assigns.isFn
      (settled.scope_known reachedP scopeP) captured ?_
    rw [← (change.head target).symRef, moved.order.kind (by rw [ref]; rfl), ref]
    rfl
  | @through e x formal swap isNew deref ref stands =>
    obtain ⟨fnDef, d, placed, pair, define⟩ := stands
    refine ⟨moved.reached.mpr reached, e, value, x, formal, ?_, ?_, ?_, d, ?_, ?_⟩
    · rw [moved.order.kind (by rw [kind]; rfl), kind, swap]
    · rw [moved.order.kind (by rw [deref]; rfl), deref]
    · rw [moved.order.kind (by rw [ref]; rfl), ref]
    · rwa [converts.formalDefs_eq converted.settled placed, List.drop_left]
    · rw [moved.order.kind (by rw [define]; rfl), define]

end

/-! The calls. -/

theorem LentTo.holdsAddress {call a : NodeId} {s : SymbolId} (lent : LentTo p q call s a)
    (form : (p.symbol s).ty.hasRefForm = true) : HoldsAddress q call s a := by
  obtain ⟨temp, d, init, stmt, isTemp, _, _, found, before, define, lends⟩ := lent
  rw [Lends, if_pos form] at lends
  obtain ⟨ref, address, of⟩ := lends
  exact ⟨temp, d, init, ref, stmt, isTemp, found, before, define, address, of⟩

section

variable {result : TransformResult} {f s : SymbolId} (linked : Linked p)
  (converts : flatten p = .ok result q)

include linked converts

/-- The functions that get a variable for the sake of `f` pass on its address. -/
theorem carriers_of_flatten (form : (p.symbol s).ty.hasRefForm = true)
    (plain : ∀ g, Through p s f g → isIteratorHelper p g = false) :
    Carriers p q s fun g => Through p s f g ∧ s ∈ (Captures.compute p (.build p)).of g := by
  rintro g call ⟨through, captured⟩ reachedQ target
  obtain ⟨converted, _⟩ := (flatten_converts linked.settled linked.lexical).of_ok converts
  have isCall : (q.kind call).isCall = true := by
    rw [callee?] at target
    cases kind : q.kind call <;> simp_all [NodeKind.callee?, NodeKind.isCall]
  obtain ⟨reached, _, same⟩ := converted.call_before reachedQ isCall
  obtain ⟨_, args, args', new, before, after, kept, corresponds⟩ :=
    actuals_of_flatten linked converts reachedQ target
  obtain ⟨lengths, each⟩ := List.forall₂_iff_zip.mp corresponds
  obtain ⟨⟨s', a⟩, pair, rfl⟩ : ∃ pair ∈ ((Captures.compute p (.build p)).of g).zip new, pair.1 = s := by
    rw [← List.mem_map, List.map_fst_zip lengths.le]
    exact captured
  obtain ⟨caller, around, way⟩ := each pair
  have actual : ActualFor p q g call s' a := by
    refine ⟨args, _, before, after, ?_⟩
    rwa [← kept, List.drop_left]
  refine ⟨caller, a, around, actual, ?_⟩
  by_cases declared : p.declaringFn? s' = some caller
  · rw [if_pos declared, if_neg (by rw [plain g through]; simp)] at way
    exact .inl ⟨declared, way.holdsAddress form⟩
  · rw [if_neg declared] at way
    obtain ⟨d, formal, member, _⟩ := id way
    have onward := through.caller reached (same.symm.trans target) around declared
    exact .inr ⟨⟨onward, (List.of_mem_zip member).1⟩, way⟩

/-- No assignment to a captured variable of a type with a reference form is lost. After closure
conversion it stores through the new formal of its function, and that formal carries the address of
the variable, unless functions of the iterator protocol come in between. -/
theorem flatten_stores {n target : NodeId} (assigns : Assigns p f s n target)
    (captured : s ∈ (Captures.compute p (.build p)).of f)
    (form : (p.symbol s).ty.hasRefForm = true)
    (plain : ∀ g, Through p s f g → isIteratorHelper p g = false) :
    StoresThrough p q f s n ∧ Carries p q s f := by
  refine ⟨?_, _, ⟨.self, captured⟩, carriers_of_flatten linked converts form plain⟩
  have settled := linked.settled
  obtain ⟨converted, _⟩ := (flatten_converts settled linked.lexical).of_ok converts
  rcases (flatten_converting linked).of_ok converts with
    ⟨unnested, rfl⟩ | ⟨passed, first, start, w, t, way⟩
  · rw [captures_eq_nil settled unnested f] at captured
    cases captured
  · exact way.storesThrough converted linked.lexical assigns captured form (plain f .self)

end

theorem not_isIteratorHelper_nestedLinked (g : SymbolId) :
    isIteratorHelper Surface.nestedLinked g = false := by
  by_cases known : g.index < Surface.nestedLinked.symbols.size
  · have each : ∀ i < Surface.nestedLinked.symbols.size,
        isIteratorHelper Surface.nestedLinked ⟨i⟩ = false := by decide +kernel
    exact each g.index known
  · rw [isIteratorHelper, Program.name, symbol_of_not_known (Nat.not_lt.mp known)]
    decide

/-- In `nestedTree` the function `store` assigns to a variable of `outer`, which calls it by way of
`relay`. -/
theorem nestedLinked_stores :
    let p := Surface.nestedLinked
    let q := left (flatten p)
    Assigns p ⟨3⟩ ⟨5⟩ ⟨7⟩ ⟨6⟩ ∧ StoresThrough p q ⟨3⟩ ⟨5⟩ ⟨7⟩ ∧ Carries p q ⟨5⟩ ⟨3⟩ := by
  have linked := Surface.nestedLinked_linked
  have success : succeeds (flatten Surface.nestedLinked) = true := by decide +kernel
  obtain ⟨result, converts⟩ := exists_ok_of_succeeds success
  have assigns : Assigns Surface.nestedLinked ⟨3⟩ ⟨5⟩ ⟨7⟩ ⟨6⟩ :=
    { reached := linked.settled.sound.isAttached_iff.mp (by decide +kernel)
      inside := by decide +kernel
      kind := ⟨⟨5⟩, by decide +kernel⟩
      ref := by decide +kernel }
  exact ⟨assigns, flatten_stores linked converts assigns (by decide +kernel) (by decide +kernel)
    fun g _ => not_isIteratorHelper_nestedLinked g⟩

/-! Variables that are passed as copies. -/

/-- The variable `x` takes its type from its value, and no reference to it is made. -/
def copiedTree : Surface.ProgramTree where
  modules := [{ name := "main", items := [
    .fn .nowhere "outer" [] none .value [] [
      .var .nowhere "x" none (some (.int 1)) [],
      .fn .nowhere "store" [] none .value [] [.assign .nowhere (.name "x") (.int 2)],
      .expr .nowhere (.call "store" [])]] }]

@[irreducible] def copiedProgram : Program := copiedTree.lower.toOption.getD .empty

/-- `copiedProgram` with its call lists. -/
@[irreducible] def copiedLinked : Program :=
  (left (Calls.computeSites { program := copiedProgram })).program

theorem copiedLinked_linked : Linked copiedLinked := by
  have lowers : copiedTree.lower = .ok copiedProgram := by
    unfold copiedProgram
    exact Surface.ProgramTree.lower_eq_ok (by decide +kernel)
  have success : succeeds (Calls.computeSites { program := copiedProgram }) = true := by
    decide +kernel
  obtain ⟨stats, sites⟩ := exists_ok_of_succeeds success
  unfold copiedLinked
  exact .intro lowers sites

/-- Without a reference form the function stores into its own copy. -/
theorem copied_not_stored :
    ¬ ∀ (p q : Program) (result : TransformResult) (f s : SymbolId) (n target : NodeId), Linked p →
      (∀ rule ∈ Check.Suite.parsed.rules, rule.check p = []) → flatten p = .ok result q →
      Assigns p f s n target → s ∈ (Captures.compute p (.build p)).of f →
      StoresThrough p q f s n ∧ Carries p q s f := by
  intro all
  have linked := copiedLinked_linked
  have success : succeeds (flatten copiedLinked) = true := by decide +kernel
  obtain ⟨result, converts⟩ := exists_ok_of_succeeds success
  have assigns : Assigns copiedLinked ⟨2⟩ ⟨3⟩ ⟨7⟩ ⟨6⟩ :=
    { reached := linked.settled.sound.isAttached_iff.mp (by decide +kernel)
      inside := by decide +kernel
      kind := ⟨⟨5⟩, by decide +kernel⟩
      ref := by decide +kernel }
  have clean : ∀ rule ∈ Check.Suite.parsed.rules, rule.check copiedLinked = [] := by decide +kernel
  obtain ⟨⟨_, target, value, x, formal, kind, deref, _⟩, _⟩ :=
    all _ _ result _ _ _ _ linked clean converts assigns (by decide +kernel)
  have kept : (left (flatten copiedLinked)).kind ⟨7⟩ = .assign ⟨6⟩ ⟨5⟩ := by decide +kernel
  have copied : (left (flatten copiedLinked)).kind ⟨6⟩ = .symRef ⟨5⟩ := by decide +kernel
  cases kept.symm.trans kind
  cases copied.symm.trans deref

end Closure

end MiddleEnd
