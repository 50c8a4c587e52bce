import MiddleEnd.Calls.Sites
import MiddleEnd.Proofs.Settled.Change

namespace MiddleEnd

open Outcome

namespace Program

variable {p q r : Program}

theorem Retarget.isFn (change : Retarget p q) (f : SymbolId) : q.isFn f = p.isFn f :=
  Symbol.isFn_of_core (change.core f)

theorem Retarget.declaringFn? (change : Retarget p q) (s : SymbolId) :
    q.declaringFn? s = p.declaringFn? s := by
  have same : q.isFn = p.isFn := funext change.isFn
  rw [Program.declaringFn?, declaringScope?, Symbol.decl_of_core (change.core s), same,
    Program.declaringFn?, declaringScope?]
  congr 2
  funext d
  exact change.scope d

theorem Retarget.refl : Retarget p p :=
  { size := rfl
    children := fun _ => rfl
    parent := fun _ => rfl
    live := fun _ => rfl
    scope := fun _ => rfl
    tag := fun _ => rfl
    defines := fun _ => rfl
    modules := rfl
    symbols_size := rfl
    core := fun _ => rfl
    symbol_live := fun _ => rfl
    registries := rfl }

theorem Retarget.trans (first : Retarget p q) (second : Retarget q r) : Retarget p r where
  size := second.size.trans first.size
  children n := (second.children n).trans (first.children n)
  parent n := (second.parent n).trans (first.parent n)
  live n := (second.live n).trans (first.live n)
  scope n := (second.scope n).trans (first.scope n)
  tag n := (second.tag n).trans (first.tag n)
  defines n := (second.defines n).trans (first.defines n)
  modules := second.modules.trans first.modules
  symbols_size := second.symbols_size.trans first.symbols_size
  core s := (second.core s).trans (first.core s)
  symbol_live s := (second.symbol_live s).trans (first.symbol_live s)
  registries := second.registries.trans first.registries

/-- Calls without a target may get one, a function of their module's own, and nothing else of the
tree changes. -/
structure Binds (p q : Program) : Prop extends Retarget p q where
  kind_of_other {n : NodeId} : (p.kind n).isCall = false → q.kind n = p.kind n
  kind_of_call {n : NodeId} {callee : Option SymbolId} {name : String} {args : List NodeId} :
    p.kind n = .call callee name args → ∃ target, q.kind n = .call target name args ∧
      (target = callee ∨ callee = none ∧
        ∃ f, target = some f ∧ f ∈ p.registries.fns ∧ p.declaringFn? f = none)

theorem Binds.of_nodes (change : Retarget p q) (nodes : q.nodes = p.nodes) : Binds p q :=
  { change with
    kind_of_other := fun {n} _ => by rw [kind, node_of_nodes nodes, kind]
    kind_of_call := fun {n callee name args} call => by
      refine ⟨callee, ?_, .inl rfl⟩
      rw [kind, node_of_nodes nodes]
      exact call }

theorem Binds.trans (first : Binds p q) (second : Binds q r) : Binds p r where
  toRetarget := first.toRetarget.trans second.toRetarget
  kind_of_other {n} other := by
    have same := first.kind_of_other other
    rw [second.kind_of_other (same ▸ other), same]
  kind_of_call {n callee name args} call := by
    obtain ⟨middle, callQ, fromP⟩ := first.kind_of_call call
    obtain ⟨target, callR, fromQ⟩ := second.kind_of_call callQ
    refine ⟨target, callR, ?_⟩
    rcases fromQ with rfl | ⟨rfl, f, rfl, listed, outer⟩
    · exact fromP
    · rcases fromP with rfl | ⟨_, f', absurd, _⟩
      · rw [first.registries] at listed
        rw [first.toRetarget.declaringFn?] at outer
        exact .inr ⟨rfl, f, rfl, listed, outer⟩
      · cases absurd

theorem Resolved.binds {call : NodeId} {f : SymbolId} (change : Resolved p call (some f) q)
    (target : p.callee? call = some f ∨
      p.callee? call = none ∧ f ∈ p.registries.fns ∧ p.declaringFn? f = none) : Binds p q where
  toRetarget := change.toRetarget
  kind_of_other {n} other := by
    refine change.kind_of_ne ?_
    rintro rfl
    obtain ⟨previous, name, args, before, _⟩ := change.kind_call
    rw [before] at other
    cases other
  kind_of_call {n callee name args} kind := by
    by_cases same : n = call
    · subst same
      obtain ⟨previous, name', args', before, after⟩ := change.kind_call
      rw [kind] at before
      cases before
      refine ⟨some f, after, ?_⟩
      rw [Program.callee?, kind] at target
      rcases target with known | ⟨unknown, listed⟩
      · exact .inl known.symm
      · exact .inr ⟨unknown, f, rfl, listed⟩
    · exact ⟨callee, by rw [change.kind_of_ne same, kind], .inl rfl⟩

/-- Every call with a target that is not among the ones still to come is listed at its target. -/
def Listed (p : Program) (rest : List NodeId) : Prop :=
  ∀ c f, p.Reached c → c ∉ rest → p.callee? c = some f → c ∈ (p.symbol f).callers

theorem Resolved.listed {call : NodeId} {f : SymbolId} {rest : List NodeId}
    (change : Resolved p call (some f) q) (listed : p.Listed (call :: rest)) : q.Listed rest := by
  intro c g reached outside callee
  by_cases same : c = call
  · subst same
    obtain ⟨_, _, _, _, after⟩ := change.kind_call
    rw [Program.callee?, after] at callee
    exact change.mem_callers.mpr (.inr ⟨rfl, callee⟩)
  · rw [Program.callee?, change.kind_of_ne same] at callee
    have before := listed c g (change.toRetarget.reached.mp reached)
      (by simp [same, outside]) callee
    exact change.mem_callers.mpr (.inl ⟨before, fun both => same both.1⟩)

/-- Changing a call list keeps it free of repetitions if the change does. -/
theorem callers_nodup_modifySymbol {g : List NodeId → List NodeId}
    (keeps : ∀ ids, ids.Nodup → (g ids).Nodup) (f s : SymbolId)
    (distinct : (p.symbol s).callers.Nodup) :
    ((p.modifySymbol f
      (Symbol.mapFnData fun data => { data with calledBy := g data.calledBy })).symbol s).callers.Nodup := by
  rw [symbol_modifySymbol]
  split
  · rw [Symbol.callers_mapFnData]
    split
    · exact keeps _ distinct
    · exact List.nodup_nil
  · exact distinct

theorem dropCaller_callers_nodup (call : NodeId) (callee : Option SymbolId) (s : SymbolId)
    (distinct : (p.symbol s).callers.Nodup) :
    ((p.dropCaller call callee).symbol s).callers.Nodup := by
  cases callee with
  | none => exact distinct
  | some f =>
    exact callers_nodup_modifySymbol (g := (·.filter (· != call)))
      (fun ids all => all.filter _) f s distinct

theorem setCallee_callers_nodup {call : NodeId} {target : Option SymbolId}
    (result : p.setCallee call target = .ok q) (s : SymbolId)
    (distinct : (p.symbol s).callers.Nodup) : (q.symbol s).callers.Nodup := by
  obtain ⟨_, _, previous, name, args, _, rfl⟩ := setCallee_eq_ok_iff.mp result
  have dropped := dropCaller_callers_nodup (p := p.setKind call (.call target name args)) call
    previous s distinct
  cases target with
  | none => exact dropped
  | some f =>
    exact callers_nodup_modifySymbol (g := (Registries.insertNew · call))
      (fun ids => Registries.insertNew_nodup) f s dropped

end Program

namespace Calls

open Program

variable {p q : Program} {w : Workspace}

theorem clearCallers_retarget (p : Program) (f : SymbolId) :
    Retarget p (clearCallers p f) ∧ (clearCallers p f).nodes = p.nodes ∧
      ∀ g, ((clearCallers p f).symbol g).callers ⊆ (p.symbol g).callers := by
  have symbol (g : SymbolId) : ((clearCallers p f).symbol g).core = (p.symbol g).core ∧
      ((clearCallers p f).symbol g).live = (p.symbol g).live ∧
      ((clearCallers p f).symbol g).callers ⊆ (p.symbol g).callers := by
    rw [clearCallers, symbol_modifySymbol]
    split
    · refine ⟨Symbol.core_mapFnData _ fun _ => [], Symbol.live_mapFnData .., ?_⟩
      rw [Symbol.callers_mapFnData _ fun _ => []]
      split <;> simp
    · simp
  have same : Retarget p (clearCallers p f) :=
    Retarget.refl.of_symbols rfl rfl rfl (size_modifySymbol ..) (fun g => (symbol g).1)
      fun g => (symbol g).2.1
  exact ⟨same, rfl, fun g => (symbol g).2.2⟩

theorem foldl_clearCallers (settled : p.Settled) (fs : List SymbolId) :
    (fs.foldl clearCallers p).Settled ∧ Binds p (fs.foldl clearCallers p) := by
  induction fs generalizing p with
  | nil => exact ⟨settled, .of_nodes .refl rfl⟩
  | cons f fs ih =>
    obtain ⟨change, nodes, fewer⟩ := clearCallers_retarget p f
    obtain ⟨settledQ, binds⟩ := ih (settled.of_callers change nodes fewer)
    exact ⟨settledQ, (Binds.of_nodes change nodes).trans binds⟩

/-- A function whose call list has been emptied has no calls. -/
theorem foldl_clearCallers_eq_nil {fs : List SymbolId} {f : SymbolId} (member : f ∈ fs)
    (p : Program) : ((fs.foldl clearCallers p).symbol f).callers = [] := by
  have stays (fs : List SymbolId) (p : Program) (empty : (p.symbol f).callers = []) :
      ((fs.foldl clearCallers p).symbol f).callers = [] := by
    induction fs generalizing p with
    | nil => exact empty
    | cons g fs ih => exact ih _ (List.subset_nil.mp (empty ▸ (clearCallers_retarget p g).2.2 f))
  induction fs generalizing p with
  | nil => cases member
  | cons g fs ih =>
    rcases List.mem_cons.mp member with rfl | later
    · refine stays fs _ ?_
      rw [clearCallers, symbol_modifySymbol]
      split
      · rw [Symbol.callers_mapFnData _ fun _ => []]
        split <;> rfl
      · rename_i elsewhere
        rw [symbol_of_not_known (by simpa using elsewhere)]
        rfl
    · exact ih later _

theorem ends_bind {call : NodeId} {f : SymbolId} {Q : Unit → Workspace → Prop}
    {E : Workspace → Prop}
    (done : ∀ q, w.program.setCallee call (some f) = .ok q → Q () (w.withProgram q))
    (refused : E w) : Ends (bind call f) w Q E := by
  unfold Calls.bind
  refine Ends.get_bind ?_
  cases result : w.program.setCallee call (some f) with
  | ok q => exact Ends.set (done q result)
  | error e => exact Ends.throw refused

theorem resolve_eq_ok {call : NodeId} {name : String} {f : SymbolId}
    (result : resolve p call name = .ok f) : f ∈ p.registries.fns ∧ p.declaringFn? f = none := by
  have only : f ∈ candidates p name := by
    unfold resolve at result
    split at result
    · rename_i g single
      cases result
      rw [single]
      exact List.mem_singleton_self f
    · cases result
    · cases result
  obtain ⟨listed, matched⟩ := List.mem_filter.mp only
  have outer : (p.declaringFn? f).isNone = true := (Bool.and_eq_true_iff.mp matched).2
  exact ⟨listed, Option.isNone_iff_eq_none.mp outer⟩

/-- What entering the calls of a program one after the other keeps. -/
structure Entering (p : Program) (rest : List NodeId) (w : Workspace) : Prop where
  settled : w.program.Settled
  binds : Binds p w.program
  listed : w.program.Listed rest
  distinct : ∀ f ∈ p.registries.fns, (w.program.symbol f).callers.Nodup

theorem computeSite_ends {call : NodeId} {rest : List NodeId} {stats : SiteStats}
    (before : Entering p (call :: rest) w) (reached : p.Reached call) :
    Ends (computeSite stats call) w (fun _ => Entering p rest) fun t => t.program.Settled := by
  have here : w.program.Reached call := before.binds.toRetarget.reached.mpr reached
  have bound {f : SymbolId} {q : Program} (target : w.program.callee? call = some f ∨
      w.program.callee? call = none ∧ f ∈ w.program.registries.fns ∧
        w.program.declaringFn? f = none)
      (result : w.program.setCallee call (some f) = .ok q) :
      Entering p rest (w.withProgram q) := by
    have change := setCallee_resolved result
    exact
      { settled := setCallee_settled before.settled result here
        binds := before.binds.trans (change.binds target)
        listed := change.listed before.listed
        distinct := fun f member =>
          setCallee_callers_nodup result f (before.distinct f member) }
  have unbound {w' : Workspace} (same : w'.program = w.program)
      (none : w.program.callee? call = none) : Entering p rest w' := by
    refine
      { settled := same ▸ before.settled
        binds := same ▸ before.binds
        listed := ?_
        distinct := same ▸ before.distinct }
    rw [same]
    intro c f reachedC outside callee
    by_cases isCall : c = call
    · rw [isCall, none] at callee
      cases callee
    · exact before.listed c f reachedC (by simp [isCall, outside]) callee
  unfold computeSite
  refine Ends.get_bind ?_
  split
  · rename_i f name args kind
    have callee : w.program.callee? call = some f := by rw [Program.callee?, kind]; rfl
    exact Ends.bind (ends_bind (Q := fun _ => Entering p rest) (fun q => bound (.inl callee))
      before.settled) fun _ t kept => Ends.pure kept
  · rename_i name args kind
    have callee : w.program.callee? call = none := by rw [Program.callee?, kind]; rfl
    split
    · rename_i f resolved
      exact Ends.bind (ends_bind (Q := fun _ => Entering p rest)
        (fun q => bound (.inr ⟨callee, resolve_eq_ok resolved⟩)) before.settled)
        fun _ t kept => Ends.pure kept
    · exact Ends.bind (Ends.set (Q := fun _ => Entering p rest) (unbound rfl callee))
        fun _ t kept => Ends.pure kept
  · rename_i resolved unresolved
    refine Ends.pure (unbound rfl ?_)
    rw [Program.callee?]
    cases kind : w.program.kind call with
    | call callee name args =>
      cases callee with
      | none => exact absurd kind (unresolved name args)
      | some f => exact absurd kind (resolved f name args)
    | _ => rfl

theorem computeSites_ends (settled : w.program.Settled) :
    Ends computeSites w
      (fun _ t => t.program.Settled ∧ Binds w.program t.program ∧ t.program.Listed [] ∧
        ∀ f ∈ t.program.registries.fns, (t.program.symbol f).callers.Nodup)
      fun t => t.program.Settled := by
  obtain ⟨cleared, binds⟩ := foldl_clearCallers settled w.program.registries.fns
  unfold computeSites
  refine Ends.bind (Ends.modified (Q := fun _ t =>
    t = w.withProgram (w.program.registries.fns.foldl clearCallers w.program)) rfl) ?_
  rintro _ _ rfl
  refine Ends.get_bind ?_
  set start := w.withProgram (w.program.registries.fns.foldl clearCallers w.program) with start_eq
  have calls : ∀ c, c ∈ start.program.registries.calls ↔
      w.program.Reached c ∧ (w.program.kind c).isCall = true := by
    intro c
    rw [show start.program.registries = w.program.registries from binds.registries]
    exact settled.sound.exact.mem_calls
  refine (Ends.foldlM (I := fun rest (_ : SiteStats) t =>
    (∀ c ∈ rest, w.program.Reached c) ∧ Entering w.program rest t) ?_ ?_).mono ?_ fun t => id
  · refine ⟨fun c member => ((calls c).mp member).1, cleared, binds, ?_, fun f member => ?_⟩
    · intro c f reached outside callee
      refine absurd ((calls c).mpr ⟨binds.toRetarget.reached.mp reached, ?_⟩) outside
      rw [← binds.toRetarget.isCall]
      show (start.program.kind c).isCall = true
      rw [Program.callee?] at callee
      cases kind : start.program.kind c <;> simp [kind, NodeKind.callee?, NodeKind.isCall] at callee ⊢
    · show ((w.program.registries.fns.foldl clearCallers w.program).symbol f).callers.Nodup
      rw [foldl_clearCallers_eq_nil member]
      exact List.nodup_nil
  · rintro call rest stats t ⟨reached, entering⟩
    refine (computeSite_ends entering (reached call (List.mem_cons_self ..))).mono ?_ fun t => id
    exact fun _ t kept => ⟨fun c member => reached c (List.mem_cons_of_mem _ member), kept⟩
  · rintro stats t ⟨_, entering⟩
    refine ⟨entering.settled, entering.binds, entering.listed, ?_⟩
    rw [entering.binds.registries]
    exact entering.distinct

end Calls

end MiddleEnd
