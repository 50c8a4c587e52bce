import MiddleEnd.Proofs.Closure.Closed
import MiddleEnd.Proofs.Pipeline.Verified

/-! What a program has been checked for, and what it has been turned into, by the time that a back
end gets it. -/

namespace MiddleEnd

open Outcome

namespace Program

variable {p q : Program}

/-- Every call leads to a function of the program. -/
def Connected (p : Program) : Prop :=
  ∀ call ∈ p.registries.calls, ∃ f ∈ p.registries.fns, p.callee? call = some f

/-- The program is flat, its references lead home, and its calls lead to functions. -/
structure Sealed (p : Program) : Prop where
  flat : p.Flat
  leads : p.Leads fun _ _ _ => False
  connected : p.Connected

end Program

namespace Closure

open Program

theorem flatten_sealed {p : Program} (settled : p.Settled) (lexical : p.Lexical) :
    Ends flatten p (fun _ q => q.Sealed) Settled := by
  refine (flatten_converts settled lexical).mono ?_ fun _ refused => refused.1 ▸ settled
  rintro _ q ⟨converted, resolved⟩
  refine ⟨converted.flat, converted.leads, fun call member => ?_⟩
  obtain ⟨reached, isCall⟩ := converted.settled.sound.exact.mem_calls.mp member
  obtain ⟨before, wasCall, same⟩ := converted.call_before reached isCall
  have listed := settled.sound.exact.mem_calls.mpr ⟨before, wasCall⟩
  obtain ⟨f, target⟩ := Option.isSome_iff_exists.mp
    (unresolvedCall?_eq_none_iff.mp resolved call listed wasCall)
  obtain ⟨d, placed⟩ := settled.placed_of_callee lexical before target
  exact ⟨f, converted.settled.registered_of_placed (converted.placed_of_placed placed),
    same.trans target⟩

end Closure

namespace Program.Shrinks

variable {p q : Program} (shrinks : Shrinks p q)
include shrinks

theorem home {v f : SymbolId} (home : p.Home v f) : q.Home v f := by
  obtain ⟨d, reached, defines, scope⟩ := home
  refine ⟨d, shrinks.kept reached defines, (shrinks.head d).defines.trans defines, ?_⟩
  rwa [shrinks.scope, shrinks.modules]

theorem leads (leads : p.Leads fun _ _ _ => False) : q.Leads fun _ _ _ => False := by
  intro n v f reached ref scope fn
  rw [(shrinks.head n).symRef] at ref
  rw [shrinks.scope] at scope
  rw [shrinks.isFn] at fn
  exact (leads n v f (shrinks.reached reached) ref scope fn).imp_left shrinks.home

/-- The calls that are left, with the targets that they had. -/
theorem call_before (settled : p.Settled) (settledQ : q.Settled) {call : NodeId}
    (member : call ∈ q.registries.calls) :
    call ∈ p.registries.calls ∧ q.kind call = p.kind call := by
  obtain ⟨reached, isCall⟩ := settledQ.sound.exact.mem_calls.mp member
  rw [(shrinks.head call).isCall] at isCall
  refine ⟨settled.sound.exact.mem_calls.mpr ⟨shrinks.reached reached, isCall⟩, shrinks.kind ?_⟩
  cases kind : p.kind call <;> simp_all [NodeKind.isCall, NodeKind.isBlock]

theorem registered (settled : p.Settled) (settledQ : q.Settled) {f : SymbolId}
    (member : f ∈ p.registries.fns) : f ∈ q.registries.fns := by
  obtain ⟨d, placed⟩ := settled.placed_of_registered member
  exact settledQ.registered_of_placed (shrinks.placed_iff.mpr placed)

theorem formalDefs (f : SymbolId) : q.formalDefs f = p.formalDefs f := by
  rw [Program.formalDefs, shrinks.fnDef?_eq, Program.formalDefs]
  cases found : p.fnDef? f with
  | none => rfl
  | some d => rw [Option.map_some, Option.map_some, shrinks.kind_fnDef found]

theorem sealed (sealed : p.Sealed) (settled : q.Settled) : q.Sealed where
  flat := shrinks.flat sealed.flat settled
  leads := shrinks.leads sealed.leads
  connected call member := by
    obtain ⟨before, same⟩ := shrinks.call_before sealed.flat.settled settled member
    obtain ⟨f, listed, target⟩ := sealed.connected call before
    refine ⟨f, shrinks.registered sealed.flat.settled settled listed, ?_⟩
    rw [callee?, same]
    exact target

end Program.Shrinks

namespace Check

variable {p q : Program}

/-- Every call of a function that is not external passes one actual for each formal. -/
def Agrees (p : Program) : Prop :=
  ∀ call ∈ p.registries.calls, ∀ f name args, p.kind call = .call (some f) name args →
    p.hasFlag f .external = false → args.length = (p.formalDefs f).length

theorem agrees_of_arityAgreement (none : arityAgreement p = []) : Agrees p := by
  intro call member f name args kind inside
  have found := List.filterMap_eq_nil_iff.mp none call member
  rw [kind] at found
  simp only [inside, Bool.false_or, beq_iff_eq, ite_eq_left_iff, reduceCtorEq, imp_false,
    not_not] at found
  exact found

theorem Agrees.shrinks (agrees : Agrees p) (shrinks : p.Shrinks q) (settled : p.Settled)
    (settledQ : q.Settled) : Agrees q := by
  intro call member f name args kind inside
  obtain ⟨before, same⟩ := shrinks.call_before settled settledQ member
  rw [shrinks.formalDefs]
  exact agrees call before f name args (same ▸ kind) (shrinks.hasFlag f _ ▸ inside)

theorem shouldAbort_emit (ds : Diagnostics) (d : Diagnostic) :
    (ds.emit d).shouldAbort = (ds.shouldAbort || d.severity != .warning) := by
  simp [Diagnostics.emit, Diagnostics.shouldAbort]

theorem shouldAbort_foldl_emit (found : List Finding) (w : Workspace) :
    (found.foldl (fun w finding => w.emit finding.diagnostic) w).diagnostics.shouldAbort =
      (w.diagnostics.shouldAbort || found.any fun finding => finding.severity != .warning) := by
  induction found generalizing w with
  | nil => simp
  | cons finding found ih =>
    rw [List.foldl_cons, ih, Workspace.emit, shouldAbort_emit, List.any_cons, Bool.or_assoc]
    rfl

/-- A suite that does not stop the run has found nothing but warnings. -/
theorem Suite.warning_of_passed {suite : Suite} {w : Workspace}
    (passed : (suite.run w).2.diagnostics.shouldAbort = false) {rule : Rule}
    (member : rule ∈ suite.rules) {finding : Finding} (found : finding ∈ rule.check w.program) :
    finding.severity = .warning := by
  rw [show (suite.run w).2.diagnostics.shouldAbort = _ from shouldAbort_foldl_emit _ w,
    Bool.or_eq_false_iff] at passed
  have among : finding ∈ (suite.rules.map fun rule => (rule.name, rule.check w.program)).flatMap
      Prod.snd :=
    List.mem_flatMap.mpr ⟨_, List.mem_map.mpr ⟨rule, member, rfl⟩, found⟩
  simpa using List.any_eq_false.mp passed.2 finding among

theorem severity_of_arityAgreement {finding : Finding} (found : finding ∈ arityAgreement p) :
    finding.severity = .fatal := by
  obtain ⟨call, _, result⟩ := List.mem_filterMap.mp found
  split at result
  · dsimp only at result
    split at result
    · cases result
    · cases result
      rfl
  · cases result

theorem agrees_of_passed {w : Workspace}
    (passed : (Suite.resolved.run w).2.diagnostics.shouldAbort = false) : Agrees w.program := by
  refine agrees_of_arityAgreement (List.eq_nil_iff_forall_not_mem.mpr fun finding found => ?_)
  have listed : Rule.arityAgreement ∈ Suite.resolved.rules := by decide
  have warning := Suite.warning_of_passed passed listed found
  rw [severity_of_arityAgreement found] at warning
  cases warning

end Check

namespace Pipeline

open MiddleEnd.Outcome

namespace Pass

variable {w v : Workspace} {stats : Stats}

theorem ofSuite_eq_ok {suite : Check.Suite} (ran : (ofSuite suite).runNamed w = .ok stats v) :
    ∃ u, u.program = w.program ∧ v = (suite.run u).2 := by
  change EStateM.Result.ok _ _ = EStateM.Result.ok stats v at ran
  exact ⟨{ w with diagnostics := w.diagnostics.enterPass suite.name }, rfl,
    (EStateM.Result.ok.inj ran).2.symm⟩

theorem callSites_eq_ok (ran : callSites.runNamed w = .ok stats v) :
    ∃ u sites, u.program = w.program ∧ Calls.computeSites u = .ok sites v := by
  unfold runNamed callSites at ran
  dsimp only at ran
  split at ran
  · rename_i sites u result
    cases ran
    exact ⟨{ w with diagnostics := w.diagnostics.enterPass "compute-call-sites" }, sites, rfl, result⟩
  · cases ran

theorem ofTransform_eq_ok {name : String} {transform : TransformM TransformResult}
    (ran : (ofTransform name transform).runNamed w = .ok stats v) :
    ∃ result, transform w.program = .ok result v.program := by
  unfold runNamed ofTransform at ran
  dsimp only at ran
  split at ran
  · rename_i result p done
    cases ran
    exact ⟨result, done⟩
  · cases ran

end Pass

namespace Run

variable {r s : Run}

/-- The run goes on, over these passes, and `I` holds of its place and its workspace. -/
structure Going (passes : List Pass) (I : Nat → Workspace → Prop) (r : Run) : Prop where
  passes_eq : r.passes = passes
  pending : r.report.outcome = .pending
  next_le : r.next ≤ passes.length
  here : I r.next r.work

/-- A step of a run either goes on, or completes it past all passes, or aborts it. -/
def Steps (passes : List Pass) (I : Nat → Workspace → Prop) (step : Step) (s : Run) : Prop :=
  match step with
  | .ran _ => Going passes I s
  | .completed => I passes.length s.work
  | .aborted index pass => s.report.outcome = .aborted index pass

variable {passes : List Pass} {I : Nat → Workspace → Prop}

theorem runPass_ends (pass : Pass) : Ends (runPass pass) r
    (fun stats t => t = { r with work := t.work } ∧ pass.runNamed r.work = .ok stats t.work)
    fun _ => True := by
  unfold Ends runPass Pass.runNamed
  dsimp only
  cases pass.run _ with
  | ok stats v => exact ⟨rfl, rfl⟩
  | error error v => trivial

theorem shouldAbort_of_proceed {name : String} {w : Workspace} {verifies : Bool}
    (proceeds : checkpoint name w verifies = .ok .proceed) : w.diagnostics.shouldAbort = false := by
  cases stops : w.diagnostics.shouldAbort with
  | false => rfl
  | true =>
    unfold checkpoint at proceeds
    rw [stops] at proceeds
    generalize (if verifies then w.program.verify else []) = violations at proceeds
    cases violations <;> cases proceeds

/-- A run goes on or completes only where nothing stops it. -/
theorem advance_steps {pass : Pass} (going : Going passes I r) (place : passes[r.next]? = some pass)
    (turn : ∀ stats v, pass.runNamed r.work = .ok stats v → v.diagnostics.shouldAbort = false →
      I (r.next + 1) v) : Ends (advance pass) r (Steps passes I) fun _ => True := by
  have inside : r.next < passes.length := (List.getElem?_eq_some_iff.mp place).1
  unfold advance
  refine Ends.get_bind ?_
  refine Ends.bind (runPass_ends pass) ?_
  rintro stats t ⟨rest, ran⟩
  refine Ends.get_bind ?_
  have next : t.next = r.next := by rw [rest]
  have passes_eq : t.passes = passes := by rw [rest, ← going.passes_eq]
  have pending : t.report.outcome = .pending := by rw [rest, ← going.pending]
  cases checked : checkpoint pass.name t.work t.config.verify with
  | error error => trivial
  | ok verdict =>
    cases verdict with
    | abort => exact (rfl : Outcome.aborted t.next pass.name = _)
    | proceed =>
      have kept := turn stats t.work ran (shouldAbort_of_proceed checked)
      dsimp only
      rw [passes_eq, next]
      split
      · rename_i last
        rw [last] at kept
        exact kept
      · exact ⟨rfl, pending, inside, kept⟩

theorem runNext_steps (going : Going passes I r)
    (turn : ∀ k pass w stats v, passes[k]? = some pass → I k w → pass.runNamed w = .ok stats v →
      v.diagnostics.shouldAbort = false → I (k + 1) v) :
    Ends runNext r (Steps passes I) fun _ => True := by
  unfold runNext
  refine Ends.get_bind ?_
  rw [going.pending]
  dsimp only
  rw [going.passes_eq]
  cases place : passes[r.next]? with
  | none =>
    have last : r.next = passes.length :=
      Nat.le_antisymm going.next_le (List.getElem?_eq_none_iff.mp place)
    have here := going.here
    rw [last] at here
    exact here
  | some pass =>
    exact advance_steps going place fun stats v => turn r.next pass r.work stats v place going.here

/-- What each pass keeps that does not stop the run holds once the run has completed. -/
theorem toEnd_steps (going : Going passes I r)
    (turn : ∀ k pass w stats v, passes[k]? = some pass → I k w → pass.runNamed w = .ok stats v →
      v.diagnostics.shouldAbort = false → I (k + 1) v) :
    Ends toEnd r (fun outcome s => outcome = .completed → I passes.length s.work) fun _ => True := by
  have steps_ends (fuel : Nat) {r : Run} (going : Going passes I r) : Ends (steps fuel) r
      (fun outcome s => outcome = .completed → I passes.length s.work) fun _ => True := by
    induction fuel generalizing r with
    | zero =>
      refine Ends.get_bind (Ends.pure fun ended => ?_)
      rw [outcome, going.pending] at ended
      cases ended
    | succ fuel ih =>
      refine Ends.bind (runNext_steps going turn) fun step s after => ?_
      cases step with
      | ran pass => exact ih after
      | completed => exact Ends.get_bind (Ends.pure fun _ => after)
      | aborted index pass =>
        refine Ends.get_bind (Ends.pure fun ended => ?_)
        rw [outcome, show s.report.outcome = _ from after] at ended
        cases ended
  exact Ends.get_bind (steps_ends _ going)

end Run

/-- What holds of the workspace once the first `k` standard passes have let it through. -/
def Promise : Nat → Program → Prop
  | 0 | 1 | 2 => fun p => p.Settled ∧ p.Lexical
  | 3 => Program.Sealed
  | _ => fun p => p.Sealed ∧ Check.Agrees p

theorem promise_turn {k : Nat} {pass : Pass} {w v : Workspace} {stats : Stats}
    (place : Pass.standard[k]? = some pass) (before : Promise k w.program)
    (ran : pass.runNamed w = .ok stats v) (passed : v.diagnostics.shouldAbort = false) :
    Promise (k + 1) v.program := by
  match k with
  | 0 =>
    cases place
    obtain ⟨u, same, rfl⟩ := Pass.ofSuite_eq_ok ran
    rw [Check.Suite.run_program, same]
    exact before
  | 1 =>
    cases place
    obtain ⟨u, sites, same, computed⟩ := Pass.callSites_eq_ok ran
    rw [← same] at before
    obtain ⟨settled, binds, _⟩ := (Calls.computeSites_ends before.1).of_ok computed
    exact ⟨settled, before.2.binds binds⟩
  | 2 =>
    cases place
    obtain ⟨result, converts⟩ := Pass.ofTransform_eq_ok ran
    exact (Closure.flatten_sealed before.1 before.2).of_ok converts
  | 3 =>
    cases place
    obtain ⟨u, same, rfl⟩ := Pass.ofSuite_eq_ok ran
    have agrees := Check.agrees_of_passed passed
    rw [Check.Suite.run_program]
    rw [same] at agrees ⊢
    exact ⟨before, agrees⟩
  | 4 =>
    cases place
    obtain ⟨result, swept⟩ := Pass.ofTransform_eq_ok ran
    obtain ⟨intact, agrees⟩ := before
    obtain ⟨settled, shrinks⟩ := (Store.eliminateDeadStores_ends intact.flat.settled).of_ok swept
    exact ⟨shrinks.sealed intact settled, agrees.shrinks shrinks intact.flat.settled settled⟩
  | k + 5 => cases place

/-- What a back end may rely on. -/
structure Gate (w : Workspace) : Prop where
  flat : ∀ f ∈ w.program.registries.fns, w.program.isNestedFn f = false
  target : ∀ call ∈ w.program.registries.calls, ∃ f, w.program.callee? call = some f ∧
    f ∈ w.program.registries.fns ∧ (w.program.symbol f).live = true
  arity : ∀ call ∈ w.program.registries.calls, ∀ f name args,
    w.program.kind call = .call (some f) name args → w.program.hasFlag f .external = false →
    args.length = (w.program.formalDefs f).length
  closed : ∀ f ∈ w.program.registries.fns, ∀ d, w.program.fnDef? f = some d →
    ∀ n ∈ w.program.collect .symRef d, ∀ v, (w.program.kind n).symRef? = some v →
    w.program.Home v f ∧ (w.program.declaringFn? v = some f ∨ w.program.declaringFn? v = none)
  quiet : ∀ d ∈ w.diagnostics.items, d.severity = .warning

theorem gate_of_promise {w : Workspace} (intact : w.program.Sealed) (agrees : Check.Agrees w.program)
    (passed : w.diagnostics.shouldAbort = false) : Gate w where
  flat f member := intact.flat.isNestedFn_eq_false member
  target call member := by
    obtain ⟨f, listed, target⟩ := intact.connected call member
    have fn := intact.flat.settled.isFn_of_registered listed
    exact ⟨f, target, listed, intact.flat.settled.symbols_live (Program.known_of_isFn fn)⟩
  arity := agrees
  closed f member d found n inside v ref := by
    have home := intact.flat.home_of_ref intact.leads member found inside ref
    exact ⟨home, intact.flat.settled.declaringFn?_of_home home
      (intact.flat.settled.isFn_of_registered member)⟩
  quiet d member := by
    simpa using List.any_eq_false.mp passed d member

/-- Whatever the configuration, a run of the standard passes that completes has kept the gate, and a
back end gets the program that is left. -/
theorem gate_of_completed {tree : Surface.ProgramTree} {p : Program} {config : Config} {r s : Run}
    (lowered : tree.lower = .ok p) (start : Run.ofProgram p config = .ok r)
    (completed : Run.toEnd r = .ok .completed s) :
    Gate s.work ∧ ∀ backend, Run.withBackend backend r =
      match backend.generate s.work.program with
      | .ok output => .ok (.completed, some output) s
      | .error message => .error (.backend backend.name message) s := by
  obtain ⟨settled, lexical, _⟩ := Surface.ProgramTree.lowered lowered
  have going : Run.Going Pass.standard (fun k w => Promise k w.program ∧
      (0 < k → w.diagnostics.shouldAbort = false)) r := by
    unfold Run.ofProgram Run.ofPasses at start
    split at start
    · cases start
    · cases start
      exact ⟨rfl, rfl, Nat.zero_le _, ⟨settled, lexical⟩, fun absurd => (Nat.lt_irrefl 0 absurd).elim⟩
  obtain ⟨⟨intact, agrees⟩, passed⟩ := (Run.toEnd_steps going
    fun k pass w stats v place here ran passed =>
      ⟨promise_turn place here.1 ran passed, fun _ => passed⟩).of_ok completed rfl
  refine ⟨gate_of_promise intact agrees (passed (by decide)), fun backend => ?_⟩
  show EStateM.bind Run.toEnd _ r = _
  rw [EStateM.bind, completed]
  show (match backend.generate s.work.program with
    | .ok output => pure (.completed, some output)
    | .error message => throw (.backend backend.name message) : RunM (Outcome × Option String)) s = _
  cases backend.generate s.work.program <;> rfl

def completes : EStateM.Result PipelineError Run Outcome → Bool
  | .ok .completed _ => true
  | _ => false

theorem exists_of_completes {result : EStateM.Result PipelineError Run Outcome}
    (ends : completes result = true) : result = .ok .completed (left result) := by
  cases result with
  | ok outcome s => cases outcome <;> simp_all [completes, left]
  | error error s => cases ends

/-- Closure conversion gives every call of `nestedTree` two actuals. -/
def nestedRun : Run :=
  { passes := Pass.standard, work := { program := Surface.nestedProgram }
    config := { verify := false } }

theorem nestedRun_gate :
    Run.ofProgram Surface.nestedProgram { verify := false } = .ok nestedRun ∧
    Run.toEnd nestedRun = .ok .completed (left (Run.toEnd nestedRun)) ∧
    (left (Run.toEnd nestedRun)).work.program.registries.calls.length = 2 ∧
    Gate (left (Run.toEnd nestedRun)).work := by
  have ends : completes (Run.toEnd nestedRun) = true := by decide +kernel
  have completed := exists_of_completes ends
  have start : Run.ofProgram Surface.nestedProgram { verify := false } = .ok nestedRun := rfl
  exact ⟨start, completed, by decide +kernel,
    (gate_of_completed Surface.nestedTree_lowers start completed).1⟩

end Pipeline

end MiddleEnd
