import MiddleEnd.Proofs.Calls.Exact
import MiddleEnd.Proofs.Closure.Jumps
import MiddleEnd.Proofs.Closure.Total
import MiddleEnd.Proofs.Pipeline.Gate
import MiddleEnd.Proofs.Pipeline.Turn
import MiddleEnd.Proofs.Store.Sweep

/-! A run of the standard passes over a lowered program completes or aborts, unless a function jumps to
a label that it does not have. -/

namespace MiddleEnd

open Outcome

namespace Program

open MiddleEnd.Flow

variable {p q : Program}

/-- Binding calls changes no jump and no label. -/
theorem Binds.keptIn_eq {α : Type} {keep : NodeKind → Option α} (binds : Binds p q)
    (ofJumps : NodeKind.OfJumps keep) (depth : Nat) (n : NodeId) :
    keptIn q keep depth n = keptIn p keep depth n := by
  induction depth generalizing n with
  | zero => rfl
  | succ depth ih =>
    cases isCall : (p.kind n).isCall with
    | true =>
      have expr {k : NodeKind} (call : k.isCall = true) : k.isExpr = true := by
        cases k <;> simp [NodeKind.isCall, NodeKind.isExpr] at call ⊢
      rw [keptIn_of_quiet ofJumps (.of_expr (expr ((binds.isCall n).trans isCall))),
        keptIn_of_quiet ofJumps (.of_expr (expr isCall))]
    | false =>
      rw [keptIn_succ, keptIn_succ, binds.kind_of_other isCall]
      simp only [binds.children, funext ih]

theorem Binds.keepsJumps (binds : Binds p q) (settled : p.Settled) (settledQ : q.Settled) :
    KeepsJumps p q where
  fns {f} := by rw [binds.registries]
  external {f} _ := by
    rw [hasFlag, Symbol.hasFlag, (Symbol.core_eq_iff.mp (binds.core f)).2.2.2.2]
    rfl
  build_eq_error {f e} listed := by
    obtain ⟨d, placed⟩ := settled.placed_of_registered listed
    have placedQ : q.Placed f d := ⟨binds.reached.mpr placed.1, (binds.isFnDef d).trans placed.2.1,
      (binds.defines d).trans placed.2.2⟩
    obtain ⟨_, formals, body, kind, found⟩ := settled.fnBody?_eq placed
    obtain ⟨_, _, _, kindQ, foundQ⟩ := settledQ.fnBody?_eq placedQ
    cases kindQ.symm.trans ((binds.kind_of_other (by rw [kind]; rfl)).trans kind)
    have name : q.name f = p.name f := by
      have core := congrArg Symbol.name (binds.core f)
      exact core
    exact (SameJumps.of_kept settled.toTidy settledQ.toTidy placed placedQ name found foundQ
      fun keep ofJumps depth => binds.keptIn_eq ofJumps depth body).build_eq_error settled.toTidy
        settledQ.toTidy placed placedQ

end Program

namespace Pipeline

open MiddleEnd.Flow Program

namespace Pass

variable {w v : Workspace} {error : PipelineError}

theorem ofSuite_ne_error {suite : Check.Suite} : (ofSuite suite).runNamed w ≠ .error error v := nofun

theorem callSites_ne_error (settled : w.program.Settled) : callSites.runNamed w ≠ .error error v := by
  intro fails
  unfold runNamed callSites at fails
  dsimp only at fails
  obtain ⟨stats, u, result, _⟩ := Calls.computeSites_progress
    (w := { w with diagnostics := w.diagnostics.enterPass "compute-call-sites" }) settled.sound
    fun c member f callee => (settled.lawful (settled.sound.live_of_reached
      (settled.sound.exact.mem_calls.mp member).1)).callee_fn callee
  rw [result] at fails
  cases fails

theorem ofTransform_eq_error {name : String} {transform : TransformM TransformResult}
    (fails : (ofTransform name transform).runNamed w = .error error v) :
    ∃ source p, transform w.program = .error source p ∧ error = .pass name source := by
  unfold runNamed ofTransform at fails
  dsimp only at fails
  split at fails
  · cases fails
  · rename_i source p result
    cases fails
    exact ⟨source, p, result, rfl⟩

end Pass

theorem Pass.error_of_checked {pass : Pass} {w v : Workspace} {verifies : Bool} {error : PipelineError}
    (safe : pass.Safe) (settled : w.program.Settled)
    (fails : pass.checked verifies w = .error error v) : pass.runNamed w = .error error v := by
  unfold checked at fails
  cases ran : pass.runNamed w with
  | error error' v' =>
    rw [ran] at fails
    cases fails
    rfl
  | ok stats v' =>
    rw [ran] at fails
    dsimp only at fails
    rw [Run.checkpoint_of_settled ((safe.runNamed_ends settled).of_ok ran)] at fails
    cases fails

/-- What holds of the program that the first `k` standard passes have let through, from the program `p`. -/
def Ready (p : Program) : Nat → Program → Prop
  | 0 | 1 => fun q => q = p
  | 2 => fun q => Linked q ∧ (∀ call ∈ q.registries.calls, (q.callee? call).isSome = true) ∧
      KeepsJumps p q
  | 3 | 4 => fun q => q.Flat ∧ KeepsJumps p q
  | _ => Program.Settled

section

variable {p : Program} {tree : Surface.ProgramTree} {k : Nat} {pass : Pass} {w v : Workspace}

theorem Ready.settled {q : Program} (settled : p.Settled) (ready : Ready p k q) : q.Settled := by
  match k with
  | 0 | 1 => exact ready ▸ settled
  | 2 => exact ready.1.settled
  | 3 | 4 => exact ready.1.settled
  | k + 5 => exact ready

theorem ready_turn (lowered : tree.lower = .ok p) {stats : Stats}
    (place : Pass.standard[k]? = some pass) (ready : Ready p k w.program)
    (ran : pass.runNamed w = .ok stats v) (passed : v.diagnostics.shouldAbort = false) :
    Ready p (k + 1) v.program := by
  have settled := (Surface.ProgramTree.lowered lowered).1
  match k with
  | 0 =>
    cases place
    obtain ⟨u, same, rfl⟩ := Pass.ofSuite_eq_ok ran
    rw [Check.Suite.run_program, same]
    exact ready
  | 1 =>
    cases place
    obtain ⟨u, sites, same, computed⟩ := Pass.callSites_eq_ok ran
    obtain rfl : u.program = p := same.trans ready
    obtain ⟨stats, v', result, progress⟩ := Calls.computeSites_progress settled.sound
      fun c member f callee => (settled.lawful (settled.sound.live_of_reached
        (settled.sound.exact.mem_calls.mp member).1)).callee_fn callee
    cases computed.symm.trans result
    obtain ⟨settledV, binds, _⟩ := (Calls.computeSites_ends settled).of_ok computed
    exact ⟨.intro lowered computed, progress.resolved settled.sound passed,
      binds.keepsJumps settled settledV⟩
  | 2 =>
    cases place
    obtain ⟨linked, _, keeps⟩ := ready
    obtain ⟨result, converts⟩ := Pass.ofTransform_eq_ok ran
    exact ⟨((Closure.flatten_converts linked.settled linked.lexical).of_ok converts).1.flat,
      keeps.trans (Closure.flatten_keeps_jumps (Closure.convertible_of_linked linked) converts)⟩
  | 3 =>
    cases place
    obtain ⟨u, same, rfl⟩ := Pass.ofSuite_eq_ok ran
    rw [Check.Suite.run_program, same]
    exact ready
  | 4 =>
    cases place
    obtain ⟨result, swept⟩ := Pass.ofTransform_eq_ok ran
    exact ((Store.eliminateDeadStores_ends ready.1.settled).of_ok swept).1
  | k + 5 => cases place

/-- The error of a run is that a function which is not external jumps to a label that it does not have, so
that there is no flow graph of it. -/
def Astray (p : Program) (error : PipelineError) : Prop :=
  ∃ f ∈ p.registries.fns, p.hasFlag f .external = false ∧ ∃ e, Graph.build p f = .error e ∧
    error = .pass "dead-store-elimination" (.flow e)

theorem astray_of_error (settled : p.Settled) {error : PipelineError}
    (place : Pass.standard[k]? = some pass) (ready : Ready p k w.program)
    (fails : pass.runNamed w = .error error v) : Astray p error := by
  match k with
  | 0 | 3 =>
    cases place
    exact absurd fails Pass.ofSuite_ne_error
  | 1 =>
    cases place
    exact absurd fails (Pass.callSites_ne_error (ready.settled settled))
  | 2 =>
    cases place
    obtain ⟨linked, resolved, _⟩ := ready
    obtain ⟨source, q, result, _⟩ := Pass.ofTransform_eq_error fails
    obtain ⟨_, refused⟩ :=
      (Closure.flatten_converts linked.settled linked.lexical).of_error result
    exact absurd refused (Closure.not_refused linked.settled linked.lexical resolved)
  | 4 =>
    cases place
    obtain ⟨flat, keeps⟩ := ready
    obtain ⟨source, q, result, rfl⟩ := Pass.ofTransform_eq_error fails
    obtain ⟨f, listed, inside, e, built, rfl⟩ := Store.eliminateDeadStores_fails flat result
    have before := keeps.fns.mp listed
    exact ⟨f, before, (keeps.external before).symm.trans inside, e,
      (keeps.build_eq_error before).mp built, rfl⟩
  | k + 5 => cases place

end

namespace Run

variable {r s t : Run} {passes : List Pass} {I : Nat → Workspace → Prop}

theorem Runs.going (runs : Runs r s) (going : Going passes I r)
    (turn : ∀ k pass w stats v, passes[k]? = some pass → I k w → pass.runNamed w = .ok stats v →
      v.diagnostics.shouldAbort = false → I (k + 1) v) : Going passes I s := by
  induction runs with
  | start => exact going
  | ran _ result before => exact (runNext_steps before turn).of_ok result

end Run

/-- Whatever is recorded of it, a run of the standard passes over a lowered program completes or aborts,
with the text of the program if it completes, or else some function that is not external goes astray. -/
theorem answers_or_astray {tree : Surface.ProgramTree} {p : Program} {config : Config} {r : Run}
    (lowered : tree.lower = .ok p) (start : Run.ofProgram p config = .ok r) :
    (∃ outcome output s, Run.withBackend .dump r = .ok (outcome, output) s ∧ outcome ≠ .pending) ∨
      ∃ error s, Run.withBackend .dump r = .error error s ∧ Astray p error := by
  have settled := (Surface.ProgramTree.lowered lowered).1
  have going : Run.Going Pass.standard (fun k w => Ready p k w.program) r := by
    unfold Run.ofProgram Run.ofPasses at start
    split at start
    · cases start
    · cases start
      exact ⟨rfl, rfl, Nat.zero_le _, rfl⟩
  have ended := Run.ended_of_toEnd r
  change (∃ outcome output s, EStateM.bind Run.toEnd _ r = .ok (outcome, output) s ∧ _) ∨
    ∃ error s, EStateM.bind Run.toEnd _ r = .error error s ∧ _
  unfold EStateM.bind
  cases result : Run.toEnd r with
  | ok outcome s =>
    rw [result] at ended
    obtain ⟨_, step, _, _, notPending, same⟩ := ended
    cases outcome with
    | pending => exact absurd same.symm notPending
    | completed => exact .inl ⟨_, _, _, rfl, nofun⟩
    | aborted index name => exact .inl ⟨_, _, _, rfl, nofun⟩
  | error error s =>
    rw [result] at ended
    obtain ⟨u, runs, fails⟩ := ended
    have going := runs.going going fun k pass w stats v => ready_turn lowered
    have turn := Run.turn u
    rw [fails] at turn
    cases turn with
    | failed _ place checked =>
      rw [going.passes_eq] at place
      have safe := Pass.safe_of_standard (List.mem_of_getElem? place)
      exact .inr ⟨error, _, rfl, astray_of_error settled place going.here
        (Pass.error_of_checked safe (going.here.settled settled) checked)⟩

/-- No pass reports a jump to a label that is nowhere, and the last one fails. -/
example : (Surface.ProgramTree.lower { modules := [{ name := "main", items := [
    .fn .nowhere "f" [] none .value [] [.goto .nowhere "away"]] }] }).toOption.bind (fun p =>
      match Run.withBackend .dump
          { passes := Pass.standard, work := { program := p }, config := { verify := false } } with
      | .error error _ => some error
      | .ok .. => none) =
    some (.pass "dead-store-elimination" (.flow (.unknownLabel "f" "away"))) := by
  decide +kernel

/-- Where every function that is not external jumps to labels of its own only, there is an outcome. -/
theorem answers_of_labelled {tree : Surface.ProgramTree} {p : Program} {config : Config} {r : Run}
    (lowered : tree.lower = .ok p) (start : Run.ofProgram p config = .ok r)
    (labelled : ∀ f ∈ p.registries.fns, p.hasFlag f .external = false → Labelled p f) :
    ∃ outcome output s, Run.withBackend .dump r = .ok (outcome, output) s ∧ outcome ≠ .pending := by
  refine (answers_or_astray lowered start).resolve_right ?_
  rintro ⟨_, _, _, f, listed, inside, e, fails, _⟩
  have settled := (Surface.ProgramTree.lowered lowered).1
  obtain ⟨d, placed⟩ := settled.placed_of_registered listed
  obtain ⟨g, built⟩ := Graph.exists_of_labelled settled.toTidy placed (labelled f listed inside)
  cases built.symm.trans fails

end Pipeline

end MiddleEnd
