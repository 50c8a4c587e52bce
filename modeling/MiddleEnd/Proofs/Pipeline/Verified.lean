import MiddleEnd.Pipeline.Run
import MiddleEnd.Proofs.Closure.Plan
import MiddleEnd.Proofs.Flow.Liveness
import MiddleEnd.Proofs.Settled.Verify
import MiddleEnd.Proofs.Store.Dead
import MiddleEnd.Proofs.Surface.Linked

/-! The standard passes hand on settled programs, in whatever order they run and however often. So
the verifier has nothing to find, whether it runs makes no difference, and what is found about live
variables in between is exact. -/

namespace MiddleEnd

namespace Check.Suite

theorem foldl_emit_program (found : List Finding) (w : Workspace) :
    (found.foldl (fun w finding => w.emit finding.diagnostic) w).program = w.program := by
  induction found generalizing w with
  | nil => rfl
  | cons finding found ih => exact ih _

/-- A suite only looks at the program. -/
@[simp] theorem run_program (suite : Suite) (w : Workspace) : (suite.run w).2.program = w.program :=
  foldl_emit_program _ w

end Check.Suite

namespace Pipeline

open MiddleEnd.Outcome

/-! One pass. -/

namespace Pass

/-- Runs the pass under its name. -/
def runNamed (pass : Pass) : PassM Stats := fun w =>
  pass.run { w with diagnostics := w.diagnostics.enterPass pass.name }

/-- What is left of the workspace by a pass, whether it succeeds or fails. -/
def leaves (pass : Pass) (w : Workspace) : Workspace := left (pass.runNamed w)

/-- What is left by passes that run one after another, each where the one before it has stopped. -/
def leavesAll (passes : List Pass) (w : Workspace) : Workspace :=
  passes.foldl (fun w pass => pass.leaves w) w

/-- A pass that hands on a settled program, leaves one if it fails, and never blames another. -/
structure Safe (pass : Pass) : Prop where
  settled {w : Workspace} : w.program.Settled →
    Ends pass.run w (fun _ v => v.program.Settled) fun v => v.program.Settled
  fault {w v : Workspace} {error : PipelineError} : pass.run w = .error error v →
    ∀ name violations, error ≠ .invariantViolation name violations

variable {pass : Pass}

theorem safe_ofSuite (suite : Check.Suite) : (ofSuite suite).Safe where
  settled {w} settled := by
    show ((suite.run w).2).program.Settled
    rwa [Check.Suite.run_program]
  fault := nofun

theorem safe_callSites : callSites.Safe where
  settled {w} settled := by
    have ends := Calls.computeSites_ends settled
    unfold Ends at ends ⊢
    unfold callSites
    dsimp only
    cases result : Calls.computeSites w with
    | ok stats v =>
      rw [result] at ends
      exact ends.1
    | error error v =>
      rw [result] at ends
      exact ends
  fault {w v error} result name violations := by
    unfold callSites at result
    dsimp only at result
    split at result
    · cases result
    · cases result
      nofun

theorem safe_ofTransform {name : String} {transform : TransformM TransformResult}
    (keeps : ∀ p : Program, p.Settled → Ends transform p (fun _ => Program.Settled) Program.Settled) :
    (ofTransform name transform).Safe where
  settled {w} settled := by
    have ends := keeps w.program settled
    unfold Ends at ends ⊢
    unfold ofTransform
    dsimp only
    cases result : transform w.program with
    | ok changes p =>
      rw [result] at ends
      exact ends
    | error error p =>
      rw [result] at ends
      exact ends
  fault {w v error} result name violations := by
    unfold ofTransform at result
    dsimp only at result
    split at result
    · cases result
    · cases result
      nofun

theorem safe_of_standard (standard : pass ∈ Pass.standard) : pass.Safe := by
  simp only [Pass.standard, List.mem_cons, List.not_mem_nil, or_false] at standard
  rcases standard with rfl | rfl | rfl | rfl | rfl
  · exact safe_ofSuite _
  · exact safe_callSites
  · exact safe_ofTransform fun p settled => Closure.flatten_settled settled
  · exact safe_ofSuite _
  · exact safe_ofTransform fun p settled =>
      (Store.eliminateDeadStores_ends settled).mono (fun _ _ swept => swept.1) fun _ => id

theorem Safe.runNamed_ends (safe : pass.Safe) {w : Workspace} (settled : w.program.Settled) :
    Ends pass.runNamed w (fun _ v => v.program.Settled) fun v => v.program.Settled :=
  safe.settled (w := { w with diagnostics := w.diagnostics.enterPass pass.name }) settled

theorem Safe.leaves_settled (safe : pass.Safe) {w : Workspace} (settled : w.program.Settled) :
    (pass.leaves w).program.Settled := by
  have ends := safe.runNamed_ends settled
  unfold leaves
  cases result : pass.runNamed w with
  | ok stats v => exact ends.of_ok result
  | error error v => exact ends.of_error result

theorem leavesAll_settled {passes : List Pass} (safe : ∀ pass ∈ passes, pass.Safe) {w : Workspace}
    (settled : w.program.Settled) : (leavesAll passes w).program.Settled := by
  induction passes generalizing w with
  | nil => exact settled
  | cons pass passes ih =>
    exact ih (fun other member => safe other (List.mem_cons_of_mem _ member))
      ((safe pass (List.mem_cons_self ..)).leaves_settled settled)

end Pass

/-! A run of passes. -/

namespace Run

variable {α β : Type} {r s : Run}

/-- The same run, with or without verification. -/
def withVerify (verify : Bool) (r : Run) : Run :=
  { r with config := { r.config with verify := verify } }

/-- What a step came to, with or without verification from there on. -/
def resultWithVerify (verify : Bool) :
    EStateM.Result PipelineError Run α → EStateM.Result PipelineError Run α
  | .ok a s => .ok a (s.withVerify verify)
  | .error error s => .error error (s.withVerify verify)

/-- The step never reports damage, and it does the same with and without verification. -/
structure Blind (m : RunM α) (r : Run) : Prop where
  fault {error : PipelineError} {s : Run} : m r = .error error s →
    ∀ name violations, error ≠ .invariantViolation name violations
  same (verify : Bool) : m (r.withVerify verify) = resultWithVerify verify (m r)

/-- The run is over a settled program, and its passes keep it so. -/
structure Steady (r : Run) : Prop where
  safe : ∀ pass ∈ r.passes, pass.Safe
  settled : r.work.program.Settled

namespace Blind

theorem of_ok {m : RunM α} {a : α} (result : m r = .ok a s)
    (same : ∀ verify, m (r.withVerify verify) = .ok a (s.withVerify verify)) : Blind m r where
  fault failed := by
    rw [result] at failed
    cases failed
  same verify := by
    rw [result, same]
    rfl

theorem bind {m : RunM α} {f : α → RunM β} (first : Blind m r)
    (rest : ∀ a s, m r = .ok a s → Blind (f a) s) : Blind (m >>= f) r where
  fault {error s} failed name violations := by
    change EStateM.bind m f r = _ at failed
    unfold EStateM.bind at failed
    cases result : m r with
    | ok a t =>
      rw [result] at failed
      exact (rest a t result).fault failed name violations
    | error error' t =>
      rw [result] at failed
      cases failed
      exact first.fault result name violations
  same verify := by
    show EStateM.bind m f _ = resultWithVerify verify (EStateM.bind m f r)
    unfold EStateM.bind
    rw [first.same verify]
    cases result : m r with
    | ok a t => exact (rest a t result).same verify
    | error error t => rfl

theorem pure (a : α) : Blind (Pure.pure a) r := of_ok rfl fun _ => rfl

/-- A step that looks at the run first, at what does not depend on verification. -/
theorem get_bind {f : Run → RunM β} (rest : Blind (f r) r)
    (same : ∀ verify, f (r.withVerify verify) = f r) : Blind (MonadState.get >>= f) r where
  fault failed := rest.fault failed
  same verify := by
    show f (r.withVerify verify) (r.withVerify verify) = _
    rw [same]
    exact rest.same verify

/-- A step that changes the run, in what does not depend on verification, and goes on. -/
theorem set_bind {g : Run → Run} {f : Run → RunM α}
    (commutes : ∀ verify, g (r.withVerify verify) = (g r).withVerify verify)
    (same : ∀ verify, f (r.withVerify verify) = f r) (rest : Blind (f r) (g r)) :
    Blind (MonadState.get >>= fun r => set (g r) >>= fun _ => f r) r where
  fault failed := rest.fault failed
  same verify := by
    show f (r.withVerify verify) (g (r.withVerify verify)) = _
    rw [same, commutes]
    exact rest.same verify

end Blind

/-- After a settled program only diagnostics can stop a run. -/
theorem checkpoint_of_settled {w : Workspace} (settled : w.program.Settled) (pass : String)
    (verifies : Bool) : checkpoint pass w verifies =
      .ok (if w.diagnostics.shouldAbort then .abort else .proceed) := by
  unfold checkpoint
  rw [settled.verify_eq_nil]
  cases w.diagnostics.shouldAbort <;> simp

/-- What the rest of a run keeps. -/
abbrev Keeps (m : RunM α) (r : Run) : Prop := Ends m r (fun _ => Steady) Steady

theorem runPass_keeps {pass : Pass} (safe : pass.Safe) (steady : Steady r) :
    Keeps (runPass pass) r := by
  have ends := safe.runNamed_ends steady.settled
  unfold Ends Pass.runNamed at ends
  unfold Keeps Ends runPass
  dsimp only
  split at ends
  · rename_i result
    rw [result]
    exact ⟨steady.safe, ends⟩
  · rename_i result
    rw [result]
    exact ⟨steady.safe, ends⟩

theorem runPass_blind {pass : Pass} (safe : pass.Safe) : Blind (runPass pass) r where
  fault {error s} failed := by
    unfold runPass at failed
    dsimp only at failed
    split at failed
    · cases failed
    · rename_i result
      cases failed
      exact safe.fault result
  same verify := by
    show runPass pass (r.withVerify verify) = _
    unfold runPass withVerify
    dsimp only
    split <;> rfl

theorem advance_keeps {pass : Pass} (safe : pass.Safe) (steady : Steady r) :
    Keeps (advance pass) r := by
  unfold Keeps advance
  refine Ends.get_bind ?_
  refine Ends.bind (runPass_keeps safe steady) fun stats s after => ?_
  refine Ends.get_bind ?_
  rw [checkpoint_of_settled after.settled]
  cases s.work.diagnostics.shouldAbort with
  | true => exact ⟨after.safe, after.settled⟩
  | false =>
    show Ends (if s.next + 1 = s.passes.length then _ else _) _ _ _
    split <;> exact ⟨after.safe, after.settled⟩

/-- A step that goes on after the checkpoint of a settled program. -/
theorem Blind.checked {pass : String} {f : Run → Verdict → RunM α}
    (settled : r.work.program.Settled) (rest : ∀ verdict, Blind (MonadState.get >>= (f · verdict)) r) :
    Blind (MonadState.get >>= fun r =>
      match checkpoint pass r.work r.config.verify with
      | .error error => throw error
      | .ok verdict => f r verdict) r := by
  have checked (verify : Bool) := checkpoint_of_settled settled pass verify
  refine ⟨fun {error s} failed => ?_, fun verify => ?_⟩
  · refine (rest (if r.work.diagnostics.shouldAbort then .abort else .proceed)).fault (s := s) ?_
    change (match checkpoint pass r.work r.config.verify with
      | .error error => throw error
      | .ok verdict => f r verdict : RunM α) r = _ at failed
    rwa [checked] at failed
  · show (match checkpoint pass r.work verify with
        | .error error => throw error
        | .ok verdict => f (r.withVerify verify) verdict : RunM α) (r.withVerify verify) =
      resultWithVerify verify ((match checkpoint pass r.work r.config.verify with
        | .error error => throw error
        | .ok verdict => f r verdict : RunM α) r)
    rw [checked, checked]
    exact (rest _).same verify

theorem advance_blind {pass : Pass} (safe : pass.Safe) (steady : Steady r) :
    Blind (advance pass) r := by
  unfold advance
  refine Blind.get_bind ?_ fun _ => rfl
  refine Blind.bind (runPass_blind safe) fun stats s result => ?_
  refine Blind.checked ((runPass_keeps safe steady).of_ok result).settled fun verdict => ?_
  refine Blind.set_bind (fun _ => rfl) (fun _ => rfl) ?_
  cases verdict with
  | abort => exact Blind.of_ok rfl fun _ => rfl
  | proceed =>
    by_cases last : s.next + 1 = s.passes.length
    · simp only [if_pos last]
      exact Blind.of_ok rfl fun _ => rfl
    · simp only [if_neg last]
      exact Blind.pure _

theorem runNext_keeps (steady : Steady r) : Keeps runNext r := by
  unfold Keeps runNext
  refine Ends.get_bind ?_
  split
  · exact Ends.pure steady
  · exact Ends.pure steady
  · split
    · exact ⟨steady.safe, steady.settled⟩
    · rename_i pass found
      exact advance_keeps (steady.safe pass (List.mem_of_getElem? found)) steady

theorem runNext_blind (steady : Steady r) : Blind runNext r := by
  unfold runNext
  refine Blind.get_bind ?_ fun _ => rfl
  split
  · exact Blind.pure _
  · exact Blind.pure _
  · split
    · exact Blind.of_ok rfl fun _ => rfl
    · rename_i pass found
      exact advance_blind (steady.safe pass (List.mem_of_getElem? found)) steady

theorem steps_blind (fuel : Nat) (steady : Steady r) : Blind (steps fuel) r := by
  have outcome (s : Run) : Blind (do pure (← get).outcome) s :=
    Blind.get_bind (Blind.pure _) fun _ => rfl
  induction fuel generalizing r with
  | zero => exact outcome r
  | succ fuel ih =>
    refine Blind.bind (runNext_blind steady) fun step s result => ?_
    cases step with
    | ran pass => exact ih ((runNext_keeps steady).of_ok result)
    | completed | aborted => exact outcome s

theorem toEnd_blind (steady : Steady r) : Blind toEnd r :=
  Blind.get_bind (steps_blind _ steady) fun _ => rfl

theorem withBackend_blind (backend : Backend) (steady : Steady r) : Blind (withBackend backend) r := by
  refine Blind.bind (toEnd_blind steady) fun outcome s _ => ?_
  cases outcome with
  | completed =>
    refine Blind.get_bind ?_ fun _ => rfl
    cases backend.generate s.work.program with
    | ok output => exact Blind.pure _
    | error message => exact ⟨fun failed => by cases failed; nofun, fun _ => rfl⟩
  | pending | aborted => exact Blind.pure _

/-- What is left of a run by some of its steps, whether they succeed or fail. -/
inductive Follows (r : Run) : Run → Prop where
  | start : Follows r r
  | step {s t : Run} {step : Step} : Follows r s → runNext s = .ok step t → Follows r t
  | failed {s t : Run} {error : PipelineError} : Follows r s → runNext s = .error error t →
      Follows r t

theorem Follows.steady (follows : Follows r s) (steady : Steady r) : Steady s := by
  induction follows with
  | start => exact steady
  | step _ result before => exact (runNext_keeps before).of_ok result
  | failed _ result before => exact (runNext_keeps before).of_error result

theorem steady_of_ofPasses {p : Program} {passes : List Pass} {config : Config}
    (settled : p.Settled) (safe : ∀ pass ∈ passes, pass.Safe)
    (start : ofPasses p passes config = .ok r) : Steady r := by
  unfold ofPasses at start
  split at start
  · cases start
  · cases start
    exact ⟨safe, settled⟩

theorem ofPasses_withVerify {p : Program} {passes : List Pass} {config : Config} (verify : Bool)
    (start : ofPasses p passes config = .ok r) :
    ofPasses p passes { config with verify := verify } = .ok (r.withVerify verify) := by
  unfold ofPasses at start ⊢
  rw [show ({ config with verify := verify } : Config).unknownPass? (passes.map Pass.name) =
    config.unknownPass? (passes.map Pass.name) from rfl]
  split at start
  · cases start
  · cases start
    rfl

end Run

/-- Whatever standard passes have run over a lowered program, what they leave is settled. -/
theorem settled_after_standard {tree : Surface.ProgramTree} {p : Program}
    (lowered : tree.lower = .ok p) {passes : List Pass}
    (standard : ∀ pass ∈ passes, pass ∈ Pass.standard) :
    (Pass.leavesAll passes { program := p }).program.Settled :=
  Pass.leavesAll_settled (fun pass member => Pass.safe_of_standard (standard pass member))
    (Surface.ProgramTree.lowered lowered).1

/-- However the standard passes are put together, what each hands on passes verification. So no run
of them ever reports damage, and it does the same with and without verification. -/
theorem verified_after_standard {tree : Surface.ProgramTree} {p : Program}
    (lowered : tree.lower = .ok p) {passes : List Pass}
    (standard : ∀ pass ∈ passes, pass ∈ Pass.standard) :
    (∀ front pass rest stats w, passes = front ++ pass :: rest →
      pass.runNamed (Pass.leavesAll front { program := p }) = .ok stats w →
      w.program.verify = []) ∧
    ∀ config r, Run.ofPasses p passes config = .ok r →
      (∀ verify, Run.ofPasses p passes { config with verify := verify } =
        .ok (r.withVerify verify)) ∧
      ∀ s, Run.Follows r s → Run.Blind Run.runNext s ∧ Run.Blind Run.toEnd s ∧
        ∀ backend, Run.Blind (Run.withBackend backend) s := by
  have settled := (Surface.ProgramTree.lowered lowered).1
  have safe (pass : Pass) (member : pass ∈ passes) : pass.Safe :=
    Pass.safe_of_standard (standard pass member)
  refine ⟨?_, ?_⟩
  · rintro front pass rest stats w rfl result
    have before := settled_after_standard lowered fun other member =>
      standard other (List.mem_append_left _ member)
    have here := safe pass (List.mem_append_right _ (List.mem_cons_self ..))
    exact ((here.runNamed_ends before).of_ok result).verify_eq_nil
  · intro config r start
    refine ⟨fun verify => Run.ofPasses_withVerify verify start, fun s follows => ?_⟩
    have steady := follows.steady (Run.steady_of_ofPasses settled safe start)
    exact ⟨Run.runNext_blind steady, Run.toEnd_blind steady,
      fun backend => Run.withBackend_blind backend steady⟩

/-- Functions move out before the calls are listed and again after it, and dead stores go twice. -/
def shuffled : List Pass :=
  [.flatten, .callSites, .eliminateDeadStores, .flatten, .ofSuite .resolved, .eliminateDeadStores]

theorem shuffled_verified :
    (∀ pass ∈ shuffled, pass ∈ Pass.standard) ∧
    (∃ stats w, Pass.eliminateDeadStores.runNamed
        (Pass.leavesAll (shuffled.take 5) { program := Surface.nestedProgram }) = .ok stats w ∧
      w.program.verify = []) ∧
    ∃ r, Run.ofPasses Surface.nestedProgram shuffled {} = .ok r ∧
      Run.toEnd (r.withVerify false) = Run.resultWithVerify false (Run.toEnd r) := by
  have standard : ∀ pass ∈ shuffled, pass ∈ Pass.standard := by
    simp [shuffled, Pass.standard]
  obtain ⟨verified, blind⟩ := verified_after_standard Surface.nestedTree_lowers standard
  have success : succeeds (Pass.eliminateDeadStores.runNamed
      (Pass.leavesAll (shuffled.take 5) { program := Surface.nestedProgram })) = true := by
    decide +kernel
  obtain ⟨stats, result⟩ := exists_ok_of_succeeds success
  exact ⟨standard, ⟨stats, _, result, verified _ _ [] stats _ rfl result⟩, _, rfl,
    ((blind {} _ rfl).2 _ .start).2.1.same false⟩

/-! Live variables between passes. -/

/-- Whatever standard passes have run over a lowered program, the live variables of a function that has
a graph are found without fail, and they are exact. -/
theorem liveness_after_standard {tree : Surface.ProgramTree} {start p : Program}
    (lowered : tree.lower = .ok start) {passes : List Pass}
    (standard : ∀ pass ∈ passes, pass ∈ Pass.standard)
    (left : (Pass.leavesAll passes { program := start }).program = p) {f : SymbolId} {g : Flow.Graph}
    (registered : f ∈ p.registries.fns) (built : Flow.Graph.build p f = .ok g) :
    ∃ body l, p.fnBody? f = some body ∧ Flow.Liveness.analyze p g = .ok l ∧ l.Exact p g body := by
  have settled := settled_after_standard lowered standard
  rw [left] at settled
  exact Flow.Liveness.exists_exact settled registered built

/-- `nestedProgram` with its functions side by side. -/
@[irreducible] def flatProgram : Program :=
  (Pass.leavesAll [.callSites, .flatten] { program := Surface.nestedProgram }).program

/-- The variable that was made for the address of `x` is needed after its definition, up to the call
that it is passed to. -/
theorem flatProgram_live : ∃ g l after bit, Flow.Graph.build flatProgram ⟨1⟩ = .ok g ∧
    Flow.Liveness.analyze flatProgram g = .ok l ∧ l.liveAfter flatProgram g 0 = .ok after ∧
    Flow.Declares flatProgram ⟨2⟩ ⟨6⟩ ∧ l.bit? ⟨6⟩ = some bit ∧
    after[1]?.map (·.contains bit) = some true ∧ after[3]?.map (·.contains bit) = some false := by
  have standard : ∀ pass ∈ [Pass.callSites, Pass.flatten], pass ∈ Pass.standard := by
    simp [Pass.standard]
  have left : (Pass.leavesAll [.callSites, .flatten] { program := Surface.nestedProgram }).program =
      flatProgram := by
    unfold flatProgram
    rfl
  have place : flatProgram.fnBody? ⟨1⟩ = some ⟨2⟩ ∧ ⟨18⟩ ∈ flatProgram.children ⟨2⟩ ∧
      flatProgram.kind ⟨18⟩ = .define ⟨6⟩ (some ⟨17⟩) ∧ (flatProgram.symbol ⟨6⟩).isVar = true ∧
      ⟨1⟩ ∈ flatProgram.registries.fns := by
    decide +kernel
  have shape : ((Flow.Graph.build flatProgram ⟨1⟩).toOption.map fun g =>
      (g.blocks.size, (g.block 0).succ, (g.block 0).items.length,
        ((g.block 0).items.drop 2).flatMap (Flow.accesses flatProgram))) =
      some (1, [], 4, [.read ⟨5⟩, .write ⟨7⟩, .read ⟨6⟩, .read ⟨7⟩]) := by
    decide +kernel
  obtain ⟨found, child, kind, isVar, registered⟩ := place
  cases built : Flow.Graph.build flatProgram ⟨1⟩ with
  | error e =>
    rw [built] at shape
    cases shape
  | ok g =>
    obtain ⟨body, l, found', analyzed, exact⟩ :=
      liveness_after_standard Surface.nestedTree_lowers standard left registered built
    cases found.symm.trans found'
    simp only [built, Except.toOption, Option.map_some, Option.some.injEq, Prod.mk.injEq] at shape
    obtain ⟨size, leaf, count, accessed⟩ := shape
    have declares : Flow.Declares flatProgram ⟨2⟩ ⟨6⟩ :=
      ⟨⟨18⟩, some ⟨17⟩, .down .refl (.inl rfl) child, kind, isVar⟩
    obtain ⟨after, known, length, each⟩ := exact.within (show 0 < g.blocks.size by omega)
    obtain ⟨bit, tracked, isLive⟩ := each ⟨6⟩ declares
    rw [count] at length
    have first : after[1]? = some after[1] := List.getElem?_eq_getElem (by omega)
    have last : after[3]? = some after[3] := List.getElem?_eq_getElem (by omega)
    have needed : Flow.Needed flatProgram g ⟨6⟩ 0 ((g.block 0).items.drop 2) := by
      refine ⟨[], .nil, [.read ⟨5⟩, .write ⟨7⟩], [.read ⟨7⟩], ?_, by simp⟩
      simpa [Flow.Graph.itemsOf] using accessed
    have unneeded : ¬ Flow.Needed flatProgram g ⟨6⟩ 0 ((g.block 0).items.drop 4) := by
      rw [List.drop_eq_nil_of_le (by omega)]
      exact Flow.not_needed_of_leaf leaf
    refine ⟨g, l, after, bit, rfl, analyzed, known, declares, tracked, ?_, ?_⟩
    · rw [first, Option.map_some, (isLive 1 _ first).mpr needed]
    · rw [last, Option.map_some, Option.some.injEq, Bool.eq_false_iff]
      exact fun holds => unneeded ((isLive 3 _ last).mp holds)

end Pipeline

end MiddleEnd
