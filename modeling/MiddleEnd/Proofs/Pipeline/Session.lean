import MiddleEnd.Proofs.Pipeline.Turn

/-! Whatever is asked of a run, in whatever order, its place, its outcome, its report and its
diagnostics agree. -/

namespace MiddleEnd.Pipeline

open MiddleEnd.Outcome

/-- What can be asked of a run. -/
inductive Call where
  | next
  | toEnd
  | withBackend (backend : Backend)

/-- What a call gives back. -/
inductive Answer where
  | step (step : Step)
  | outcome (outcome : Outcome)
  | output (outcome : Outcome) (text : Option String)
  deriving DecidableEq, Repr

def Call.perform : Call → RunM Answer
  | next => .step <$> Run.runNext
  | toEnd => .outcome <$> Run.toEnd
  | withBackend backend => (fun made => .output made.1 made.2) <$> Run.withBackend backend

namespace Counts

def get (c : Counts) : Severity → Nat
  | .fatal => c.fatal
  | .error => c.errors
  | .warning => c.warnings

@[simp] theorem get_of (ds : Diagnostics) (severity : Severity) :
    (of ds).get severity = ds.count severity := by
  cases severity <;> rfl

@[simp] theorem get_since (now earlier : Counts) (severity : Severity) :
    (now.since earlier).get severity = now.get severity - earlier.get severity := by
  cases severity <;> rfl

end Counts

/-- The step only adds to the diagnostics, whether it succeeds or fails. -/
def Adds {ε α : Type} (m : EStateM ε Workspace α) (w : Workspace) : Prop :=
  Ends m w (fun _ v => w.diagnostics.items <+: v.diagnostics.items)
    fun v => w.diagnostics.items <+: v.diagnostics.items

/-- The pass only adds to the diagnostics. -/
def Pass.Appends (pass : Pass) : Prop := ∀ w, Adds pass.run w

theorem Pass.Appends.checked {pass : Pass} (appends : pass.Appends) {verifies : Bool}
    {w v : Workspace} {answer : Stats × Verdict} (ran : pass.checked verifies w = .ok answer v) :
    w.diagnostics.items <+: v.diagnostics.items := by
  unfold Pass.checked Pass.runNamed at ran
  cases result : pass.run { w with diagnostics := w.diagnostics.enterPass pass.name } with
  | error error u => simp [result] at ran
  | ok stats u =>
    have longer := (appends _).of_ok result
    simp only [result] at ran
    split at ran
    · cases ran
    · cases ran
      exact longer

namespace Run

variable {p : Program} {passes : List Pass} {config : Config} {r₀ r s t : Run}

/-- The answers to calls one after another, each with the run that it leaves. A call that fails does
not keep the next one from being made. -/
def trace : List Call → Run → List (Except PipelineError Answer × Run)
  | [], _ => []
  | call :: calls, r =>
    match call.perform r with
    | .ok answer s => (.ok answer, s) :: trace calls s
    | .error error s => (.error error, s) :: trace calls s

/-- The run after some calls. -/
def after (calls : List Call) (r : Run) : Run := calls.foldl (fun r call => left (call.perform r)) r

/-! What a call does turn by turn. -/

/-- The back end was asked for output at the end of a run and has none. -/
def Refused (call : Call) (error : PipelineError) (s : Run) : Prop :=
  ∃ backend message, call = .withBackend backend ∧ s.report.outcome = .completed ∧
    backend.generate s.work.program = .error message ∧ error = .backend backend.name message

/-- A turn fails, as the first turn or after others that leave passes to run. -/
def Breaks (call : Call) (r : Run) (error : PipelineError) (s : Run) : Prop :=
  ∃ t, Runs r t ∧ (call = .next → t = r) ∧ runNext t = .error error s

theorem withBackend_eq (backend : Backend) (r : Run) : withBackend backend r =
    match toEnd r with
    | .ok .completed s =>
      match backend.generate s.work.program with
      | .ok output => .ok (.completed, some output) s
      | .error message => .error (.backend backend.name message) s
    | .ok outcome s => .ok (outcome, none) s
    | .error error s => .error error s := by
  show EStateM.bind toEnd _ r = _
  unfold EStateM.bind
  cases toEnd r with
  | error error s => rfl
  | ok outcome s =>
    cases outcome with
    | pending | aborted => rfl
    | completed =>
      show (match backend.generate s.work.program with
        | .ok output => pure (.completed, some output)
        | .error message => throw (.backend backend.name message) :
          RunM (Outcome × Option String)) s = _
      dsimp only
      cases backend.generate s.work.program <;> rfl

/-- The run has been stepped to its end, or on to a turn that leaves passes to run. -/
def Stepped (r s : Run) : Prop := ∃ t step, Runs r t ∧ runNext t = .ok step s

theorem Stepped.succeeds (stepped : Stepped r s) : Succeeds r s := by
  obtain ⟨t, step, runs, result⟩ := stepped
  exact runs.succeeds.step result

/-- What a call can do. -/
def Performs (call : Call) (r : Run) (result : EStateM.Result PipelineError Run Answer) : Prop :=
  match result with
  | .ok _ s => Stepped r s
  | .error error s => Stepped r s ∧ Refused call error s ∨ Breaks call r error s

theorem performs (call : Call) (r : Run) : Performs call r (call.perform r) := by
  have ended := ended_of_toEnd r
  cases call with
  | next =>
    show Performs _ r (EStateM.map _ runNext r)
    unfold EStateM.map
    cases result : runNext r with
    | ok step s => exact ⟨r, step, .start, result⟩
    | error error s => exact .inr ⟨r, .start, fun _ => rfl, result⟩
  | toEnd =>
    show Performs _ r (EStateM.map _ toEnd r)
    unfold EStateM.map
    cases result : toEnd r with
    | ok outcome s =>
      rw [result] at ended
      obtain ⟨t, step, runs, last, -⟩ := ended
      exact ⟨t, step, runs, last⟩
    | error error s =>
      rw [result] at ended
      obtain ⟨t, runs, failed⟩ := ended
      exact .inr ⟨t, runs, nofun, failed⟩
  | withBackend backend =>
    show Performs _ r (EStateM.map _ (withBackend backend) r)
    unfold EStateM.map
    rw [withBackend_eq]
    cases result : toEnd r with
    | error error s =>
      rw [result] at ended
      obtain ⟨t, runs, failed⟩ := ended
      exact .inr ⟨t, runs, nofun, failed⟩
    | ok outcome s =>
      rw [result] at ended
      obtain ⟨t, step, runs, last, -, rfl⟩ := ended
      have stepped : Stepped r s := ⟨t, step, runs, last⟩
      have outcome := outcome_of_turn last
      cases step with
      | ran | aborted => exact stepped
      | completed =>
        dsimp only [Step.outcome]
        cases made : backend.generate s.work.program with
        | ok text => exact stepped
        | error message => exact .inl ⟨stepped, backend, message, rfl, outcome, made, rfl⟩

theorem follows_perform (call : Call) (r : Run) : Follows r (left (call.perform r)) := by
  have performs := performs call r
  cases result : call.perform r with
  | ok answer s =>
    rw [result] at performs
    exact performs.succeeds.follows
  | error error s =>
    rw [result] at performs
    obtain ⟨stepped, -⟩ | ⟨t, runs, -, failed⟩ := performs
    · exact stepped.succeeds.follows
    · exact runs.succeeds.follows.failed failed

theorem follows_after (calls : List Call) (r : Run) : Follows r (r.after calls) := by
  induction calls generalizing r with
  | nil => exact .start
  | cons call calls ih => exact (follows_perform call r).trans (ih _)

/-- Where no call fails, no turn does. -/
theorem succeeds_after {calls : List Call}
    (clean : ∀ made ∈ r.trace calls, ∃ answer, made.1 = .ok answer) :
    Succeeds r (r.after calls) := by
  induction calls generalizing r with
  | nil => exact .start
  | cons call calls ih =>
    have performs := performs call r
    unfold trace at clean
    unfold after
    rw [List.foldl_cons]
    cases result : call.perform r with
    | error error s =>
      rw [result] at clean
      obtain ⟨answer, absurd⟩ := clean _ (List.mem_cons_self ..)
      cases absurd
    | ok answer s =>
      rw [result] at clean performs
      exact performs.succeeds.trans (ih fun made member => clean made (List.mem_cons_of_mem _ member))

/-! The place, the outcome and the records. -/

/-- The run has come through the checkpoint after its first `count` passes, and there was nothing but
warnings then. -/
def Cleared (r₀ : Run) (count : Nat) (r : Run) : Prop :=
  ∃ s pass t, Follows r₀ s ∧ runNext s = .ok (.ran pass) t ∧ t.next = count ∧
    t.work.diagnostics.Quiet ∧ Follows t r

/-- What holds of a run over `passes` that started as `r₀`. -/
structure Orderly (passes : List Pass) (r₀ r : Run) : Prop where
  passes_eq : r.passes = passes
  next_le : r.next ≤ passes.length
  passesRun_eq : r.passesRun = (passes.map Pass.name).take r.next
  records : r.report.passes.map PassRecord.pass = r.passesRun
  pending : r.report.outcome = .pending →
    (r.next = 0 ∨ Cleared r₀ r.next r) ∧
      (r.next < passes.length ∨ passes = [] ∧ r.work.diagnostics.Quiet)
  completed : r.report.outcome = .completed →
    r.next = passes.length ∧ r.work.diagnostics.Quiet
  aborted : ∀ index name, r.report.outcome = .aborted index name →
    r.next = index + 1 ∧ (∃ pass, passes[index]? = some pass ∧ pass.name = name) ∧
      r.work.diagnostics.Faulty ∧ (index = 0 ∨ Cleared r₀ index r)

theorem Cleared.later {count : Nat} (cleared : Cleared r₀ count r) (follows : Follows r s) :
    Cleared r₀ count s := by
  obtain ⟨u, pass, t, before, turns, next, quiet, after⟩ := cleared
  exact ⟨u, pass, t, before, turns, next, quiet, after.trans follows⟩

theorem orderly_of_ofPasses (start : ofPasses p passes config = .ok r₀) :
    Orderly passes r₀ r₀ := by
  unfold ofPasses at start
  split at start
  · cases start
  · cases start
    exact
      { passes_eq := rfl
        next_le := Nat.zero_le _
        passesRun_eq := rfl
        records := rfl
        pending := fun _ => ⟨.inl rfl, by
          cases passes with
          | nil => exact .inr ⟨rfl, nofun⟩
          | cons pass passes => exact .inl (Nat.zero_lt_succ _)⟩
        completed := nofun
        aborted := nofun }

/-- Taking a pass and putting it on record. -/
theorem passesRun_recorded {pass : Pass} (stats : Stats) (w : Workspace) (outcome : Outcome)
    (place : r.passes[r.next]? = some pass) :
    (r.recorded pass stats w outcome).passesRun = r.passesRun ++ [pass.name] := by
  simp [passesRun, recorded, List.take_add_one, place]

theorem Orderly.turn (orderly : Orderly passes r₀ r) (follows : Follows r₀ r) :
    Orderly passes r₀ (left (runNext r)) := by
  have turned := Run.turn r
  generalize turns : runNext r = result at turned
  cases turned with
  | repeats => exact orderly
  | empty standing past =>
    rw [orderly.passes_eq] at past
    have nothing := (orderly.pending standing).2.resolve_left (Nat.not_lt.mpr past)
    exact
      { orderly with
        pending := nofun
        completed := fun _ => ⟨Nat.le_antisymm orderly.next_le past, nothing.2⟩
        aborted := nofun }
  | @failed pass error w standing place ran =>
    have inside : r.next < passes.length := by
      rw [← orderly.passes_eq]
      exact (List.getElem?_eq_some_iff.mp place).1
    have later : Follows r { r with work := w } := Follows.start.failed turns
    exact
      { orderly with
        pending := fun _ =>
          ⟨(orderly.pending standing).1.imp_right (·.later later), .inl inside⟩
        completed := fun completed => nomatch standing.symm.trans completed
        aborted := fun index name aborted => nomatch standing.symm.trans aborted }
  | @passed pass stats verdict w standing place ran =>
    have stops := shouldAbort_of_checked ran
    have came := stepAfter_spec r pass verdict
    have later := Follows.start.step turns
    have inside : r.next < passes.length := by
      rw [← orderly.passes_eq]
      exact (List.getElem?_eq_some_iff.mp place).1
    have taken := passesRun_recorded stats w (r.stepAfter pass verdict).outcome place
    have quiet (proceeds : verdict = .proceed) : w.diagnostics.Quiet := by
      subst proceeds
      exact Diagnostics.shouldAbort_eq_false_iff.mp stops
    rw [left]
    exact
      { passes_eq := orderly.passes_eq
        next_le := inside
        passesRun_eq := by
          rw [← orderly.passes_eq, ← List.map_take]
          rfl
        records := by
          rw [taken, ← orderly.records]
          exact List.map_append
        pending := fun pending => by
          obtain ⟨name, goes⟩ := Step.exists_ran pending
          rw [goes] at came turns ⊢
          obtain ⟨proceeds, more, -⟩ := came
          rw [orderly.passes_eq] at more
          exact ⟨.inr ⟨r, name, _, follows, turns, rfl, quiet proceeds, .start⟩,
            .inl (Nat.lt_of_le_of_ne inside more)⟩
        completed := fun completed => by
          have goes : r.stepAfter pass verdict = .completed := Step.outcome_inj completed nofun
          rw [goes] at came
          rw [orderly.passes_eq] at came
          exact ⟨came.2, quiet came.1⟩
        aborted := fun index name aborted => by
          have goes : r.stepAfter pass verdict = .aborted index name :=
            Step.outcome_inj aborted nofun
          rw [goes] at came
          obtain ⟨stop, rfl, rfl⟩ := came
          subst stop
          rw [orderly.passes_eq] at place
          exact ⟨rfl, ⟨pass, place, rfl⟩, Diagnostics.shouldAbort_eq_true_iff.mp stops,
            (orderly.pending standing).1.imp_right (·.later later)⟩ }

theorem orderly_of_follows (start : ofPasses p passes config = .ok r₀) (follows : Follows r₀ r) :
    Orderly passes r₀ r := by
  induction follows with
  | start => exact orderly_of_ofPasses start
  | step before result orderly | failed before result orderly =>
    have turned := orderly.turn before
    rwa [result] at turned

/-! Once the run has ended. -/

/-- Nothing that is asked of an ended run changes it, and every step says how it has ended. -/
def Final (r : Run) : Prop :=
  r.report.outcome ≠ .pending →
    (∃ step, step.outcome = r.report.outcome ∧ runNext r = .ok step r) ∧
      ∀ call : Call, left (call.perform r) = r

theorem exists_step_of_ended (ended : r.report.outcome ≠ .pending) :
    ∃ step, step.outcome = r.report.outcome ∧ runNext r = .ok step r := by
  have turned := turn r
  generalize runNext r = result at turned
  cases turned with
  | repeats standing => exact ⟨_, standing.symm, rfl⟩
  | empty standing | failed standing | passed standing => exact absurd standing ended

theorem Runs.eq_of_ended (runs : Runs r s) (ended : r.report.outcome ≠ .pending) : s = r := by
  induction runs with
  | start => rfl
  | ran _ result same =>
    obtain ⟨step, outcome, stays⟩ := exists_step_of_ended ended
    rw [same, stays] at result
    cases result
    exact absurd outcome.symm ended

theorem Stepped.eq_of_ended (stepped : Stepped r s) (ended : r.report.outcome ≠ .pending) :
    s = r := by
  obtain ⟨t, step, runs, result⟩ := stepped
  obtain ⟨_, _, stays⟩ := exists_step_of_ended ended
  rw [runs.eq_of_ended ended, stays] at result
  cases result
  rfl

theorem final (r : Run) : Final r := by
  intro ended
  refine ⟨exists_step_of_ended ended, fun call => ?_⟩
  have performs := performs call r
  cases result : call.perform r with
  | ok answer s =>
    rw [result] at performs
    exact performs.eq_of_ended ended
  | error error s =>
    rw [result] at performs
    obtain ⟨stepped, -⟩ | ⟨t, runs, -, failed⟩ := performs
    · exact stepped.eq_of_ended ended
    · obtain ⟨_, _, stays⟩ := exists_step_of_ended ended
      rw [runs.eq_of_ended ended, stays] at failed
      cases failed

/-! Back ends. -/

/-- Only a completed run is handed to a back end: otherwise it does not matter which one there is. -/
structure Gated (r : Run) : Prop where
  output {backend : Backend} {outcome : Outcome} {text : String} {s : Run} :
    withBackend backend r = .ok (outcome, some text) s →
      s.report.outcome = .completed ∧ backend.generate s.work.program = .ok text
  unused {backend : Backend} :
    (left (withBackend backend r)).report.outcome ≠ .completed →
      ∀ other, withBackend other r = withBackend backend r

theorem withBackend_of_unfinished {outcome : Outcome} (result : toEnd r = .ok outcome s)
    (unfinished : outcome ≠ .completed) (backend : Backend) :
    withBackend backend r = .ok (outcome, none) s := by
  rw [withBackend_eq, result]
  cases outcome with
  | completed => exact absurd rfl unfinished
  | pending | aborted => rfl

theorem gated (r : Run) : Gated r := by
  have ended := ended_of_toEnd r
  cases result : toEnd r with
  | error error s =>
    have unused (backend : Backend) : withBackend backend r = .error error s := by
      rw [withBackend_eq, result]
    exact ⟨fun made => by simp [unused] at made, fun _ other => by rw [unused, unused]⟩
  | ok outcome s =>
    rw [result] at ended
    obtain ⟨t, step, -, last, -, standing⟩ := ended
    rw [← outcome_of_turn last] at standing
    by_cases completed : outcome = .completed
    · subst completed
      constructor
      · intro backend outcome text u made
        rw [withBackend_eq, result] at made
        cases generated : backend.generate s.work.program with
        | ok output =>
          simp only [generated] at made
          cases made
          exact ⟨standing.symm, generated⟩
        | error message => simp [generated] at made
      · intro backend incomplete
        rw [withBackend_eq, result] at incomplete
        dsimp only at incomplete
        cases generated : backend.generate s.work.program <;> rw [generated] at incomplete <;>
          exact absurd standing.symm incomplete
    · have unused := withBackend_of_unfinished result completed
      exact ⟨fun made => by simp [unused] at made, fun _ other => by rw [unused, unused]⟩

/-! Failures. -/

/-- A call that fails has found a back end without output, or a pass has failed at its work or at the
checkpoint: then only the workspace is not as it was when that pass started. -/
def Recoverable (r : Run) : Prop :=
  ∀ (call : Call) error s, call.perform r = .error error s → Refused call error s ∨
    ∃ t pass, Runs r t ∧ (call = .next → t = r) ∧ t.report.outcome = .pending ∧
      t.passes[t.next]? = some pass ∧
      pass.checked t.config.verify t.work = .error error s.work ∧ s = { t with work := s.work }

theorem recoverable (r : Run) : Recoverable r := by
  intro call error s failed
  have performs := performs call r
  rw [failed] at performs
  obtain ⟨-, refused⟩ | ⟨t, runs, first, broke⟩ := performs
  · exact .inl refused
  · have turned := turn t
    rw [broke] at turned
    cases turned with
    | failed standing place ran => exact .inr ⟨t, _, runs, first, standing, place, ran, rfl⟩

/-! Totals. -/

/-- The totals are the counts of the diagnostics, and the records add up to them. -/
structure Balanced (r : Run) : Prop where
  totals_eq : r.report.totals = Counts.of r.work.diagnostics
  records_sum (severity : Severity) : r.report.totals.get severity =
    (r.report.passes.map fun record => record.diagnostics.get severity).sum

theorem balanced_of_ofPasses (start : ofPasses p passes config = .ok r₀) : Balanced r₀ := by
  unfold ofPasses at start
  split at start
  · cases start
  · cases start
    exact ⟨rfl, fun severity => by cases severity <;> rfl⟩

theorem Balanced.turn {step : Step} (balanced : Balanced r)
    (appends : ∀ pass ∈ r.passes, pass.Appends) (result : runNext r = .ok step s) :
    Balanced s := by
  have turned := Run.turn r
  rw [result] at turned
  cases turned with
  | repeats => exact balanced
  | empty => exact ⟨balanced.totals_eq, balanced.records_sum⟩
  | @passed pass stats verdict w standing place ran =>
    refine ⟨rfl, fun severity => ?_⟩
    have before := balanced.records_sum severity
    rw [balanced.totals_eq, Counts.get_of] at before
    have longer : r.work.diagnostics.count severity ≤ w.diagnostics.count severity :=
      ((appends pass (List.mem_of_getElem? place)).checked ran).sublist.countP_le
    simp only [recorded, recordOf, List.map_append, List.map_cons, List.map_nil,
      List.sum_append, List.sum_cons, List.sum_nil, ← before, Counts.get_of, Counts.get_since]
    omega

theorem balanced_of_succeeds (start : ofPasses p passes config = .ok r₀)
    (appends : ∀ pass ∈ passes, pass.Appends) (succeeds : Succeeds r₀ r) : Balanced r := by
  induction succeeds with
  | start => exact balanced_of_ofPasses start
  | step before result balanced =>
    have orderly := orderly_of_follows start before.follows
    exact balanced.turn (by rwa [orderly.passes_eq]) result

/-- Over any passes that only add diagnostics, a run is orderly whatever is asked of it: it ends once
and for all, hands only a completed program to a back end, and can go on after a failure. Unless a
call has failed, its totals are balanced. -/
theorem orderly_after_calls (start : ofPasses p passes config = .ok r₀)
    (appends : ∀ pass ∈ passes, pass.Appends) (calls : List Call) :
    Orderly passes r₀ (r₀.after calls) ∧ Final (r₀.after calls) ∧ Gated (r₀.after calls) ∧
      Recoverable (r₀.after calls) ∧
      ((∀ made ∈ r₀.trace calls, ∃ answer, made.1 = .ok answer) → Balanced (r₀.after calls)) :=
  ⟨orderly_of_follows start (follows_after calls r₀), final _, gated _, recoverable _,
    fun clean => balanced_of_succeeds start appends (succeeds_after clean)⟩

end Run

/-! The standard passes. -/

theorem items_foldl_emit (found : List Check.Finding) (w : Workspace) : w.diagnostics.items <+:
    (found.foldl (fun w finding => w.emit finding.diagnostic) w).diagnostics.items := by
  induction found generalizing w with
  | nil => exact List.prefix_rfl
  | cons finding found ih =>
    exact List.IsPrefix.trans (List.prefix_append ..) (ih (w.emit finding.diagnostic))

theorem adds_bind (call : NodeId) (target : SymbolId) (w : Workspace) :
    Adds (Calls.bind call target) w := by
  unfold Calls.bind
  refine Ends.get_bind ?_
  cases w.program.setCallee call (some target) with
  | ok q => exact Ends.set List.prefix_rfl
  | error error => exact Ends.throw List.prefix_rfl

theorem adds_computeSite (stats : Calls.SiteStats) (call : NodeId) (w : Workspace) :
    Adds (Calls.computeSite stats call) w := by
  unfold Calls.computeSite
  refine Ends.get_bind ?_
  split
  · exact Ends.bind (adds_bind ..) fun _ _ longer => Ends.pure longer
  · split
    · exact Ends.bind (adds_bind ..) fun _ _ longer => Ends.pure longer
    · exact Ends.bind (Ends.set (Q := fun _ v => w.diagnostics.items <+: v.diagnostics.items)
        (List.prefix_append ..)) fun _ _ longer => Ends.pure longer
  · exact Ends.pure List.prefix_rfl

theorem adds_computeSites (w : Workspace) : Adds Calls.computeSites w := by
  let Longer (v : Workspace) : Prop := w.diagnostics.items <+: v.diagnostics.items
  unfold Calls.computeSites
  refine Ends.bind (Ends.modified (Q := fun _ => Longer) List.prefix_rfl) fun _ t start => ?_
  refine Ends.get_bind (Ends.foldlM (I := fun _ _ => Longer) start ?_)
  intro call rest stats u longer
  exact (adds_computeSite stats call u).mono (fun _ _ => longer.trans) fun _ => longer.trans

/-- So the standard passes may be run in any order and number. -/
theorem Pass.appends_of_standard {pass : Pass} (standard : pass ∈ Pass.standard) :
    pass.Appends := by
  have ofSuite (suite : Check.Suite) : (ofSuite suite).Appends := fun w => items_foldl_emit _ w
  have ofTransform (name : String) (transform : TransformM TransformResult) :
      (ofTransform name transform).Appends := by
    intro w
    unfold Adds Ends Pass.ofTransform
    dsimp only
    cases transform w.program <;> exact List.prefix_rfl
  have callSites : callSites.Appends := by
    intro w
    have adds := adds_computeSites w
    unfold Adds Ends at adds ⊢
    unfold Pass.callSites
    dsimp only
    cases result : Calls.computeSites w with
    | ok stats v =>
      rw [result] at adds
      exact adds
    | error error v =>
      rw [result] at adds
      exact adds
  simp only [Pass.standard, List.mem_cons, List.not_mem_nil, or_false] at standard
  rcases standard with rfl | rfl | rfl | rfl | rfl
  · exact ofSuite _
  · exact callSites
  · exact ofTransform _ _
  · exact ofSuite _
  · exact ofTransform _ _

/-- A pass that raises one diagnostic. -/
def Pass.raising (name : String) (severity : Severity) : Pass where
  name := name
  run := fun w => .ok []
    (w.emit { severity := severity, code := "", message := name, span := .nowhere })

theorem Pass.appends_raising (name : String) (severity : Severity) :
    (raising name severity).Appends :=
  fun w => show w.diagnostics.items <+: w.diagnostics.items ++ _ from List.prefix_append ..

/-- A warning lets the second pass run, whose error keeps the third from running. -/
def raisingPasses : List Pass := [.raising "hint" .warning, .raising "stop" .error, .flatten]

/-- A run of `raisingPasses` over nothing. -/
def raisingRun : Run := { passes := raisingPasses, work := { program := .empty }, config := {} }

theorem raisingRun_orderly :
    Run.ofPasses .empty raisingPasses {} = .ok raisingRun ∧
    (∀ pass ∈ raisingPasses, pass.Appends) ∧
    (raisingRun.after [.next, .withBackend .dump, .toEnd]).report.outcome = .aborted 1 "stop" ∧
    (raisingRun.after [.next, .withBackend .dump, .toEnd]).report.totals = ⟨0, 1, 1⟩ ∧
    Run.Orderly raisingPasses raisingRun
      (raisingRun.after [.next, .withBackend .dump, .toEnd]) := by
  have start : Run.ofPasses .empty raisingPasses {} = .ok raisingRun := rfl
  have appends : ∀ pass ∈ raisingPasses, pass.Appends := by
    simp only [raisingPasses, List.forall_mem_cons]
    exact ⟨Pass.appends_raising _ _, Pass.appends_raising _ _,
      Pass.appends_of_standard (by simp [Pass.standard]), nofun⟩
  exact ⟨start, appends, by decide, by decide, (Run.orderly_after_calls start appends _).1⟩

end MiddleEnd.Pipeline
