import MiddleEnd.Proofs.Pipeline.Verified

/-! What one turn of a run can do, and what the calls on a run do turn by turn. Everything that is
proved of a run of passes goes through the cases of `Turn`. -/

namespace MiddleEnd

namespace Diagnostics

/-- Nothing but warnings. -/
def Quiet (ds : Diagnostics) : Prop := ∀ d ∈ ds.items, d.severity = .warning

/-- A fatal error or an error. -/
def Faulty (ds : Diagnostics) : Prop := ∃ d ∈ ds.items, d.severity = .fatal ∨ d.severity = .error

theorem shouldAbort_eq_true_iff {ds : Diagnostics} : ds.shouldAbort = true ↔ ds.Faulty := by
  have stops (s : Severity) : (s != .warning) = true ↔ s = .fatal ∨ s = .error := by
    cases s <;> decide
  simp [shouldAbort, Faulty, stops]

theorem shouldAbort_eq_false_iff {ds : Diagnostics} : ds.shouldAbort = false ↔ ds.Quiet := by
  simp [shouldAbort, Quiet]

end Diagnostics

namespace Pipeline

open MiddleEnd.Outcome

/-- Runs the pass under its name, and the checkpoint after it. -/
def Pass.checked (pass : Pass) (verifies : Bool) : PassM (Stats × Verdict) := fun w =>
  match pass.runNamed w with
  | .error error v => .error error v
  | .ok stats v =>
    match checkpoint pass.name v verifies with
    | .error error => .error error v
    | .ok verdict => .ok (stats, verdict) v

/-- A verdict depends on the diagnostics only. -/
theorem shouldAbort_of_checked {pass : Pass} {verifies : Bool} {w v : Workspace} {stats : Stats}
    {verdict : Verdict} (ran : pass.checked verifies w = .ok (stats, verdict) v) :
    v.diagnostics.shouldAbort = (verdict == .abort) := by
  unfold Pass.checked at ran
  cases result : pass.runNamed w with
  | error error v => simp [result] at ran
  | ok stats v =>
    simp only [result] at ran
    unfold checkpoint at ran
    dsimp only at ran
    generalize (if verifies then v.program.verify else []) = violations at ran
    cases violations with
    | cons violation violations => simp at ran
    | nil =>
      cases stops : v.diagnostics.shouldAbort <;> simp [stops] at ran <;>
        obtain ⟨⟨-, rfl⟩, rfl⟩ := ran <;> simp [stops]

/-- How things stand after a step. -/
def Step.outcome : Step → Outcome
  | ran _ => .pending
  | completed => .completed
  | aborted index pass => .aborted index pass

theorem Step.outcome_inj {step other : Step} (same : step.outcome = other.outcome)
    (ended : other.outcome ≠ .pending) : step = other := by
  cases step <;> cases other <;> simp_all [outcome]

theorem Step.exists_ran {step : Step} (pending : step.outcome = .pending) :
    ∃ pass, step = .ran pass := by
  cases step with
  | ran pass => exact ⟨pass, rfl⟩
  | completed | aborted => cases pending

namespace Run

variable {r s t : Run}

/-- What a step comes to that has passed its checkpoint. -/
def stepAfter (r : Run) (pass : Pass) : Verdict → Step
  | .abort => .aborted r.next pass.name
  | .proceed => if r.next + 1 = r.passes.length then .completed else .ran pass.name

/-- The run once the pass is on record. -/
def recorded (r : Run) (pass : Pass) (stats : Stats) (w : Workspace) (outcome : Outcome) : Run :=
  { r with
    next := r.next + 1
    work := w
    report :=
      { passes := r.report.passes ++
          [recordOf r.config pass.name (Counts.of r.work.diagnostics) stats w]
        outcome := outcome
        totals := Counts.of w.diagnostics } }

/-- What a turn of a run can come to. -/
inductive Turn (r : Run) : EStateM.Result PipelineError Run Step → Prop where
  /-- The run has ended before. -/
  | repeats {step : Step} : r.report.outcome = step.outcome → step.outcome ≠ .pending →
      Turn r (.ok step r)
  /-- There is no pass left, and there never was one. -/
  | empty : r.report.outcome = .pending → r.passes.length ≤ r.next →
      Turn r (.ok .completed { r with report := { r.report with outcome := .completed } })
  /-- The pass or the checkpoint after it fails. -/
  | failed {pass : Pass} {error : PipelineError} {w : Workspace} : r.report.outcome = .pending →
      r.passes[r.next]? = some pass → pass.checked r.config.verify r.work = .error error w →
      Turn r (.error error { r with work := w })
  | passed {pass : Pass} {stats : Stats} {verdict : Verdict} {w : Workspace} :
      r.report.outcome = .pending → r.passes[r.next]? = some pass →
      pass.checked r.config.verify r.work = .ok (stats, verdict) w →
      Turn r (.ok (r.stepAfter pass verdict)
        (r.recorded pass stats w (r.stepAfter pass verdict).outcome))

theorem advance_eq (pending : r.report.outcome = .pending) (pass : Pass) :
    advance pass r =
      match pass.checked r.config.verify r.work with
      | .error error w => .error error { r with work := w }
      | .ok (stats, verdict) w => .ok (r.stepAfter pass verdict)
          (r.recorded pass stats w (r.stepAfter pass verdict).outcome) := by
  show EStateM.bind (runPass pass) _ r = _
  unfold EStateM.bind runPass Pass.checked Pass.runNamed
  dsimp only
  cases pass.run _ with
  | error error w => rfl
  | ok stats w =>
    show (match checkpoint pass.name w r.config.verify with
      | .error error => throw error
      | .ok verdict => _ : RunM Step) { r with work := w } = _
    dsimp only
    cases checkpoint pass.name w r.config.verify with
    | error error => rfl
    | ok verdict =>
      cases verdict with
      | abort => rfl
      | proceed =>
        by_cases last : r.next + 1 = r.passes.length
        · simp only [stepAfter, if_pos last]
          rfl
        · simp only [stepAfter, if_neg last, Step.outcome, recorded, ← pending]
          rfl

theorem get_bind {α : Type} (next : Run → RunM α) (r : Run) : (get >>= next) r = next r r := rfl

theorem runNext_of_ended (step : Step) (standing : r.report.outcome = step.outcome)
    (ended : step.outcome ≠ .pending) : runNext r = .ok step r := by
  rw [runNext, get_bind, standing]
  cases step with
  | ran => exact absurd rfl ended
  | completed | aborted => rfl

theorem runNext_of_empty (standing : r.report.outcome = .pending)
    (past : r.passes.length ≤ r.next) :
    runNext r = .ok .completed { r with report := { r.report with outcome := .completed } } := by
  rw [runNext, get_bind, standing, List.getElem?_eq_none past]
  rfl

theorem runNext_of_place {pass : Pass} (standing : r.report.outcome = .pending)
    (place : r.passes[r.next]? = some pass) : runNext r = advance pass r := by
  rw [runNext, get_bind, standing, place]

/-- The cases are all that a turn can come to. -/
theorem turn (r : Run) : Turn r (runNext r) := by
  cases standing : r.report.outcome with
  | completed =>
    rw [runNext_of_ended .completed standing nofun]
    exact .repeats standing nofun
  | aborted index pass =>
    rw [runNext_of_ended (.aborted index pass) standing nofun]
    exact .repeats standing nofun
  | pending =>
    cases place : r.passes[r.next]? with
    | none =>
      have past := List.getElem?_eq_none_iff.mp place
      rw [runNext_of_empty standing past]
      exact .empty standing past
    | some pass =>
      rw [runNext_of_place standing place, advance_eq standing]
      cases ran : pass.checked r.config.verify r.work with
      | error error w => exact .failed standing place ran
      | ok answer w => exact .passed standing place ran

/-- Which verdict a step comes from. -/
theorem stepAfter_spec (r : Run) (pass : Pass) (verdict : Verdict) :
    match r.stepAfter pass verdict with
    | .ran name => verdict = .proceed ∧ r.next + 1 ≠ r.passes.length ∧ name = pass.name
    | .completed => verdict = .proceed ∧ r.next + 1 = r.passes.length
    | .aborted index name => verdict = .abort ∧ index = r.next ∧ name = pass.name := by
  cases verdict with
  | abort => exact ⟨rfl, rfl, rfl⟩
  | proceed =>
    by_cases last : r.next + 1 = r.passes.length
    · simp [stepAfter, last]
    · simp [stepAfter, last]

/-- What a turn leaves has the outcome of its step. -/
theorem outcome_of_turn {step : Step} (result : runNext r = .ok step s) :
    s.report.outcome = step.outcome := by
  have turned := turn r
  rw [result] at turned
  cases turned with
  | repeats standing => exact standing
  | empty | passed => rfl

/-- A turn that leaves passes to run has taken one. -/
theorem next_of_ran {pass : String} (result : runNext r = .ok (.ran pass) s) :
    s.next = r.next + 1 ∧ s.next < s.passes.length ∧ s.passes = r.passes := by
  have turned := turn r
  rw [result] at turned
  generalize answer : Step.ran pass = step at turned
  cases turned with
  | repeats _ ended => exact absurd (by rw [← answer]; rfl) ended
  | empty => cases answer
  | @passed pass stats verdict w _ place =>
    have inside := (List.getElem?_eq_some_iff.mp place).1
    have came := stepAfter_spec r pass verdict
    rw [← answer] at came
    exact ⟨rfl, Nat.lt_of_le_of_ne inside came.2.1, rfl⟩

/-! Turn by turn. -/

/-- The run gets to `s` by turns that leave passes to run. -/
inductive Runs (r : Run) : Run → Prop where
  | start : Runs r r
  | ran {s t : Run} {pass : String} : Runs r s → runNext s = .ok (.ran pass) t → Runs r t

/-- The run gets to `s` by turns that succeed. -/
inductive Succeeds (r : Run) : Run → Prop where
  | start : Succeeds r r
  | step {s t : Run} {step : Step} : Succeeds r s → runNext s = .ok step t → Succeeds r t

theorem Runs.succeeds (runs : Runs r s) : Succeeds r s := by
  induction runs with
  | start => exact .start
  | ran _ result before => exact before.step result

theorem Succeeds.follows (succeeds : Succeeds r s) : Follows r s := by
  induction succeeds with
  | start => exact .start
  | step _ result before => exact before.step result

theorem Succeeds.trans (first : Succeeds r s) (second : Succeeds s t) : Succeeds r t := by
  induction second with
  | start => exact first
  | step _ result before => exact before.step result

theorem Follows.trans (first : Follows r s) (second : Follows s t) : Follows r t := by
  induction second with
  | start => exact first
  | step _ result before => exact before.step result
  | failed _ result before => exact before.failed result

/-- What turns one after another come to until one of them ends the run. -/
def Ended (r : Run) (result : EStateM.Result PipelineError Run Outcome) : Prop :=
  match result with
  | .ok outcome t => ∃ s step, Runs r s ∧ runNext s = .ok step t ∧ step.outcome ≠ .pending ∧
      outcome = step.outcome
  | .error error t => ∃ s, Runs r s ∧ runNext s = .error error t

theorem Ended.of_ran {pass : String} {result : EStateM.Result PipelineError Run Outcome}
    (first : runNext r = .ok (.ran pass) s) (ended : Ended s result) : Ended r result := by
  have longer {t : Run} (runs : Runs s t) : Runs r t := by
    induction runs with
    | start => exact Runs.start.ran first
    | ran _ result before => exact before.ran result
  cases result with
  | ok outcome t =>
    obtain ⟨u, step, runs, rest⟩ := ended
    exact ⟨u, step, longer runs, rest⟩
  | error error t =>
    obtain ⟨u, runs, rest⟩ := ended
    exact ⟨u, longer runs, rest⟩

theorem ended_of_first {fuel : Nat}
    (rest : ∀ pass s, runNext r = .ok (.ran pass) s → Ended s (steps fuel s)) :
    Ended r (steps (fuel + 1) r) := by
  show Ended r (EStateM.bind runNext _ r)
  unfold EStateM.bind
  cases result : runNext r with
  | error error t => exact ⟨r, .start, result⟩
  | ok step t =>
    have outcome := outcome_of_turn result
    cases step with
    | ran pass => exact (rest pass t result).of_ran result
    | completed | aborted => exact ⟨r, _, .start, result, nofun, outcome⟩

/-- With a turn more than there are passes left, the run ends. -/
theorem ended_of_steps (fuel : Nat) (enough : r.passes.length ≤ fuel + r.next) :
    Ended r (steps (fuel + 1) r) := by
  induction fuel generalizing r with
  | zero =>
    refine ended_of_first fun pass s result => ?_
    obtain ⟨next, inside, passes⟩ := next_of_ran result
    rw [passes] at inside
    omega
  | succ fuel ih =>
    refine ended_of_first fun pass s result => ih ?_
    obtain ⟨next, -, passes⟩ := next_of_ran result
    rw [passes]
    omega

theorem ended_of_toEnd (r : Run) : Ended r (toEnd r) :=
  ended_of_steps r.passes.length (Nat.le_add_right ..)

end Run

end Pipeline

end MiddleEnd
