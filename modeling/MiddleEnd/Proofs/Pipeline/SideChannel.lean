import MiddleEnd.Proofs.Pipeline.Session

/-! Times, statistics and dumps are only put down: two runs that differ in what they are to record
give the same answers and are alike in everything else. -/

namespace MiddleEnd.Pipeline

open MiddleEnd.Outcome

/-- A dump is asked for after every pass, or after some and `pass` is one of these. -/
def Config.Asks (config : Config) (pass : String) : Prop :=
  config.dump = .every ∨ ∃ names, config.dump = .passes names ∧ pass ∈ names

theorem Config.dumpsAfter_iff {config : Config} {pass : String} :
    config.dumpsAfter pass = true ↔ config.Asks pass := by
  rw [Config.dumpsAfter, Config.Asks]
  cases config.dump <;> simp

/-- The record without what is only put down if it is asked for. -/
def PassRecord.bare (record : PassRecord) : PassRecord :=
  { record with micros := none, stats := none, dump := none }

def Report.bare (report : Report) : Report :=
  { report with passes := report.passes.map PassRecord.bare }

namespace Run

variable {α β : Type} {p : Program} {passes : List Pass} {config config' : Config}
  {r r' s s' t r₀ : Run}

/-! Two runs. -/

/-- The runs differ at most in what they are to record, and in what they have recorded for it. -/
structure Alike (r s : Run) : Prop where
  passes_eq : r.passes = s.passes
  next_eq : r.next = s.next
  work_eq : r.work = s.work
  verify_eq : r.config.verify = s.config.verify
  report_eq : r.report.bare = s.report.bare

namespace Alike

theorem outcome_eq (alike : Alike r s) : r.report.outcome = s.report.outcome := by
  show r.report.bare.outcome = s.report.bare.outcome
  rw [alike.report_eq]

/-- Alike runs stay so if the same is done to both. -/
theorem withOutcome (alike : Alike r s) (outcome : Outcome) :
    Alike { r with report := { r.report with outcome := outcome } }
      { s with report := { s.report with outcome := outcome } } where
  __ := alike
  report_eq := congrArg (fun report : Report => { report with outcome := outcome }) alike.report_eq

theorem withWork (alike : Alike r s) (w : Workspace) :
    Alike { r with work := w } { s with work := w } where
  __ := alike
  work_eq := rfl

theorem stepAfter_eq (alike : Alike r s) (pass : Pass) (verdict : Verdict) :
    r.stepAfter pass verdict = s.stepAfter pass verdict := by
  cases verdict with
  | abort => exact congrArg (Step.aborted · pass.name) alike.next_eq
  | proceed => simp only [stepAfter, alike.next_eq, alike.passes_eq]

theorem recorded (alike : Alike r s) (pass : Pass) (stats : Stats) (w : Workspace)
    (outcome : Outcome) :
    Alike (r.recorded pass stats w outcome) (s.recorded pass stats w outcome) where
  passes_eq := alike.passes_eq
  next_eq := congrArg (· + 1) alike.next_eq
  work_eq := rfl
  verify_eq := alike.verify_eq
  report_eq := by
    have before := congrArg Report.passes alike.report_eq
    simp only [Report.bare] at before
    simp only [Run.recorded, Report.bare, List.map_append, before, alike.work_eq]
    rfl

end Alike

/-- Both succeed with the same answer or fail for the same reason, and leave alike runs. -/
inductive Matching : EStateM.Result PipelineError Run α → EStateM.Result PipelineError Run α → Prop
    where
  | ok {a : α} {r s : Run} : Alike r s → Matching (.ok a r) (.ok a s)
  | error {error : PipelineError} {r s : Run} : Alike r s → Matching (.error error r) (.error error s)

theorem Matching.bind {m : RunM α} {f : α → RunM β} (first : Matching (m r) (m s))
    (rest : ∀ a r s, Alike r s → Matching (f a r) (f a s)) :
    Matching ((m >>= f) r) ((m >>= f) s) := by
  show Matching (EStateM.bind m f r) (EStateM.bind m f s)
  unfold EStateM.bind
  generalize m r = x, m s = y at first
  cases first with
  | ok alike => exact rest _ _ _ alike
  | error alike => exact .error alike

theorem Matching.map {m : RunM α} (f : α → β) (same : Matching (m r) (m s)) :
    Matching ((f <$> m) r) ((f <$> m) s) := by
  show Matching (EStateM.map f m r) (EStateM.map f m s)
  unfold EStateM.map
  generalize m r = x, m s = y at same
  cases same with
  | ok alike => exact .ok alike
  | error alike => exact .error alike

theorem runNext_matching (alike : Alike r s) : Matching (runNext r) (runNext s) := by
  have turned := turn r
  generalize runNext r = result at turned
  cases turned with
  | repeats standing ended =>
    rw [runNext_of_ended _ (alike.outcome_eq ▸ standing) ended]
    exact .ok alike
  | empty standing past =>
    rw [runNext_of_empty (alike.outcome_eq ▸ standing) (by rwa [← alike.passes_eq, ← alike.next_eq])]
    exact .ok (alike.withOutcome _)
  | failed standing place ran =>
    rw [runNext_of_place (alike.outcome_eq ▸ standing) (by rwa [← alike.passes_eq, ← alike.next_eq]),
      advance_eq (alike.outcome_eq ▸ standing), ← alike.verify_eq, ← alike.work_eq, ran]
    exact .error (alike.withWork _)
  | @passed pass stats verdict w standing place ran =>
    rw [runNext_of_place (alike.outcome_eq ▸ standing) (by rwa [← alike.passes_eq, ← alike.next_eq]),
      advance_eq (alike.outcome_eq ▸ standing), ← alike.verify_eq, ← alike.work_eq, ran]
    dsimp only
    rw [← alike.stepAfter_eq]
    exact .ok (alike.recorded ..)

theorem outcome_matching (alike : Alike r s) :
    Matching ((do pure (← get).outcome : RunM Outcome) r) ((do pure (← get).outcome : RunM Outcome) s) := by
  show Matching (.ok r.report.outcome r) (.ok s.report.outcome s)
  rw [alike.outcome_eq]
  exact .ok alike

theorem steps_matching (fuel : Nat) (alike : Alike r s) : Matching (steps fuel r) (steps fuel s) := by
  induction fuel generalizing r s with
  | zero => exact outcome_matching alike
  | succ fuel ih =>
    refine Matching.bind (runNext_matching alike) fun step r s alike => ?_
    cases step with
    | ran pass => exact ih alike
    | completed | aborted => exact outcome_matching alike

theorem toEnd_matching (alike : Alike r s) : Matching (toEnd r) (toEnd s) := by
  show Matching (steps (r.passes.length + 1) r) (steps (s.passes.length + 1) s)
  rw [← alike.passes_eq]
  exact steps_matching _ alike

theorem withBackend_matching (backend : Backend) (alike : Alike r s) :
    Matching (withBackend backend r) (withBackend backend s) := by
  rw [withBackend_eq, withBackend_eq]
  have ended := toEnd_matching alike
  generalize toEnd r = x, toEnd s = y at ended
  cases ended with
  | error alike => exact .error alike
  | @ok outcome r s alike =>
    cases outcome with
    | pending | aborted => exact .ok alike
    | completed =>
      dsimp only
      rw [← alike.work_eq]
      cases backend.generate r.work.program with
      | ok output => exact .ok alike
      | error message => exact .error alike

theorem perform_matching (call : Call) (alike : Alike r s) :
    Matching (call.perform r) (call.perform s) := by
  cases call with
  | next => exact (runNext_matching alike).map _
  | toEnd => exact (toEnd_matching alike).map _
  | withBackend backend => exact (withBackend_matching backend alike).map _

theorem trace_alike (calls : List Call) (alike : Alike r s) :
    List.Forall₂ (fun made made' => made.1 = made'.1 ∧ Alike made.2 made'.2) (r.trace calls)
      (s.trace calls) := by
  induction calls generalizing r s with
  | nil => exact .nil
  | cons call calls ih =>
    have matching := perform_matching call alike
    unfold trace
    generalize call.perform r = x, call.perform s = y at matching
    cases matching with
    | ok alike => exact .cons ⟨rfl, alike⟩ (ih alike)
    | error alike => exact .cons ⟨rfl, alike⟩ (ih alike)

theorem alike_of_ofPasses (start : ofPasses p passes config = .ok r)
    (start' : ofPasses p passes config' = .ok s) (verify : config.verify = config'.verify) :
    Alike r s := by
  unfold ofPasses at start start'
  split at start
  · cases start
  · split at start'
    · cases start'
    · cases start
      cases start'
      exact ⟨rfl, rfl, rfl, verify, rfl⟩

/-! What is put down. -/

/-- The record holds what is asked for, of a pass that has left this program. -/
structure AsAsked (config : Config) (record : PassRecord) (p : Program) : Prop where
  dumped : config.Asks record.pass → record.dump = some p.dump
  undumped : ¬ config.Asks record.pass → record.dump = none
  micros : record.micros.isSome = config.timing
  stats : record.stats.isSome = config.stats

theorem asAsked_recordOf (name : String) (before : Counts) (stats : Stats) (w : Workspace) :
    AsAsked config (recordOf config name before stats w) w.program where
  dumped asks := if_pos (Config.dumpsAfter_iff.mpr asks)
  undumped silent := if_neg fun dumps => silent (Config.dumpsAfter_iff.mp dumps)
  micros := by
    cases asked : config.timing <;> simp [recordOf, asked]
  stats := by
    cases asked : config.stats <;> simp [recordOf, asked]

/-- Each record was put down by a turn, about the program that this turn has left. -/
def Instrumented (config : Config) (r₀ r : Run) : Prop :=
  ∀ k record, r.report.passes[k]? = some record → ∃ s step t, Follows r₀ s ∧ s.next = k ∧
    runNext s = .ok step t ∧ t.next = k + 1 ∧ t.report.passes = s.report.passes ++ [record] ∧
    Follows t r ∧ AsAsked config record t.work.program

theorem config_turn (r : Run) : (left (runNext r)).config = r.config := by
  have turned := turn r
  generalize runNext r = result at turned
  cases turned <;> rfl

theorem config_of_follows (follows : Follows r₀ r) : r.config = r₀.config := by
  induction follows with
  | start => rfl
  | @step s _ _ _ result same | @failed s _ _ _ result same =>
    have turned := config_turn s
    rw [result] at turned
    exact turned.trans same

theorem config_of_ofPasses (start : ofPasses p passes config = .ok r₀) : r₀.config = config := by
  unfold ofPasses at start
  split at start
  · cases start
  · cases start
    rfl

theorem Instrumented.later (instrumented : Instrumented config r₀ r) (follows : Follows r s)
    (same : s.report.passes = r.report.passes) : Instrumented config r₀ s := by
  intro k record listed
  rw [same] at listed
  obtain ⟨t, step, u, before, next, turns, taken, added, after, asked⟩ :=
    instrumented k record listed
  exact ⟨t, step, u, before, next, turns, taken, added, after.trans follows, asked⟩

/-- A record stands where its pass does. -/
theorem Orderly.length_records (orderly : Orderly passes r₀ r) :
    r.report.passes.length = r.next := by
  have named := congrArg List.length (orderly.records.trans orderly.passesRun_eq)
  simpa [orderly.next_le] using named

theorem Instrumented.turn (instrumented : Instrumented config r₀ r) (follows : Follows r₀ r)
    (orderly : Orderly passes r₀ r) (same : r.config = config) :
    Instrumented config r₀ (left (runNext r)) := by
  have turned := Run.turn r
  generalize turns : runNext r = result at turned
  cases turned with
  | repeats => exact instrumented
  | empty => exact instrumented.later (Follows.start.step turns) rfl
  | failed => exact instrumented.later (Follows.start.failed turns) rfl
  | @passed pass stats verdict w standing place ran =>
    intro k record listed
    rw [left] at listed ⊢
    simp only [recorded] at listed
    rw [List.getElem?_append] at listed
    split at listed
    · obtain ⟨t, step, u, before, next, turns', taken, added, after, asked⟩ :=
        instrumented k record listed
      exact ⟨t, step, u, before, next, turns', taken, added, after.step turns, asked⟩
    · rename_i beyond
      obtain ⟨last, rfl⟩ := List.getElem?_eq_some_iff.mp listed
      have here : k = r.next := by
        rw [← orderly.length_records]
        rw [List.length_singleton] at last
        omega
      rw [List.getElem_singleton, ← same]
      subst here
      exact ⟨r, _, _, follows, rfl, turns, rfl, rfl, .start, asAsked_recordOf ..⟩

theorem instrumented_of_follows (start : ofPasses p passes config = .ok r₀)
    (follows : Follows r₀ r) : Instrumented config r₀ r := by
  induction follows with
  | start =>
    unfold ofPasses at start
    split at start
    · cases start
    · cases start
      exact nofun
  | @step s _ _ before result instrumented | @failed s _ _ before result instrumented =>
    have turned := instrumented.turn before (orderly_of_follows start before)
      ((config_of_follows before).trans (config_of_ofPasses start))
    rwa [result] at turned

theorem follows_of_trace {calls : List Call} {made : Except PipelineError Answer × Run}
    (member : made ∈ r.trace calls) : Follows r made.2 := by
  induction calls generalizing r with
  | nil => cases member
  | cons call calls ih =>
    have first := follows_perform call r
    unfold trace at member
    cases result : call.perform r with
    | ok answer s | error error s =>
      rw [result] at first member
      rcases List.mem_cons.mp member with rfl | later
      · exact first
      · exact first.trans (ih later)

/-- Two runs of the same passes that verify alike give the same answers, call by call, and are alike
after each call. What else is put down is what each of them was asked for. -/
theorem alike_after_calls (start : ofPasses p passes config = .ok r)
    (start' : ofPasses p passes config' = .ok r') (verify : config.verify = config'.verify)
    (calls : List Call) :
    List.Forall₂ (fun made made' => made.1 = made'.1 ∧ Alike made.2 made'.2) (r.trace calls)
      (r'.trace calls) ∧
    (∀ made ∈ r.trace calls, Instrumented config r made.2) ∧
    ∀ made ∈ r'.trace calls, Instrumented config' r' made.2 :=
  ⟨trace_alike calls (alike_of_ofPasses start start' verify),
    fun _ member => instrumented_of_follows start (follows_of_trace member),
    fun _ member => instrumented_of_follows start' (follows_of_trace member)⟩

end Run

/-- A run of `raisingPasses` over nothing that puts down all it can. -/
def loudRun : Run :=
  { raisingRun with config := { timing := true, stats := true, dump := .every } }

theorem loudRun_alike :
    Run.ofPasses .empty raisingPasses {} = .ok raisingRun ∧
    Run.ofPasses .empty raisingPasses loudRun.config = .ok loudRun ∧
    (loudRun.after [.next, .toEnd]).report ≠ (raisingRun.after [.next, .toEnd]).report ∧
    List.Forall₂ (fun made made' => made.1 = made'.1 ∧ Run.Alike made.2 made'.2)
      (raisingRun.trace [.next, .toEnd]) (loudRun.trace [.next, .toEnd]) := by
  have quiet : Run.ofPasses .empty raisingPasses {} = .ok raisingRun := rfl
  have loud : Run.ofPasses .empty raisingPasses loudRun.config = .ok loudRun := rfl
  exact ⟨quiet, loud, by decide +kernel, (Run.alike_after_calls quiet loud rfl _).1⟩

end MiddleEnd.Pipeline
