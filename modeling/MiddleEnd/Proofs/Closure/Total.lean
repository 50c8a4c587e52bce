import MiddleEnd.Proofs.Closure.Demanded
import MiddleEnd.Proofs.Closure.Flat

/-! Closure conversion succeeds where every call has a target: the callers have what they must pass
on, and the arena refuses no edit. -/

namespace MiddleEnd

open Outcome

namespace Closure

open Program TransformM

variable {p : Program}

/-! Every call can be planned. -/

/-- A call of a nested function stands where that function is visible, which is inside the function
that declares what it captures. So the caller is that function, or it captures the variable too. -/
theorem exists_supplier (settled : p.Settled) (lexical : p.Lexical) {call : NodeId}
    {callee var : SymbolId} (reached : p.Reached call) (target : p.callee? call = some callee)
    (captured : var ∈ (Captures.compute p (.build p)).of callee) :
    ∃ caller, p.enclosingFn? call = some caller ∧ (p.declaringFn? var = some caller ∨
      var ∈ (Captures.compute p (.build p)).of caller) := by
  have listed := Captures.registered_of_capturing (Captures.mem_capturing captured)
  obtain ⟨d, placed⟩ := settled.placed_of_registered listed
  have outer := Captures.isOuterVar_of_mem captured
  rw [isOuterVar, Bool.and_eq_true] at outer
  obtain ⟨value, around⟩ := outer
  cases declared : p.declaringFn? var with
  | none => simp [declared] at around
  | some owner =>
  simp only [declared, Bool.and_eq_true, List.contains_iff_mem] at around
  have isCall : (p.kind call).isCall = true := by
    cases kind : p.kind call <;> simp_all [callee?, NodeKind.callee?, NodeKind.isCall]
  -- The definition of the owner is around that of the callee, and so around the call.
  obtain ⟨e, placedE, aboveD, differentD⟩ := settled.sound.mem_lexicalAncestors placed around.2
  have above : p.Above e call := by
    rcases lexical.callee reached target with ⟨d', b, _, defines, link, above⟩ | ⟨_, outermost⟩
    · cases settled.sound.bound_unique defines placed.2.2
      exact (aboveD.owner_of_ne link differentD).trans above
    · rw [settled.sound.lexicalAncestors_eq placed, outermost] at around
      cases around.2
  have fnDef := placedE.2.1
  have different : e ≠ call := by
    rintro rfl
    cases kind : p.kind e <;> simp [kind, NodeKind.isCall, NodeKind.isFnDef] at isCall fnDef
  rcases settled.sound.scope_cases reached with ⟨m, _, _, plain⟩ | ⟨c, caller, scope, inner⟩
  · rw [plain e above different] at fnDef
    cases fnDef
  have fn := settled.isFn_of_fnDef (settled.sound.live_of_reached inner.reached) inner.fnDef
    inner.defines
  refine ⟨caller, ?_, ?_⟩
  · rw [enclosingFn?, show (p.node call).scope = some caller from scope]
    simp [fn]
  · rcases settled.lexical_of_above reached scope fn placedE above different with rfl | further
    · exact .inl rfl
    · by_cases same : owner = caller
      · exact .inl (congrArg some same)
      · have outerHere : p.isOuterVar var caller = true := by
          simp [isOuterVar, value, declared, same, further]
        have calls : CallsTo p caller callee :=
          ⟨call, settled.sound.exact.mem_calls.mpr ⟨reached, isCall⟩, ⟨reached, c, inner⟩, target⟩
        exact .inr (Captures.mem_of_demanded settled.toTidy (.passed outerHere calls
          (Captures.demanded_of_mem settled.toTidy listed captured))).2

theorem planActual_total {captures : Captures} {call : NodeId} {callee var caller : SymbolId}
    (around : p.enclosingFn? call = some caller)
    (source : p.declaringFn? var = some caller ∨ var ∈ captures.of caller) :
    ∃ actual, planActual p captures call callee var = .ok actual := by
  rw [planActual, around]
  simp only
  split
  · split
    · exact ⟨_, rfl⟩
    · split <;> exact ⟨_, rfl⟩
  · rename_i elsewhere
    rw [if_pos (List.contains_iff_mem.mpr (source.resolve_left elsewhere))]
    exact ⟨_, rfl⟩

theorem planCalls_total (settled : p.Settled) (lexical : p.Lexical) :
    ∃ plans, planCalls p (.compute p (.build p)) = .ok plans := by
  have one (callee : SymbolId) :
      ∃ plans, planCallsOf p (.compute p (.build p)) callee = .ok plans := by
    refine exists_mapM_eq_ok fun call listed => ?_
    obtain ⟨reached, target⟩ := settled.callers (mem_callsOf.mp listed)
    have each (var : SymbolId) (captured : var ∈ (Captures.compute p (.build p)).of callee) :
        ∃ actual, planActual p (.compute p (.build p)) call callee var = .ok actual := by
      obtain ⟨caller, around, source⟩ := exists_supplier settled lexical reached target captured
      exact planActual_total around source
    obtain ⟨actuals, supplied⟩ := exists_mapM_eq_ok each
    exact ⟨⟨call, actuals⟩, bind_eq_ok_iff.mpr ⟨actuals, supplied, rfl⟩⟩
  obtain ⟨lists, planned⟩ := exists_mapM_eq_ok fun callee
    (_ : callee ∈ (Captures.compute p (.build p)).capturing) => one callee
  exact ⟨lists.flatten, bind_eq_ok_iff.mpr ⟨lists, planned, rfl⟩⟩

/-! Errors after the planning are refused edits. -/

/-- The arena has refused an edit. -/
def IsRefusal (error : TransformError) : Prop := ∃ refusal, error = .edit refusal

theorem throws_build {α : Type} (f : Program → α × Program) : Throws IsRefusal (build f) := ⟨nofun⟩

theorem throws_edit (f : Program → Except EditError Program) : Throws IsRefusal (edit f) := by
  refine Throws.get.bind fun p => ?_
  split
  · exact ⟨nofun⟩
  · exact .throw ⟨_, rfl⟩

theorem supplyTemp_throws (anchor : NodeId) (ty : Ty) (init : NodeId) (span : Span) :
    Throws IsRefusal (supplyTemp anchor ty init span) :=
  (throws_build _).bind fun _ => (throws_build _).bind fun _ => (throws_edit _).bind fun _ =>
    throws_build _

theorem supply_throws (anchor : NodeId) (span : Span) (actual : Actual) :
    Throws IsRefusal (supply anchor span actual) := by
  cases actual with
  | direct v => exact (throws_build _).bind fun _ => .pure _
  | addressOf v =>
    exact Throws.get.bind fun _ => (throws_build _).bind fun _ => (throws_build _).bind fun _ =>
      (supplyTemp_throws ..).bind fun _ => .pure _
  | copy v =>
    exact Throws.get.bind fun _ => (throws_build _).bind fun _ =>
      (supplyTemp_throws ..).bind fun _ => .pure _

theorem extendCall_throws (plan : CallPlan) : Throws IsRefusal (extendCall plan) := by
  refine Throws.get.bind fun p => ?_
  split
  · exact .throw ⟨_, rfl⟩
  · refine Throws.bind (.mapM (fun actual => ?_) _) fun _ => .pure _
    exact (supply_throws ..).bind fun _ => (throws_edit _).bind fun _ => .pure _

theorem throughRef_throws (f : SymbolId) (ref : NodeId) (formal : SymbolId) :
    Throws IsRefusal (throughRef f ref formal) := by
  refine Throws.get.bind fun p => (throws_build _).bind fun formalRef => ?_
  split
  · exact throws_edit _
  · exact (throws_build _).bind fun _ => throws_edit _
  · refine (throws_build _).bind fun _ => Throws.get.bind fun p => ?_
    simp only
    split
    · exact throws_edit _
    · exact (throws_build _).bind fun _ => (throws_build _).bind fun _ =>
        (throws_edit _).bind fun _ => (throws_build _).bind fun _ => throws_edit _

theorem redirect_throws (f formal : SymbolId) (asItIs : NodeId → Bool) (ref : NodeId) :
    Throws IsRefusal (redirect f formal asItIs ref) := by
  refine Throws.get.bind fun p => ?_
  split
  · split
    · exact throws_edit _
    · exact throughRef_throws ..
  · exact .pure _

theorem captureVar_throws (f : SymbolId) (fnDef : NodeId) (passedOn : List NodeId)
    (var : SymbolId) : Throws IsRefusal (captureVar f fnDef passedOn var) :=
  Throws.get.bind fun _ => (throws_build _).bind fun _ => (throws_build _).bind fun _ =>
    (throws_edit _).bind fun _ => (Throws.modified _).bind fun _ =>
      Throws.get.bind fun _ => .forM (redirect_throws _ _ _) _

theorem passCaptures_throws (captures : Captures) (plans : List CallPlan) :
    Throws IsRefusal (passCaptures captures plans) := by
  refine Throws.bind (.mapM extendCall_throws _) fun passedOn => .forM (fun f => ?_) _
  refine Throws.get.bind fun p => ?_
  split
  · exact .pure _
  · exact .forM (captureVar_throws _ _ _) _

theorem moveBefore_throws (anchor node : NodeId) : Throws IsRefusal (moveBefore anchor node) :=
  (throws_edit _).bind fun _ => throws_edit _

theorem relocate_throws (m : Move) : Throws IsRefusal (relocate m) := by
  refine (moveBefore_throws ..).bind fun _ => (Throws.modified _).bind fun _ =>
    Throws.get.bind fun p => ?_
  split
  · exact .pure _
  · exact Throws.bind (.forM (moveBefore_throws _) _) fun _ => .pure _

/-- A program that closure conversion turns down is left as it is, whatever it looks like. -/
theorem eq_of_flatten_refused {q : Program} {error : FlattenError}
    (fails : flatten p = .error (.flatten error) q) : q = p := by
  rw [flatten, run_get_bind] at fails
  cases unresolved : unresolvedCall? p with
  | some _ =>
    simp only [unresolved] at fails
    cases fails
    rfl
  | none =>
    simp only [unresolved] at fails
    split at fails
    · cases fails
    · cases planned : planCalls p (.compute p (.build p)) with
      | error _ =>
        simp only [planned] at fails
        cases fails
        rfl
      | ok plans =>
        simp only [planned] at fails
        obtain ⟨_, same⟩ := Throws.error (T := IsRefusal)
          ((passCaptures_throws ..).bind fun _ => Throws.get.bind fun _ =>
            Throws.bind (.mapM relocate_throws _) fun _ => .pure _) fails
        cases same

/-- Where every call has a target, the program is not turned down. -/
theorem not_refused (settled : p.Settled) (lexical : p.Lexical)
    (resolved : ∀ call ∈ p.registries.calls, (p.callee? call).isSome = true) : ¬ Refused p := by
  rintro (unresolved | ⟨error, refused⟩)
  · exact unresolved (unresolvedCall?_eq_none_iff.mpr fun call listed _ => resolved call listed)
  · obtain ⟨plans, planned⟩ := planCalls_total settled lexical
    cases refused.symm.trans planned

/-- Where every call has a target, closure conversion succeeds: every caller declares or captures what
it must pass on, and the arena refuses none of the edits. From whatever program, an error of its own
leaves that program as it is. -/
theorem flatten_total (linked : Linked p)
    (resolved : ∀ call ∈ p.registries.calls, (p.callee? call).isSome = true) :
    (∃ result q, flatten p = .ok result q) ∧
    (∀ call ∈ p.registries.calls, ∀ callee, p.callee? call = some callee →
      ∀ var ∈ (Captures.compute p (.build p)).of callee,
        ∃ caller, p.enclosingFn? call = some caller ∧ (p.declaringFn? var = some caller ∨
          var ∈ (Captures.compute p (.build p)).of caller)) ∧
    ∀ (r q : Program) (error : FlattenError), flatten r = .error (.flatten error) q → q = r := by
  have settled := linked.settled
  refine ⟨?_, fun call listed callee target var captured => ?_, fun r q error => eq_of_flatten_refused⟩
  · have certain := not_refused settled linked.lexical resolved
    obtain ⟨result, q, done, _⟩ := Ends.exists_ok ((flatten_converts settled linked.lexical).mono
      (fun _ _ => id) fun _ refused => certain refused.2)
    exact ⟨result, q, done⟩
  · have reached := (settled.sound.exact.mem_calls.mp listed).1
    exact exists_supplier settled linked.lexical reached target captured

/-- `relay` and `store` in `nestedLinked` capture the formal of `outer`, and get it passed. -/
theorem nestedLinked_flattens : Linked Surface.nestedLinked ∧
    (∀ call ∈ Surface.nestedLinked.registries.calls,
      (Surface.nestedLinked.callee? call).isSome = true) ∧
    ∃ result q, flatten Surface.nestedLinked = .ok result q := by
  have linked := Surface.nestedLinked_linked
  have resolved : ∀ call ∈ Surface.nestedLinked.registries.calls,
      (Surface.nestedLinked.callee? call).isSome = true := by decide +kernel
  exact ⟨linked, resolved, (flatten_total linked resolved).1⟩

end Closure

end MiddleEnd
