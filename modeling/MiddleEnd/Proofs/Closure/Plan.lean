import MiddleEnd.Proofs.Closure.Flatten

namespace MiddleEnd

open Outcome

namespace Closure

open Program

variable {p : Program} {pending : NodeId → SymbolId → SymbolId → Prop} {captures : Captures}

/-- The four ways to plan an actual. -/
theorem planActual_cases {call : NodeId} {callee var : SymbolId} {actual : Actual}
    (result : planActual p captures call callee var = .ok actual) :
    ∃ caller, p.enclosingFn? call = some caller ∧
      (p.declaringFn? var = some caller ∧
          (isIteratorHelper p callee = true ∧ actual = .direct var ∨
            isIteratorHelper p callee = false ∧ (p.symbol var).ty.hasRefForm = true ∧
              actual = .addressOf var ∨
            isIteratorHelper p callee = false ∧ (p.symbol var).ty.hasRefForm = false ∧
              actual = .copy var) ∨
        p.declaringFn? var ≠ some caller ∧ var ∈ captures.of caller ∧ actual = .direct var) := by
  unfold planActual at result
  cases around : p.enclosingFn? call with
  | none =>
    rw [around] at result
    cases result
  | some caller =>
    simp only [around] at result
    refine ⟨caller, rfl, ?_⟩
    by_cases declared : p.declaringFn? var = some caller
    · rw [if_pos declared] at result
      refine .inl ⟨declared, ?_⟩
      split at result
      · rename_i helper
        cases result
        exact .inl ⟨helper, rfl⟩
      · rename_i helper
        split at result <;> rename_i form <;> cases result
        · exact .inr (.inl ⟨Bool.eq_false_iff.mpr helper, form, rfl⟩)
        · exact .inr (.inr ⟨Bool.eq_false_iff.mpr helper, Bool.eq_false_iff.mpr form, rfl⟩)
    · rw [if_neg declared] at result
      split at result
      · rename_i captured
        cases result
        exact .inr ⟨declared, List.contains_iff_mem.mp captured, rfl⟩
      · cases result

/-- An actual is planned in a function that declares the variable or captures it itself. -/
theorem planActual_eq_ok {call : NodeId} {callee var : SymbolId} {actual : Actual}
    (result : planActual p captures call callee var = .ok actual) :
    actual.var = var ∧ ∃ caller, p.enclosingFn? call = some caller ∧
      (p.declaringFn? var = some caller ∨ actual = .direct var ∧ var ∈ captures.of caller) := by
  obtain ⟨caller, around, ⟨declared, way⟩ | ⟨_, captured, rfl⟩⟩ := planActual_cases result
  · refine ⟨?_, caller, around, .inl declared⟩
    rcases way with ⟨_, rfl⟩ | ⟨_, _, rfl⟩ | ⟨_, _, rfl⟩ <;> rfl
  · exact ⟨rfl, caller, around, .inr ⟨rfl, captured⟩⟩

theorem mem_callsOf {f : SymbolId} {call : NodeId} :
    call ∈ callsOf p f ↔ call ∈ (p.symbol f).callers := by
  unfold callsOf
  exact List.mem_mergeSort

/-- Each plan is for a listed call of some function, with one actual for each of its captures. -/
theorem mem_of_planCalls {plans : List CallPlan} (result : planCalls p captures = .ok plans)
    {plan : CallPlan} (member : plan ∈ plans) :
    ∃ callee, plan.call ∈ (p.symbol callee).callers ∧ ∀ actual ∈ plan.actuals,
      ∃ var ∈ captures.of callee, planActual p captures plan.call callee var = .ok actual := by
  unfold planCalls at result
  obtain ⟨lists, planned, flat⟩ := bind_eq_ok_iff.mp result
  rw [pure_eq_ok_iff.mp flat] at member
  obtain ⟨list, listed, inside⟩ := List.mem_flatten.mp member
  obtain ⟨callee, _, ofCallee⟩ := exists_of_mapM_eq_ok planned listed
  obtain ⟨call, called, ofCall⟩ := exists_of_mapM_eq_ok ofCallee inside
  obtain ⟨actuals, supplied, equal⟩ := bind_eq_ok_iff.mp ofCall
  rw [pure_eq_ok_iff.mp equal]
  exact ⟨callee, mem_callsOf.mp called, fun actual there => exists_of_mapM_eq_ok supplied there⟩

/-- A plan can be carried out if every actual of it leads somewhere and has a place to stand. -/
theorem planned_of_planCalls (settled : p.Settled) {plans : List CallPlan}
    (result : planCalls p (.compute p (.build p)) = .ok plans) {plan : CallPlan}
    (member : plan ∈ plans)
    (leads : ∀ {callee caller v}, v ∈ (Captures.compute p (.build p)).of callee →
      p.declaringFn? v = some caller ∨ v ∈ (Captures.compute p (.build p)).of caller →
      ∀ n, p.Home v caller ∨ pending n caller v)
    (inside : ∀ {callee caller v anchor}, p.callee? plan.call = some callee →
      v ∈ (Captures.compute p (.build p)).of callee → p.declaringFn? v = some caller →
      p.enclosingFn? plan.call = some caller → p.enclosingStmt? plan.call = some anchor →
      p.scope? anchor = p.scope? plan.call ∨ ∀ n f v, pending n f v) :
    Planned p pending plan := by
  obtain ⟨callee, listed, actuals⟩ := mem_of_planCalls result member
  obtain ⟨reached, target⟩ := settled.callers listed
  refine ⟨reached, ?_, fun actual there => ?_⟩
  · cases kind : p.kind plan.call <;> simp_all [callee?, NodeKind.callee?, NodeKind.isCall]
  · obtain ⟨var, captured, planned⟩ := actuals actual there
    obtain ⟨rfl, caller, around, source⟩ := planActual_eq_ok planned
    have outer := Captures.isOuterVar_of_mem captured
    refine ⟨Captures.known_of_mem captured, ?_, fun n f scope fn => ?_, fun indirect found => ?_⟩
    · rw [isOuterVar, Bool.and_eq_true] at outer
      exact outer.1
    · have same : some caller = some f := by
        rw [← around, enclosingFn?, show (p.node plan.call).scope = some f from scope]
        simp [fn]
      cases same
      exact leads captured (source.imp id And.right) n
    · rcases source with declared | ⟨direct, _⟩
      · exact inside target captured declared around found
      · exact absurd direct (indirect _)

/-- Closure conversion keeps a program sound, whatever the order in which it is run. -/
theorem flatten_settled (settled : p.Settled) : Ends flatten p (fun _ => Settled) Settled := by
  have all : Ends flatten p 
      (fun _ q => Converted (fun _ _ _ => True) p q ∧ unresolvedCall? p = none)
      fun q => q = p ∧ Refused p := by
    refine flatten_ends settled (fun n v f _ _ _ _ => .inr (.inl trivial)) ?_
    intro plans result plan member
    exact planned_of_planCalls settled result member (fun _ _ _ => .inr (.inl trivial))
      fun _ _ _ _ _ => .inr fun _ _ _ => .inl trivial
  exact all.mono (fun _ _ done => done.1.settled) fun _ refused => refused.1 ▸ settled

end Closure

end MiddleEnd
