import MiddleEnd.Proofs.Closure.Closing
import MiddleEnd.Proofs.Closure.Formals
import MiddleEnd.Proofs.Closure.Least
import MiddleEnd.Proofs.Surface.Linked
import MiddleEnd.Proofs.Surface.Tracked

namespace MiddleEnd

open Outcome

namespace Outcome

variable {ε α β : Type}

theorem forall₂_of_mapM_eq_ok {f : α → Except ε β} {xs : List α} {ys : List β}
    (result : xs.mapM f = .ok ys) : List.Forall₂ (fun x y => f x = .ok y) xs ys := by
  induction xs generalizing ys with
  | nil =>
    rw [List.mapM_nil] at result
    rw [pure_eq_ok_iff.mp result]
    exact .nil
  | cons x xs ih =>
    rw [List.mapM_cons] at result
    obtain ⟨first, ofFirst, result⟩ := bind_eq_ok_iff.mp result
    obtain ⟨others, ofOthers, result⟩ := bind_eq_ok_iff.mp result
    rw [pure_eq_ok_iff.mp result]
    exact .cons ofFirst (ih ofOthers)

end Outcome

namespace Closure

open Program TransformM

variable {p : Program} {captures : Captures}

theorem Captures.capturing_nodup (captures : Captures) : captures.capturing.Nodup :=
  Flow.Ascending.Sorted.nodup
    (Flow.Ascending.Sorted.union captureRank_apart _ List.Pairwise.nil)

/-! Plans. -/

/-- The plan of a call of `g`: an actual for each variable that `g` captures. -/
structure PlanOf (p : Program) (captures : Captures) (g : SymbolId) (plan : CallPlan) : Prop where
  listed : plan.call ∈ (p.symbol g).callers
  actuals : List.Forall₂ (fun v actual => planActual p captures plan.call g v = .ok actual)
    (captures.of g) plan.actuals

theorem planOf_of_planCall {g : SymbolId} {call : NodeId} {plan : CallPlan}
    (listed : call ∈ callsOf p g) (result : planCall p captures g call = .ok plan) :
    plan.call = call ∧ PlanOf p captures g plan := by
  obtain ⟨actuals, planned, equal⟩ := bind_eq_ok_iff.mp result
  rw [pure_eq_ok_iff.mp equal]
  exact ⟨rfl, mem_callsOf.mp listed, forall₂_of_mapM_eq_ok planned⟩

theorem planOf_of_planCalls {plans : List CallPlan} (result : planCalls p captures = .ok plans)
    {plan : CallPlan} (member : plan ∈ plans) :
    ∃ g ∈ captures.capturing, PlanOf p captures g plan := by
  obtain ⟨lists, planned, flat⟩ := bind_eq_ok_iff.mp result
  rw [pure_eq_ok_iff.mp flat] at member
  obtain ⟨list, listed, inside⟩ := List.mem_flatten.mp member
  obtain ⟨g, capturing, ofG⟩ := exists_of_mapM_eq_ok planned listed
  obtain ⟨call, called, ofCall⟩ := exists_of_mapM_eq_ok ofG inside
  exact ⟨g, capturing, (planOf_of_planCall called ofCall).2⟩

/-- The planned calls are those of the functions that capture something. -/
theorem calls_of_planCalls {plans : List CallPlan} (result : planCalls p captures = .ok plans) :
    plans.map CallPlan.call = captures.capturing.flatMap (callsOf p) := by
  obtain ⟨lists, planned, flat⟩ := bind_eq_ok_iff.mp result
  rw [pure_eq_ok_iff.mp flat]
  have each {g : SymbolId} {list : List CallPlan} (ofG : planCallsOf p captures g = .ok list) :
      list.map CallPlan.call = callsOf p g := by
    have members := (List.forall₂_and_left _ _).mpr
      ⟨fun call member => member, forall₂_of_mapM_eq_ok ofG⟩
    rw [← List.forall₂_eq_eq_eq, List.forall₂_map_left_iff]
    exact members.flip.imp fun plan call both => (planOf_of_planCall both.1 both.2).1
  have all := forall₂_of_mapM_eq_ok planned
  clear planned flat result
  generalize captures.capturing = gs at all
  induction all with
  | nil => rfl
  | cons first _ ih =>
    rw [List.flatten_cons, List.map_append, each first, ih, List.flatMap_cons]

/-- What closure conversion can begin with: the call lists list no call twice. -/
structure Convertible (p : Program) : Prop where
  settled : p.Settled
  lexical : p.Lexical
  callers_nodup {f : SymbolId} : f ∈ p.registries.fns → (p.symbol f).callers.Nodup

theorem convertible_of_linked (linked : Linked p) : Convertible p :=
  ⟨linked.settled, linked.lexical, linked.callers_nodup⟩

/-- Lowering itself lists no calls. -/
theorem convertible_of_lowered {tree : Surface.ProgramTree} (lowered : tree.lower = .ok p) :
    Convertible p :=
  ⟨(Surface.ProgramTree.lowered lowered).1, (Surface.ProgramTree.lowered lowered).2.1,
    fun {f} _ => (Surface.ProgramTree.lowered_tracked lowered).distinct f⟩

section

variable (convertible : Convertible p) {plans : List CallPlan}
  (result : planCalls p (.compute p (.build p)) = .ok plans)

include convertible result

/-- No call is planned twice. -/
theorem calls_nodup_of_planCalls : (plans.map CallPlan.call).Nodup := by
  rw [calls_of_planCalls result, List.nodup_flatMap]
  refine ⟨fun g member => ?_, ?_⟩
  · rw [callsOf, (List.mergeSort_perm _ _).nodup_iff]
    exact convertible.callers_nodup (Captures.registered_of_capturing member)
  · refine (Captures.capturing_nodup _).imp fun {g h} different call ofG ofH => different ?_
    have first := (convertible.settled.callers (mem_callsOf.mp ofG)).2
    have second := (convertible.settled.callers (mem_callsOf.mp ofH)).2
    exact Option.some.inj (first.symm.trans second)

/-- Every plan can be carried out. -/
theorem feasible_of_planCalls {plan : CallPlan} (member : plan ∈ plans) : Feasible p plan := by
  have settled := convertible.settled
  obtain ⟨g, listed, actuals⟩ := mem_of_planCalls result member
  obtain ⟨reached, target⟩ := settled.callers listed
  refine ⟨reached, ?_, fun {anchor} found actual there => ?_⟩
  · cases kind : p.kind plan.call <;> simp_all [callee?, NodeKind.callee?, NodeKind.isCall]
  · obtain ⟨v, captured, planned⟩ := actuals actual there
    obtain ⟨rfl, caller, around, source⟩ := planActual_eq_ok planned
    have outer := Captures.isOuterVar_of_mem captured
    refine ⟨Captures.known_of_mem captured, ?_, fun indirect => ⟨caller, ?_, ?_⟩⟩
    · rw [isOuterVar, Bool.and_eq_true] at outer
      exact outer.1
    · have declared := source.resolve_right fun direct => indirect _ direct.1
      rw [scope_anchor settled convertible.lexical reached target captured declared around found]
      exact (Option.filter_eq_some_iff.mp around).1
    · exact source.resolve_right fun direct => indirect _ direct.1

end

/-! The whole conversion. -/

/-- What a call of `g` passes for the variable `v`, once it has got its actuals. -/
def Passes (p : Program) (captures : Captures) (passed : List NodeId) (w : Rework) (t : Program)
    (g : SymbolId) (call : NodeId) (v : SymbolId) (a : NodeId) : Prop :=
  ∃ actual anchor, planActual p captures call g v = .ok actual ∧
    p.enclosingStmt? call = some anchor ∧ Supplied p w t anchor actual a ∧
    ((∃ u, actual = .direct u) → a ∈ passed)

/-- The way from `p` to `q`: some calls get actuals, the functions get their formals, and nested
functions move out. -/
structure Transforms (p : Program) (captures : Captures) (passed : List NodeId) (first : Rework)
    (start : Program) (w : Rework) (t q : Program) : Prop where
  supplying : Supplying p first passed start
  run : Converting p captures passed first start captures.of w t
  moved : Relocates t q

theorem Transforms.underway {passed : List NodeId} {first w : Rework} {start t q : Program}
    (transforms : Transforms p (.compute p (.build p)) passed first start w t q) :
    Underway p (.compute p (.build p)) passed first start (Captures.compute p (.build p)).of w t :=
  transforms.run.underway transforms.supplying fun _ _ => Captures.known_of_mem

/-- The way from `p` to `q` on which all calls get the actuals for the new formals. -/
structure Converts (p : Program) (captures : Captures) (passed : List NodeId) (first : Rework)
    (start : Program) (w : Rework) (t q : Program) : Prop
    extends Transforms p captures passed first start w t q where
  passes {call : NodeId} {g : SymbolId} : p.Reached call → p.callee? call = some g →
    List.Forall₂ (Passes p captures passed first start g call) (captures.of g) (first.added call)

theorem forall₂_trans {α β γ : Type} {R : α → β → Prop} {S : β → γ → Prop} {xs : List α}
    {ys : List β} {zs : List γ} (first : List.Forall₂ R xs ys) (second : List.Forall₂ S ys zs) :
    List.Forall₂ (fun x z => ∃ y, R x y ∧ S y z) xs zs := by
  induction first generalizing zs with
  | nil =>
    cases second
    exact .nil
  | cons here _ ih =>
    cases second with
    | cons there rest => exact .cons ⟨_, here, there⟩ (ih rest)

/-- Calls of functions that capture something have got what was planned, and other calls nothing. -/
theorem passes_of_fulfilled (linked : Linked p) {plans : List CallPlan} {first : Rework}
    {start : Program} {passed : List NodeId}
    (result : planCalls p (.compute p (.build p)) = .ok plans)
    (fulfilled : ∀ plan ∈ plans, Fulfilled p first passed start plan)
    (bare : ∀ c, c ∉ plans.map CallPlan.call → first.added c = []) {call : NodeId} {g : SymbolId}
    (reached : p.Reached call) (target : p.callee? call = some g) :
    List.Forall₂ (Passes p (.compute p (.build p)) passed first start g call)
      ((Captures.compute p (.build p)).of g) (first.added call) := by
  by_cases planned : call ∈ plans.map CallPlan.call
  · obtain ⟨plan, member, rfl⟩ := List.mem_map.mp planned
    obtain ⟨h, _, listed, actuals⟩ := planOf_of_planCalls result member
    cases Option.some.inj (target.symm.trans (linked.settled.callers listed).2)
    obtain ⟨anchor, found, supplied⟩ := fulfilled plan member
    refine (forall₂_trans actuals supplied).imp ?_
    rintro v a ⟨actual, ok, made, direct⟩
    exact ⟨actual, anchor, ok, found, made, direct⟩
  · have free : (Captures.compute p (.build p)).of g = [] := by
      refine List.eq_nil_iff_forall_not_mem.mpr fun v captured => planned ?_
      rw [calls_of_planCalls result]
      exact List.mem_flatMap.mpr ⟨g, Captures.mem_capturing captured,
        mem_callsOf.mpr (linked.listed call g reached List.not_mem_nil target)⟩
    rw [free, bare call planned]
    exact .nil

/-- Closure conversion does nothing, or it goes all the way and carries out every plan. -/
theorem flatten_transforming (convertible : Convertible p) :
    Ends flatten p (fun _ q => nestedFunctions p = [] ∧ q = p ∨ ∃ plans passed first start w t,
      planCalls p (.compute p (.build p)) = .ok plans ∧
      (∀ plan ∈ plans, Fulfilled p first passed start plan) ∧
      (∀ c, c ∉ plans.map CallPlan.call → first.added c = []) ∧
      Transforms p (.compute p (.build p)) passed first start w t q) fun _ => True := by
  have settled := convertible.settled
  unfold flatten
  refine Ends.get_bind ?_
  cases unresolvedCall? p with
  | some error => exact Ends.throw trivial
  | none =>
    simp only
    split
    · rename_i empty
      exact Ends.pure (.inl ⟨List.isEmpty_iff.mp empty, rfl⟩)
    · split
      · exact Ends.throw trivial
      · rename_i plans planned
        refine Ends.bind (Q := fun _ t => ∃ passed first start w,
          Supplying p first passed start ∧ (∀ plan ∈ plans, Fulfilled p first passed start plan) ∧
          (∀ c, c ∉ plans.map CallPlan.call → first.added c = []) ∧
          Converting p (.compute p (.build p)) passed first start
            (Captures.compute p (.build p)).of w t) ?_ ?_
        · refine Ends.bind (extendCalls_fulfil settled
            (fun plan => feasible_of_planCalls convertible planned)
            (calls_nodup_of_planCalls convertible planned)) ?_
          rintro news start ⟨first, supplying, fulfilled, bare⟩
          refine (extendFunctions_run supplying (fun f v => Captures.isOuterVar_of_mem)
            (Captures.capturing_nodup _) (fun f member => settled.placed_of_registered
              (Captures.registered_of_capturing member)) fun f free => ?_).mono ?_ fun _ => id
          · exact List.eq_nil_iff_forall_not_mem.mpr fun v captured =>
              free (Captures.mem_capturing captured)
          · rintro _ t ⟨w, run⟩
            exact ⟨_, first, start, w, supplying, fulfilled, bare, run⟩
        · rintro _ t ⟨passed, first, start, w, supplying, fulfilled, bare, run⟩
          have stage := (run.underway supplying fun f v => Captures.known_of_mem).evolved.stage
          refine Ends.get_bind (Ends.bind (relocateAll_ends stage.settled fun m =>
            movable_of_move? stage) ?_)
          rintro _ q ⟨_, moved, _⟩
          exact Ends.pure (.inr ⟨plans, passed, first, start, w, t, planned, fulfilled, bare,
            supplying, run, moved⟩)

/-- Once the call lists have been computed, every call gets its actuals. -/
theorem flatten_converting (linked : Linked p) :
    Ends flatten p (fun _ q => nestedFunctions p = [] ∧ q = p ∨ ∃ passed first start w t,
      Converts p (.compute p (.build p)) passed first start w t q) fun _ => True := by
  refine (flatten_transforming (convertible_of_linked linked)).mono ?_ fun _ => id
  rintro _ q (flat | ⟨plans, passed, first, start, w, t, planned, fulfilled, bare, transforms⟩)
  · exact .inl flat
  · exact .inr ⟨passed, first, start, w, t, transforms,
      passes_of_fulfilled linked planned fulfilled bare⟩

end Closure

end MiddleEnd
