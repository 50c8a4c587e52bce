import MiddleEnd.Proofs.Closure.Closing

namespace MiddleEnd

namespace Program

variable {p q : Program}

/-- No function stands in another. -/
structure Flat (p : Program) : Prop where
  settled : p.Settled
  outer {f : SymbolId} {d : NodeId} : p.Placed f d → p.Outer f d

namespace Flat

theorem declaringFn?_eq_none (flat : p.Flat) {f : SymbolId} (member : f ∈ p.registries.fns) :
    p.declaringFn? f = none := by
  obtain ⟨d, placed⟩ := flat.settled.placed_of_registered member
  obtain ⟨_, m, listed, scope⟩ := flat.outer placed
  exact flat.settled.declaringFn?_eq_none_of_scope placed.2.2 scope
    (flat.settled.sound.not_isFn_of_module listed)

theorem isNestedFn_eq_false (flat : p.Flat) {f : SymbolId} (member : f ∈ p.registries.fns) :
    p.isNestedFn f = false := by
  rw [isNestedFn, flat.declaringFn?_eq_none member]
  simp

theorem of_not_nested (settled : p.Settled) (outer : ∀ f ∈ p.registries.fns, p.isNestedFn f = false) :
    p.Flat where
  settled := settled
  outer {f d} placed := by
    have fn := settled.isFn_of_fnDef (settled.sound.live_of_reached placed.1) placed.2.1 placed.2.2
    have none := outer f (settled.registered_of_placed placed)
    rw [isNestedFn, fn, Bool.true_and, Option.isSome_eq_false_iff, Option.isNone_iff_eq_none] at none
    exact ⟨placed, settled.scope_of_declaringFn?_none placed.1 placed.2.2 none⟩

/-- What stands in the definition of a function stands in no other function. -/
theorem scope_eq (flat : p.Flat) {f : SymbolId} {d n : NodeId} (placed : p.Placed f d)
    (reached : p.Reached n) (above : p.Above d n) (different : d ≠ n) : p.scope? n = some f := by
  have settled := flat.settled
  rcases settled.sound.scope_cases reached with ⟨m, _, _, outside⟩ | ⟨e, g, scope, inner⟩
  · exact absurd placed.2.1 (by rw [outside d above different]; decide)
  · have upper := inner.least above different placed.2.1
    obtain ⟨_, m, listed, scopeE⟩ := flat.outer ⟨inner.reached, inner.fnDef, inner.defines⟩
    by_cases same : d = e
    · subst same
      rw [scope, ← inner.defines, placed.2.2]
    · exact absurd upper (settled.not_above_of_module_scope inner.reached scopeE
        (settled.sound.not_isFn_of_module listed) placed.2.1 same)

/-- Where every reference leads home, so does every reference in the definition of a function. -/
theorem home_of_ref (flat : p.Flat) (leads : p.Leads fun _ _ _ => False) {f v : SymbolId}
    {d n : NodeId} (member : f ∈ p.registries.fns) (found : p.fnDef? f = some d)
    (inside : n ∈ p.collect .symRef d) (ref : (p.kind n).symRef? = some v) : p.Home v f := by
  have settled := flat.settled
  obtain ⟨e, placed⟩ := settled.placed_of_registered member
  cases (settled.fnBody?_eq placed).1.symm.trans found
  obtain ⟨live, above, tag⟩ := settled.sound.forest.mem_collect.mp inside
  have reached := placed.1.of_above settled.sound.forest live above
  have different : d ≠ n := by
    rintro rfl
    have fnDef := NodeKind.isFnDef_iff.mp placed.2.1
    rw [tag] at fnDef
    cases fnDef
  have scope := flat.scope_eq placed reached above different
  have fn := settled.isFn_of_fnDef (settled.sound.live_of_reached placed.1) placed.2.1 placed.2.2
  exact (leads n v f reached ref scope fn).resolve_right id

end Flat

end Program

namespace Closure

open Program

variable {p q : Program} {pending : NodeId → SymbolId → SymbolId → Prop}

theorem unresolvedCall?_eq_none_iff : unresolvedCall? p = none ↔
    ∀ call ∈ p.registries.calls, (p.kind call).isCall = true → (p.callee? call).isSome = true := by
  unfold unresolvedCall?
  rw [List.findSome?_eq_none_iff]
  refine forall₂_congr fun call _ => ?_
  rw [callee?]
  cases kind : p.kind call with
  | call callee name args => cases callee <;> simp [NodeKind.isCall, NodeKind.callee?]
  | _ => simp [NodeKind.isCall]

theorem flatten_eq_of_flat (resolved : unresolvedCall? p = none) (flat : nestedFunctions p = []) :
    flatten p = .ok {} p := by
  rw [flatten, Outcome.run_get_bind]
  simp only [resolved, flat]
  rfl

theorem nestedFunctions_eq_nil (flat : p.Flat) : nestedFunctions p = [] := by
  refine List.eq_nil_iff_forall_not_mem.mpr fun f member => ?_
  obtain ⟨⟨d, placed⟩, nested⟩ := (mem_nestedFunctions flat.settled).mp member
  rw [flat.declaringFn?_eq_none (flat.settled.registered_of_placed placed)] at nested
  cases nested

namespace Converted

theorem flat (converted : Converted pending p q) : q.Flat := ⟨converted.settled, converted.outer⟩

/-- The calls are those from before, with the targets that they had. -/
theorem call_before (converted : Converted pending p q) {n : NodeId} (reached : q.Reached n)
    (isCall : (q.kind n).isCall = true) :
    p.Reached n ∧ (p.kind n).isCall = true ∧ q.callee? n = p.callee? n := by
  obtain ⟨t, stage, change⟩ := converted.staged
  have head := change.head n
  rw [head.isCall] at isCall
  have before := stage.frame.old (change.reached.mp reached) (.inl isCall)
  have known := (stage.base_sound.live_of_reached before).known
  rw [isCall_of_tag (stage.frame.tag known)] at isCall
  refine ⟨before, isCall, ?_⟩
  rw [callee?, head.callee, stage.frame.callee known, callee?]

theorem placed_of_placed (converted : Converted pending p q) {f : SymbolId} {d : NodeId}
    (placed : p.Placed f d) : q.Placed f d := by
  obtain ⟨t, stage, change⟩ := converted.staged
  exact change.placed (stage.frame.placed stage.base_sound placed)

/-- The functions are those from before. -/
theorem placed_before (converted : Converted pending p q) {f : SymbolId} {d : NodeId}
    (placed : q.Placed f d) : p.Placed f d := by
  obtain ⟨t, stage, change⟩ := converted.staged
  exact Stage.placed_of_placed stage ((Relocates.placed_iff change).mp placed)

/-- A node that was there defines what it defined. -/
theorem defines_before (converted : Converted pending p q) {n : NodeId}
    (known : n.index < p.nodes.size) : (q.kind n).defines? = (p.kind n).defines? := by
  obtain ⟨t, stage, change⟩ := converted.staged
  exact (change.head n).defines.trans (stage.frame.defines known)

theorem unresolvedCall?_eq_none (converted : Converted pending p q)
    (resolved : unresolvedCall? p = none) : unresolvedCall? q = none := by
  obtain ⟨_, stage, _⟩ := converted.staged
  refine unresolvedCall?_eq_none_iff.mpr fun call member isCall => ?_
  have reached := (converted.settled.sound.exact.mem_calls.mp member).1
  obtain ⟨before, wasCall, same⟩ := converted.call_before reached isCall
  rw [same]
  exact unresolvedCall?_eq_none_iff.mp resolved call
    (stage.base_sound.exact.mem_calls.mpr ⟨before, wasCall⟩) wasCall

/-- A second conversion finds nothing to do. -/
theorem flatten_again (converted : Converted pending p q) (resolved : unresolvedCall? p = none) :
    flatten q = .ok {} q :=
  flatten_eq_of_flat (converted.unresolvedCall?_eq_none resolved)
    (nestedFunctions_eq_nil converted.flat)

/-- Every reference in a function leads to what the function or a module declares. -/
theorem leads (converted : Converted pending p q) : q.Leads pending := by
  obtain ⟨t, stage, change⟩ := converted.staged
  exact change.leads stage.settled.toTidy stage.leads

end Converted

end Closure

end MiddleEnd
