import MiddleEnd.Proofs.Calls.Sites

namespace MiddleEnd.Program

variable {p q : Program}

/-- A definition of the symbol stands directly in a node around this one. -/
def Visible (p : Program) (n : NodeId) (s : SymbolId) : Prop :=
  ∃ d owner, p.Live d ∧ (p.kind d).defines? = some s ∧ p.parent? d = some owner ∧ p.Above owner n

/-- Every reference is to a symbol that is visible where it stands, and so is every call, unless it
was bound by its name to a function of a module. -/
structure Lexical (p : Program) : Prop where
  ref {n : NodeId} {v : SymbolId} : p.Reached n → (p.kind n).symRef? = some v → p.Visible n v
  callee {n : NodeId} {f : SymbolId} : p.Reached n → (p.kind n).callee? = some f →
    p.Visible n f ∨ f ∈ p.registries.fns ∧ p.declaringFn? f = none

theorem Visible.reached (sound : p.Sound) {n : NodeId} {s : SymbolId} (visible : p.Visible n s)
    (reached : p.Reached n) : ∃ d owner, p.Reached d ∧ (p.kind d).defines? = some s ∧
      p.parent? d = some owner ∧ p.Above owner n := by
  obtain ⟨d, owner, live, defines, link, above⟩ := visible
  have outer := Reached.of_below sound reached above
  exact ⟨d, owner, outer.child (sound.forest.owner_lists live link), defines, link, above⟩

theorem Retarget.visible (change : Retarget p q) {n : NodeId} {s : SymbolId}
    (visible : p.Visible n s) : q.Visible n s := by
  obtain ⟨d, owner, live, defines, link, above⟩ := visible
  refine ⟨d, owner, change.live_iff.mpr live, ?_, ?_, change.above above⟩
  · rw [change.defines, defines]
  · rw [change.parent, link]

/-- Calls that are bound by name are bound to functions of modules. -/
theorem Lexical.binds (lexical : p.Lexical) (binds : Binds p q) : q.Lexical where
  ref {n v} reached ref := by
    have before := (binds.reached_iff binds.roots).mp reached
    have other : (p.kind n).isCall = false := by
      rw [← binds.isCall]
      cases kind : q.kind n <;> simp_all [NodeKind.symRef?, NodeKind.isCall]
    rw [binds.kind_of_other other] at ref
    exact binds.visible (lexical.ref before ref)
  callee {n f} reached callee := by
    have before := (binds.reached_iff binds.roots).mp reached
    rw [binds.registries, binds.declaringFn?]
    cases kind : p.kind n with
    | call previous name args =>
      obtain ⟨target, after, source⟩ := binds.kind_of_call kind
      rw [after] at callee
      have bound : target = some f := callee
      rcases source with same | ⟨_, g, equal, listed, outer⟩
      · have resolved : (p.kind n).callee? = some f := by
          rw [kind, ← bound, same]
          rfl
        exact (lexical.callee before resolved).imp binds.visible id
      · cases bound.symm.trans equal
        exact .inr ⟨listed, outer⟩
    | _ =>
      rw [binds.kind_of_other (by rw [kind]; rfl), kind] at callee
      cases callee

end MiddleEnd.Program
