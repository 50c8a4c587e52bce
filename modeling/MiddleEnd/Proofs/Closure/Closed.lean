import MiddleEnd.Proofs.Closure.Flat
import MiddleEnd.Proofs.Surface.Linked

/-! Closure conversion closes every function of a lowered program. -/

namespace MiddleEnd

open Outcome

namespace Program

variable {p : Program}

/-- What is at home in a function is declared by the function or by a module. -/
theorem Tidy.declaringFn?_of_home (tidy : p.Tidy) {v f : SymbolId} (home : p.Home v f)
    (fn : p.isFn f = true) : p.declaringFn? v = some f ∨ p.declaringFn? v = none := by
  obtain ⟨d, _, defines, here | ⟨m, member, scope⟩⟩ := home
  · exact .inl (tidy.declaringFn?_of_scope defines here fn)
  · exact .inr (tidy.declaringFn?_eq_none_of_scope defines scope (tidy.sound.not_isFn_of_module member))

theorem Tidy.isFn_of_registered (tidy : p.Tidy) {f : SymbolId} (member : f ∈ p.registries.fns) :
    p.isFn f = true := by
  obtain ⟨d, placed⟩ := tidy.placed_of_registered member
  exact tidy.isFn_of_fnDef (tidy.sound.live_of_reached placed.1) placed.2.1 placed.2.2

theorem Tidy.placed_of_visible (tidy : p.Tidy) {n : NodeId} {f : SymbolId} (reached : p.Reached n)
    (visible : p.Visible n f) (fn : p.isFn f = true) : ∃ d, p.Placed f d := by
  obtain ⟨d, _, there, defines, _⟩ := visible.reached tidy.sound reached
  exact ⟨d, there, tidy.isFnDef_of_defines (tidy.sound.live_of_reached there) defines fn, defines⟩

theorem Tidy.placed_of_callee (tidy : p.Tidy) (lexical : p.Lexical) {call : NodeId} {f : SymbolId}
    (reached : p.Reached call) (target : p.callee? call = some f) : ∃ d, p.Placed f d := by
  rcases lexical.callee reached target with visible | ⟨listed, _⟩
  · exact tidy.placed_of_visible reached visible
      ((tidy.lawful (tidy.sound.live_of_reached reached)).callee_fn target)
  · exact tidy.placed_of_registered listed

end Program

namespace Closure

open Program

/-- After closure conversion no function stands in another, every reference in a function leads to
what the function or a module declares, and a second conversion has nothing to do. -/
theorem flatten_closes {p q : Program} {result : TransformResult} (linked : Linked p)
    (converts : flatten p = .ok result q) :
    (∀ f ∈ q.registries.fns, q.isNestedFn f = false) ∧
    (∀ f ∈ q.registries.fns, ∀ d, q.fnDef? f = some d → ∀ n ∈ q.collect .symRef d, ∀ v,
      (q.kind n).symRef? = some v →
      q.Home v f ∧ (q.declaringFn? v = some f ∨ q.declaringFn? v = none)) ∧
    ∃ again, flatten q = .ok again q ∧ again.modified = false := by
  obtain ⟨converted, resolved⟩ := (flatten_converts linked.settled linked.lexical).of_ok converts
  refine ⟨fun f member => converted.flat.isNestedFn_eq_false member, ?_,
    {}, converted.flatten_again resolved, rfl⟩
  intro f member d found n inside v ref
  have home := converted.flat.home_of_ref converted.leads member found inside ref
  exact ⟨home, converted.settled.declaringFn?_of_home home
    (converted.settled.isFn_of_registered member)⟩

/-- Both inner functions of `nestedTree` capture the formal and the variable around them. -/
theorem nestedLinked_closes :
    let q := left (flatten Surface.nestedLinked)
    q.registries.fns.length = 3 ∧ (∀ f ∈ q.registries.fns, q.isNestedFn f = false) ∧
      ∃ again, flatten q = .ok again q ∧ again.modified = false := by
  have success : succeeds (flatten Surface.nestedLinked) = true := by decide +kernel
  obtain ⟨result, converts⟩ := exists_ok_of_succeeds success
  obtain ⟨flat, _, again⟩ := flatten_closes Surface.nestedLinked_linked converts
  exact ⟨by decide +kernel, flat, again⟩

/-- After closure conversion every type stands outside all functions, those types apart that stood
in a function which was not nested: they stay in it, also where a function names them that has moved
out. -/
theorem flatten_hoists {p q : Program} {result : TransformResult} (linked : Linked p)
    (converts : flatten p = .ok result q) {n : NodeId} (type : p.TypeDef n) :
    q.TypeDef n ∧ (q.TopLevel n ∨
      ∃ f, p.isNestedFn f = false ∧ p.scope? n = some f ∧ q.scope? n = some f) := by
  obtain ⟨converted, _⟩ := (flatten_converts linked.settled linked.lexical).of_ok converts
  obtain ⟨t, stage, change⟩ := converted.staged
  refine ⟨change.typeDef (Stage.typeDef stage type).1, ?_⟩
  refine (converted.types type).imp_right ?_
  rintro ⟨f, outermost, before, after⟩
  exact ⟨f, by rw [isNestedFn, outermost, Option.isSome_none, Bool.and_false], before, after⟩

end Closure

end MiddleEnd
