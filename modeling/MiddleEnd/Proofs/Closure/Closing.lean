import MiddleEnd.Proofs.Calls.Lexical
import MiddleEnd.Proofs.Closure.Plan

namespace MiddleEnd

open Outcome

namespace Closure

open Program

variable {p q : Program} {pending : NodeId → SymbolId → SymbolId → Prop}

/-- A visible variable belongs to the function that refers to it, to a module, or to a function
around. -/
theorem home_or_outer (settled : p.Settled) (lexical : p.Lexical) {n : NodeId} {v f : SymbolId}
    (reached : p.Reached n) (ref : (p.kind n).symRef? = some v) (scope : p.scope? n = some f)
    (fn : p.isFn f = true) : p.Home v f ∨ p.isOuterVar v f = true := by
  obtain ⟨d, owner, reachedD, defines, link, above⟩ :=
    (lexical.ref reached ref).reached settled.sound reached
  rcases settled.sound.scope_cases reachedD with ⟨m, member, atModule, _⟩ | ⟨e, g, atG, inner⟩
  · exact .inl ⟨d, reachedD, defines, .inr ⟨m, member, atModule⟩⟩
  · have aboveN : p.Above e n := (inner.above.owner_of_ne link inner.ne).trans above
    have different : e ≠ n := by
      rintro rfl
      have fnDef := inner.fnDef
      cases kind : p.kind e <;> simp_all [NodeKind.symRef?, NodeKind.isFnDef]
    have fnG := settled.isFn_of_fnDef (settled.sound.live_of_reached inner.reached) inner.fnDef
      inner.defines
    have placed : p.Placed g e := ⟨inner.reached, inner.fnDef, inner.defines⟩
    by_cases same : g = f
    · subst same
      exact .inl ⟨d, reachedD, defines, .inl atG⟩
    · have around := (settled.lexical_of_above reached scope fn placed aboveN different).resolve_left
        same
      have value := ((settled.lawful (settled.sound.live_of_reached reached)).ref_value ref).2
      refine .inr ?_
      rw [isOuterVar, value, settled.declaringFn?_of_scope defines atG fnG]
      simp [same, around]

/-- A function captures every outer variable that stands in it. -/
theorem mem_captures_of_ref (settled : p.Settled) {n : NodeId} {v f : SymbolId}
    (reached : p.Reached n) (ref : (p.kind n).symRef? = some v) (scope : p.scope? n = some f)
    (fn : p.isFn f = true) (outer : p.isOuterVar v f = true) :
    v ∈ (Captures.compute p (.build p)).of f := by
  obtain ⟨d, inner⟩ := settled.sound.innermost_of_scope reached scope fn
  have placed : p.Placed f d := ⟨inner.reached, inner.fnDef, inner.defines⟩
  have own := ((settled.own_iff inner.reached inner.fnDef inner.defines).mpr ⟨reached, scope⟩).1
  have tag : (p.kind n).tag = .symRef := NodeKind.symRef?_isSome_iff.mp (by rw [ref]; rfl)
  refine Captures.mem_of_directCaptures (settled.registered_of_placed placed) ?_
  rw [directCaptures, Flow.Ascending.ofList, Flow.Ascending.mem_union captureRank_apart]
  refine .inr (List.mem_filter.mpr ⟨?_, outer⟩)
  rw [ownRefs, (settled.fnBody?_eq placed).1]
  have collected := (settled.sound.forest.mem_collectOwn
    (settled.sound.live_of_reached inner.reached)).mpr ⟨own, tag⟩
  exact List.mem_filterMap.mpr ⟨n, collected, ref⟩

theorem leads_of_lexical (settled : p.Settled) (lexical : p.Lexical) :
    p.Leads (Open pending (.compute p (.build p)) (Captures.compute p (.build p)).capturing) := by
  intro n v f reached ref scope fn
  rcases home_or_outer settled lexical reached ref scope fn with home | outer
  · exact .inl home
  · have captured := mem_captures_of_ref settled reached ref scope fn outer
    exact .inr (.inr ⟨Captures.mem_capturing captured, captured⟩)

theorem home_of_captured (settled : p.Settled) (lexical : p.Lexical) {v f caller : SymbolId}
    (captured : v ∈ (Captures.compute p (.build p)).of f)
    (declared : p.declaringFn? v = some caller) : p.Home v caller := by
  obtain ⟨n, reached, ref⟩ := Captures.exists_ref_of_mem settled captured
  obtain ⟨d, _, reachedD, defines, _⟩ := (lexical.ref reached ref).reached settled.sound reached
  rw [declaringFn?, declaringScope?, settled.sound.bound defines] at declared
  exact ⟨d, reachedD, defines, .inl (Option.filter_eq_some_iff.mp declared).1⟩

/-- A call that passes a variable of the function around it stands in the body of that function. In
a default value it could only see functions from outside, which capture nothing of it. -/
theorem scope_anchor (settled : p.Settled) (lexical : p.Lexical) {call anchor : NodeId}
    {callee caller v : SymbolId} (reached : p.Reached call)
    (target : p.callee? call = some callee)
    (captured : v ∈ (Captures.compute p (.build p)).of callee)
    (declared : p.declaringFn? v = some caller) (around : p.enclosingFn? call = some caller)
    (found : p.enclosingStmt? call = some anchor) : p.scope? anchor = p.scope? call := by
  rcases settled.enclosingStmt?_scope reached found with same | ⟨fnDef, defined⟩
  · exact same
  exfalso
  have scope := (Option.filter_eq_some_iff.mp around).1
  have definesCaller : (p.kind anchor).defines? = some caller := defined.symm.trans scope
  have outer := Captures.isOuterVar_of_mem captured
  simp only [isOuterVar, declared, Bool.and_eq_true, List.contains_iff_mem] at outer
  have lexicalAncestor := outer.2.2
  obtain ⟨dC, placedC⟩ := settled.placed_of_registered
    (Captures.registered_of_capturing (Captures.mem_capturing captured))
  obtain ⟨e, placedE, aboveE, differentE⟩ := settled.sound.mem_lexicalAncestors placedC lexicalAncestor
  cases settled.sound.bound_unique placedE.2.2 definesCaller
  rcases lexical.callee reached target with ⟨d, b, live, defines, link, above⟩ | ⟨_, outermost⟩
  · cases settled.sound.bound_unique defines placedC.2.2
    have block := settled.block_of_fnDef live link placedC.2.1
    have aboveB : p.Above anchor b := aboveE.owner_of_ne link differentE
    -- The child of the block on the way to the call is a statement, so it is above the anchor.
    have apart : b ≠ call := by
      rintro rfl
      cases kind : p.kind b <;> simp_all [NodeKind.isBlock, callee?, NodeKind.callee?]
    obtain ⟨c, child, aboveC⟩ :=
      settled.sound.forest.child_above above (settled.sound.live_of_reached reached) apart
    have liveB := settled.sound.live_of_reached (Reached.of_below settled.sound reached above)
    have linkC := settled.sound.forest.child_parent liveB child
    have stmt := (settled.sound.forest.enclosingStmt?_eq_some found).2.2 c b aboveC linkC block
    exact settled.sound.forest.acyclic linkC (stmt.trans aboveB)
  · rw [settled.sound.lexicalAncestors_eq placedC, outermost] at lexicalAncestor
    cases lexicalAncestor

/-- Where every name is visible, closure conversion leaves no reference from one function to what
another declares. -/
theorem flatten_converts (settled : p.Settled) (lexical : p.Lexical) :
    Ends flatten p
      (fun _ q => Converted (fun _ _ _ => False) p q ∧ unresolvedCall? p = none)
      fun q => q = p ∧ Refused p := by
  refine flatten_ends settled (leads_of_lexical settled lexical) ?_
  intro plans result plan member
  obtain ⟨callee, listed, _⟩ := mem_of_planCalls result member
  have reached := (settled.callers listed).1
  refine planned_of_planCalls settled result member ?_ ?_
  · intro callee caller v captured source n
    rcases source with declared | captures
    · exact .inl (home_of_captured settled lexical captured declared)
    · exact .inr (.inr ⟨Captures.mem_capturing captures, captures⟩)
  · intro callee caller v anchor target captured declared around found
    exact .inl (scope_anchor settled lexical reached target captured declared around found)

end Closure

end MiddleEnd
