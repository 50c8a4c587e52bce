import MiddleEnd.Proofs.Closure.Least
import MiddleEnd.Proofs.Surface.Linked

/-! What the functions of a lowered program capture. -/

namespace MiddleEnd

open Outcome

namespace Closure

open Program Calls

variable {p : Program}

/-- A function captures what it or a function at the end of a chain of calls refers to, as far as it
is an outer variable all along the chain. The captures ascend, and finding them comes to an end. -/
theorem captures_iff_demanded (lowered : (∃ tree : Surface.ProgramTree, tree.lower = .ok p) ∨ Linked p)
    {f : SymbolId} (listed : f ∈ p.registries.fns) :
    (∀ s, s ∈ (Captures.compute p (.build p)).of f ↔
      ∃ chain : List SymbolId, chain.head? = some f ∧ chain.IsChain (CallsTo p) ∧
        (∃ last ∈ chain.getLast?, Refers p last s) ∧ ∀ g ∈ chain, p.isOuterVar s g = true) ∧
    ((Captures.compute p (.build p)).of f).Pairwise (·.index < ·.index) ∧
    (captureProblem p (.build p)).Runs (List.range p.registries.fns.length).reverse
      (captureProblem p (.build p)).start (Captures.compute p (.build p)).sweeps
      (captureProblem p (.build p)).solve.toFacts := by
  have tidy : p.Tidy := by
    rcases lowered with ⟨tree, lowered⟩ | linked
    · exact (Surface.ProgramTree.lowered lowered).1.toTidy
    · exact linked.settled.toTidy
  refine ⟨fun s => ⟨fun captured => ?_, fun ⟨chain, first, calls, refers, outer⟩ => ?_⟩,
    Captures.of_sorted tidy listed, ?_⟩
  · obtain ⟨chain, first, demand⟩ := Captures.demanded_of_mem tidy listed captured
    exact ⟨chain, first, demand.calls, demand.refers, demand.outer⟩
  · exact (Captures.mem_of_demanded tidy ⟨chain, first, calls, refers, outer⟩).2
  · have size : (captureProblem p (.build p)).size = p.registries.fns.length := size_captureProblem
    rw [← size]
    exact (captureProblem_graded p _).solveInOrder_runs (by simp)

/-- `relay` never mentions the formal of `outer`, but it calls `store`, which does. -/
theorem relay_captures :
    (⟨4⟩ : SymbolId) ∈ Surface.nestedLinked.registries.fns ∧
    ∃ chain : List SymbolId, chain.head? = some ⟨4⟩ ∧
      chain.IsChain (CallsTo Surface.nestedLinked) ∧
      (∃ last ∈ chain.getLast?, Refers Surface.nestedLinked last ⟨2⟩) ∧
      ∀ g ∈ chain, Surface.nestedLinked.isOuterVar ⟨2⟩ g = true := by
  have listed : (⟨4⟩ : SymbolId) ∈ Surface.nestedLinked.registries.fns := by decide +kernel
  have captured : (⟨2⟩ : SymbolId) ∈
      (Captures.compute Surface.nestedLinked (.build Surface.nestedLinked)).of ⟨4⟩ := by
    decide +kernel
  exact ⟨listed,
    ((captures_iff_demanded (.inr Surface.nestedLinked_linked) listed).1 ⟨2⟩).mp captured⟩

end Closure

end MiddleEnd
