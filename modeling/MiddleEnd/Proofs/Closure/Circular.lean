import MiddleEnd.Proofs.Arena.Untouched
import MiddleEnd.Proofs.Closure.Nesting
import MiddleEnd.Proofs.Surface.Lowering

/-! The way out from a function, after edits. -/

namespace MiddleEnd

namespace Program

variable {p q : Program}

/-- Whatever is done to a lowered program: from a function whose definition can be reached there is a way
out, through the functions that are listed, each of them once and none of them the function itself. -/
theorem Later.around {tree : Surface.ProgramTree} (lowered : tree.lower = .ok p) (later : p.Later q)
    {f : SymbolId} {d : NodeId} (placed : q.Placed f d) :
    q.Around f (q.lexicalAncestors f) ∧ (f :: q.lexicalAncestors f).Nodup := by
  have sound := later.sound (Surface.ProgramTree.lowered lowered).1.sound
  have around := sound.around placed
  exact ⟨around, List.nodup_cons.mpr ⟨around.not_mem, around.nodup⟩⟩

end Program

namespace Surface

/-- Two functions with nothing in them. -/
def pairTree : ProgramTree where
  modules := [{ name := "m", items := [.fn .nowhere "f" [] none .value [] [],
    .fn .nowhere "g" [] none .value [] []] }]

/-- The first function is put into the second one and taken out again, and then the second one is put into
the first one, which is still loose. -/
def swapRequests : List Request :=
  [.detach ⟨2⟩, .append ⟨3⟩ ⟨2⟩, .detach ⟨2⟩, .detach ⟨4⟩, .append ⟨1⟩ ⟨4⟩]

/-- A loose definition keeps the scope that it had, so that two functions can declare each other: from
neither of them there is a way out. -/
theorem swapped_no_way_out : ∃ p q : Program, pairTree.lower = .ok p ∧
    swapRequests.foldlM (fun p (request : Request) => request.outcome p) p = .ok q ∧
      (q.symbol ⟨1⟩).live = true ∧ q.declaringFn? ⟨1⟩ = some ⟨2⟩ ∧ q.declaringFn? ⟨2⟩ = some ⟨1⟩ ∧
      ∀ l, ¬ q.Around ⟨1⟩ l := by
  have shape : (pairTree.lower.toOption.bind fun p =>
      (swapRequests.foldlM (fun p (request : Request) => request.outcome p) p).toOption.map fun q =>
        ((q.symbol ⟨1⟩).live, q.declaringFn? ⟨1⟩, q.declaringFn? ⟨2⟩,
          (q.lexicalAncestors ⟨1⟩).length, q.symbols.size)) =
      some (true, some ⟨2⟩, some ⟨1⟩, 4, 3) := by
    decide +kernel
  cases lowered : pairTree.lower with
  | error e => simp [lowered, Except.toOption] at shape
  | ok p =>
    cases edited : swapRequests.foldlM (fun p (request : Request) => request.outcome p) p with
    | error e => simp [lowered, edited, Except.toOption] at shape
    | ok q =>
      simp only [lowered, edited, Except.toOption, Option.bind_some, Option.map_some, Option.some.injEq,
        Prod.mk.injEq] at shape
      obtain ⟨live, ofF, ofG, length, size⟩ := shape
      refine ⟨p, q, rfl, edited, live, ofF, ofG, fun l around => ?_⟩
      have short := Program.exists_around_iff.mp ⟨l, around⟩
      omega

end Surface

end MiddleEnd
