import MiddleEnd.Proofs.Calls.Lexical
import MiddleEnd.Proofs.Surface.Lowering

/-! Programs as closure conversion gets them. -/

namespace MiddleEnd

open Outcome

namespace Outcome

/-- The state that a run leaves. -/
def left {ε σ α : Type} : EStateM.Result ε σ α → σ
  | .ok _ t => t
  | .error _ t => t

def succeeds {ε σ α : Type} : EStateM.Result ε σ α → Bool
  | .ok _ _ => true
  | .error _ _ => false

/-- What a run preserves holds of what it leaves, whether it succeeds or fails. -/
theorem Preserves.left {ε σ α : Type} {I : σ → Prop} {m : EStateM ε σ α} (preserves : Preserves I m) {s : σ}
    (here : I s) : I (left (m s)) := by
  have ends := preserves.ends here
  unfold Ends at ends
  cases result : m s <;> rw [result] at ends <;> exact ends

theorem exists_ok_of_succeeds {ε σ α : Type} {result : EStateM.Result ε σ α}
    (success : succeeds result = true) : ∃ a, result = .ok a (left result) := by
  cases result with
  | ok a t => exact ⟨a, rfl⟩
  | error e t => cases success

end Outcome

/-- A lowered program whose call lists have been computed. -/
inductive Linked : Program → Prop where
  | intro {tree : Surface.ProgramTree} {w v : Workspace} {stats : Calls.SiteStats} :
      tree.lower = .ok w.program → Calls.computeSites w = .ok stats v → Linked v.program

theorem Program.Binds.valued {p q : Program} (binds : Program.Binds p q) (valued : p.Valued) :
    q.Valued := by
  intro n s v live define
  have other : (p.kind n).isCall = false := by
    rw [← binds.isCall, define]
    rfl
  rw [binds.kind_of_other other] at define
  rw [Symbol.isValue_of_core (binds.core s)]
  exact valued n s v (binds.live_iff.mp live) define

namespace Linked

variable {p : Program}

theorem settled (linked : Linked p) : p.Settled := by
  obtain ⟨lowered, sites⟩ := linked
  exact ((Calls.computeSites_ends (Surface.ProgramTree.lowered lowered).1).of_ok sites).1

theorem lexical (linked : Linked p) : p.Lexical := by
  obtain ⟨lowered, sites⟩ := linked
  obtain ⟨settled, lexical, _⟩ := Surface.ProgramTree.lowered lowered
  exact lexical.binds ((Calls.computeSites_ends settled).of_ok sites).2.1

theorem valued (linked : Linked p) : p.Valued := by
  obtain ⟨lowered, sites⟩ := linked
  obtain ⟨settled, _, valued⟩ := Surface.ProgramTree.lowered lowered
  exact ((Calls.computeSites_ends settled).of_ok sites).2.1.valued valued

/-- Every call is listed at its target. -/
theorem listed (linked : Linked p) : p.Listed [] := by
  obtain ⟨lowered, sites⟩ := linked
  exact ((Calls.computeSites_ends (Surface.ProgramTree.lowered lowered).1).of_ok sites).2.2.1

/-- No call is listed twice. -/
theorem callers_nodup (linked : Linked p) {f : SymbolId} (member : f ∈ p.registries.fns) :
    (p.symbol f).callers.Nodup := by
  obtain ⟨lowered, sites⟩ := linked
  exact ((Calls.computeSites_ends (Surface.ProgramTree.lowered lowered).1).of_ok sites).2.2.2 f
    member

end Linked

namespace Surface

/-- `nestedProgram` with its call lists. -/
@[irreducible] def nestedLinked : Program := (left (Calls.computeSites { program := nestedProgram })).program

theorem nestedLinked_linked : Linked nestedLinked := by
  have success : succeeds (Calls.computeSites { program := nestedProgram }) = true := by
    decide +kernel
  obtain ⟨stats, sites⟩ := exists_ok_of_succeeds success
  unfold nestedLinked
  exact .intro nestedTree_lowers sites

end Surface

end MiddleEnd
