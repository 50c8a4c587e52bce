import MiddleEnd.Proofs.Arena.Upright
import MiddleEnd.Proofs.Settled.Lawful

namespace MiddleEnd.Program

variable {p : Program}

theorem Settled.fit (settled : p.Settled) {n : NodeId} (live : p.Live n) : p.Fit n := by
  have lawful := settled.lawful live
  constructor
  · intro v kind
    rw [kind] at lawful
    exact settled.symbols_live (lawful.ref_value rfl).1
  · intro f callee
    have fn := lawful.callee_fn callee
    exact ⟨settled.symbols_live (known_of_isFn fn), fn⟩
  · intro s defines
    exact ⟨settled.symbols_live (settled.sound.bound_known defines), settled.sound.bound defines⟩
  · intro test body testFirst kind
    rw [kind] at lawful
    have fits : (p.kind test).tag = .symRef :=
      lawful.fits (show (Slot.test, test) ∈ (NodeKind.loop test body testFirst).slots by
        simp [NodeKind.slots])
    exact NodeKind.symRef?_isSome_iff.mpr fits

theorem Settled.spotless (settled : p.Settled) : p.Spotless := by
  have rooted := settled.sound.rooted
  refine spotless_iff.mpr ⟨fun n reached => settled.fit (settled.sound.live_of_reached reached),
    fun n c reached child => ?_, fun m member r block => ?_⟩
  · have live := settled.sound.live_of_reached reached
    exact ⟨settled.sound.forest.child_live live child, settled.sound.forest.child_parent live child,
      settled.sound.scope_below reached child⟩
  · exact ⟨rooted.root_top member block, rooted.root_scope member block,
      rooted.root_block member block⟩

/-- Nothing is wrong with a settled program. -/
theorem Settled.verify_eq_nil (settled : p.Settled) : p.verify = [] := by
  refine verify_of_spotless settled.sound.branches settled.spotless
    (fun _ => settled.sound.live_of_reached) settled.sound.exact ?_
  intro f data c _ found member
  refine settled.callers (f := f) ?_
  simpa [Symbol.callers, found] using member

end MiddleEnd.Program
