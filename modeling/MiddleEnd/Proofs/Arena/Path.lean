import MiddleEnd.Proofs.Arena.Forest

namespace MiddleEnd.Program

variable {p : Program}

theorem pathUp_succ (fuel : Nat) (n : NodeId) :
    p.pathUp (fuel + 1) n = n :: (p.parent? n).elim [] (p.pathUp fuel) := by
  rw [pathUp]
  unfold parent?
  cases (p.node n).parent <;> rfl

theorem above_of_mem_pathUp {fuel : Nat} {a n : NodeId} (member : a ∈ p.pathUp fuel n) :
    p.Above a n := by
  induction fuel generalizing n with
  | zero => simp [pathUp] at member
  | succ fuel ih =>
    rw [pathUp_succ] at member
    rcases List.mem_cons.mp member with rfl | later
    · exact .refl
    · cases link : p.parent? n with
      | none => simp [link] at later
      | some owner =>
        rw [link] at later
        exact .up link (ih later)

namespace Forest

theorem pathUp_nodup (forest : p.Forest) (fuel : Nat) (n : NodeId) : (p.pathUp fuel n).Nodup := by
  induction fuel generalizing n with
  | zero => exact List.nodup_nil
  | succ fuel ih =>
    rw [pathUp_succ]
    cases link : p.parent? n with
    | none => simp
    | some owner =>
      refine List.nodup_cons.mpr ⟨fun member => ?_, ih owner⟩
      exact forest.acyclic link (above_of_mem_pathUp member)

theorem known_of_mem_pathUp (forest : p.Forest) {fuel : Nat} {a n : NodeId}
    (known : n.index < p.nodes.size) (member : a ∈ p.pathUp fuel n) :
    a.index < p.nodes.size := by
  have above := above_of_mem_pathUp member
  clear member
  induction above with
  | refl => exact known
  | up link _ ih => exact ih (forest.owner_known link)

/-- A path visits no node twice, so it is no longer than the arena. -/
theorem pathUp_length_le (forest : p.Forest) (fuel : Nat) {n : NodeId}
    (known : n.index < p.nodes.size) : (p.pathUp fuel n).length ≤ p.nodes.size := by
  have distinct : ((p.pathUp fuel n).map NodeId.index).Nodup :=
    List.Pairwise.map NodeId.index (fun _ _ different same => different (NodeId.index_inj.mp same))
      (forest.pathUp_nodup fuel n)
  have inside : (p.pathUp fuel n).map NodeId.index ⊆ List.range p.nodes.size := by
    intro i member
    obtain ⟨a, onPath, rfl⟩ := List.mem_map.mp member
    exact List.mem_range.mpr (forest.known_of_mem_pathUp known onPath)
  simpa using (List.subperm_of_subset distinct inside).length_le

end Forest

/-- A path that did not use up its fuel is whole. -/
theorem pathUp_succ_of_short {fuel : Nat} {n : NodeId} (short : (p.pathUp fuel n).length < fuel) :
    p.pathUp (fuel + 1) n = p.pathUp fuel n := by
  induction fuel generalizing n with
  | zero => simp at short
  | succ fuel ih =>
    rw [pathUp_succ (fuel + 1), pathUp_succ fuel]
    cases link : p.parent? n with
    | none => rfl
    | some owner =>
      rw [pathUp_succ, link] at short
      have shorter : (p.pathUp fuel owner).length < fuel := by simpa using short
      simp only [Option.elim_some, ih shorter]

namespace Forest

theorem path_eq (forest : p.Forest) (n : NodeId) :
    p.path n = n :: (p.parent? n).elim [] p.path := by
  unfold path
  by_cases known : n.index < p.nodes.size
  · have short := forest.pathUp_length_le (p.nodes.size + 1) known
    rw [← pathUp_succ_of_short (by omega), pathUp_succ]
  · have top : p.parent? n = none := by
      rw [parent?, node_of_not_known (Nat.not_lt.mp known)]
      rfl
    rw [pathUp_succ, top]
    rfl

theorem path_of_parent (forest : p.Forest) {n owner : NodeId} (link : p.parent? n = some owner) :
    p.path n = n :: p.path owner := by
  rw [forest.path_eq, link]
  rfl

theorem path_of_top (forest : p.Forest) {n : NodeId} (top : p.parent? n = none) :
    p.path n = [n] := by
  rw [forest.path_eq, top]
  rfl

theorem path_length_le (forest : p.Forest) {n : NodeId} (known : n.index < p.nodes.size) :
    (p.path n).length ≤ p.nodes.size :=
  forest.pathUp_length_le _ known

theorem mem_path_iff (forest : p.Forest) {a n : NodeId} : a ∈ p.path n ↔ p.Above a n := by
  constructor
  · exact above_of_mem_pathUp
  · intro above
    induction above with
    | refl => rw [forest.path_eq]; exact List.mem_cons_self
    | up link _ ih => rw [forest.path_of_parent link]; exact List.mem_cons_of_mem _ ih

theorem isAncestor_iff (forest : p.Forest) {a n : NodeId} :
    p.isAncestor a n = true ↔ p.Above a n := by
  rw [isAncestor, List.contains_iff_mem, forest.mem_path_iff]

/-- A path ends at the only node on it without an owner. -/
theorem getLast_path (forest : p.Forest) {a n : NodeId} (above : p.Above a n)
    (top : p.parent? a = none) : (p.path n).getLast? = some a := by
  induction above with
  | refl => simp [forest.path_of_top top]
  | up link _ ih =>
    rw [forest.path_of_parent link, List.getLast?_cons, ih]
    rfl

/-- Something stands at the top of every path. -/
theorem exists_top (forest : p.Forest) (n : NodeId) :
    ∃ top, p.Above top n ∧ p.parent? top = none := by
  induction length : (p.path n).length using Nat.strongRecOn generalizing n with
  | _ size ih =>
    cases link : p.parent? n with
    | none => exact ⟨n, .refl, link⟩
    | some owner =>
      have shorter : (p.path owner).length < size := by
        rw [← length, forest.path_of_parent link]
        simp
      obtain ⟨top, above, isTop⟩ := ih _ shorter owner rfl
      exact ⟨top, .up link above, isTop⟩

end Forest

end MiddleEnd.Program
