import MiddleEnd.Proofs.Arena.Way

/-! The registries that a fresh walk builds, and when the recorded ones agree with them. -/

namespace MiddleEnd

namespace Registries

/-- Beside a list without repetition, only a list without repetition can have the same length and the
same entries. -/
theorem agree_iff {α : Type} [BEq α] [LawfulBEq α] {xs ys : List α} (distinct : xs.Nodup) :
    agree xs ys = true ↔ ys.Nodup ∧ ∀ a, a ∈ ys ↔ a ∈ xs := by
  simp only [agree, Bool.and_eq_true, beq_iff_eq, List.all_eq_true, List.contains_iff_mem]
  constructor
  · rintro ⟨⟨length, inside⟩, back⟩
    have perm : xs.Perm ys :=
      (List.subperm_of_subset distinct inside).perm_of_length_le length.symm.le
    exact ⟨perm.nodup_iff.mp distinct, fun a => ⟨back a, inside a⟩⟩
  · rintro ⟨distinct', same⟩
    have perm := (List.perm_ext_iff_of_nodup distinct distinct').mpr fun a => (same a).symm
    exact ⟨⟨perm.length_eq, fun a => (same a).mpr⟩, fun a => (same a).mp⟩

theorem sameEntries_iff {r r' : Registries} : r.sameEntries r' = true ↔
    agree r.calls r'.calls = true ∧ ∀ sort, agree (r.entries sort) (r'.entries sort) = true := by
  simp only [sameEntries, Bool.and_eq_true]
  constructor
  · rintro ⟨⟨⟨⟨⟨calls, fns⟩, vars⟩, args⟩, types⟩, modules⟩
    refine ⟨calls, fun sort => ?_⟩
    cases sort <;> assumption
  · rintro ⟨calls, entries⟩
    exact ⟨⟨⟨⟨⟨calls, entries .fn⟩, entries .var⟩, entries .arg⟩, entries .type⟩,
      entries .moduleRoot⟩

end Registries

namespace Program

variable {p : Program}

theorem mem_entries_foldl_addSymbol {modules : List SymbolId} {r : Registries} {s : SymbolId}
    {sort : SymbolSort} :
    s ∈ (modules.foldl (fun r m => r.addSymbol m (p.symbol m).kind) r).entries sort ↔
      s ∈ r.entries sort ∨ s ∈ modules ∧ (p.symbol s).kind.sort = sort := by
  induction modules generalizing r with
  | nil => simp
  | cons m modules ih =>
    rw [List.foldl_cons, ih, Registries.addSymbol, Registries.entries_mapKind]
    by_cases sorted : (p.symbol m).kind.sort = sort
    · rw [if_pos sorted, Registries.mem_insertNew, List.mem_cons]
      constructor
      · rintro ((old | rfl) | ⟨later, isSort⟩)
        · exact .inl old
        · exact .inr ⟨.inl rfl, sorted⟩
        · exact .inr ⟨.inr later, isSort⟩
      · rintro (old | ⟨rfl | later, isSort⟩)
        · exact .inl (.inl old)
        · exact .inl (.inr rfl)
        · exact .inr ⟨later, isSort⟩
    · rw [if_neg sorted, List.mem_cons]
      constructor
      · rintro (old | ⟨later, isSort⟩)
        · exact .inl old
        · exact .inr ⟨.inr later, isSort⟩
      · rintro (old | ⟨rfl | later, isSort⟩)
        · exact .inl old
        · exact absurd isSort sorted
        · exact .inr ⟨later, isSort⟩

theorem foldl_addSymbol_calls {modules : List SymbolId} {r : Registries} :
    (modules.foldl (fun r m => r.addSymbol m (p.symbol m).kind) r).calls = r.calls := by
  induction modules generalizing r with
  | nil => rfl
  | cons m modules ih => rw [List.foldl_cons, ih, Registries.addSymbol, Registries.calls_mapKind]

theorem foldl_addSymbol_distinct {modules : List SymbolId} {r : Registries}
    (distinct : r.Distinct) :
    (modules.foldl (fun r m => r.addSymbol m (p.symbol m).kind) r).Distinct := by
  induction modules generalizing r with
  | nil => exact distinct
  | cons m modules ih =>
    exact ih (distinct.mapKind _ fun sort => Registries.insertNew_nodup (distinct.entries sort))

theorem Branches.exact_computeRegistries (branches : p.Branches)
    (live : ∀ n, p.Reached n → p.Live n) : p.Exact p.Reached p.computeRegistries := by
  have empty : ({} : Registries).Distinct :=
    ⟨List.nodup_nil, fun sort => by cases sort <;> exact List.nodup_nil⟩
  have start : p.Exact (fun _ => False)
      (p.modules.foldl (fun r m => r.addSymbol m (p.symbol m).kind) {}) :=
    { distinct := foldl_addSymbol_distinct empty
      mem_calls := fun {n} => by simp [foldl_addSymbol_calls]
      mem_entries := fun {s sort} => by
        rw [mem_entries_foldl_addSymbol]
        cases sort <;> simp [Registries.entries] }
  refine (start.enter (p.roots.flatMap p.preorder)).congr_inside fun n => ?_
  rw [branches.mem_walk_iff live, false_or]

/-- Registries that agree with exact ones are exact. -/
theorem Exact.sameEntries_iff {inside : NodeId → Prop} {r r' : Registries}
    (exact : p.Exact inside r) : r.sameEntries r' = true ↔ p.Exact inside r' := by
  rw [Registries.sameEntries_iff, Registries.agree_iff exact.distinct.calls]
  simp only [Registries.agree_iff (exact.distinct.entries _)]
  constructor
  · rintro ⟨⟨callsDistinct, calls⟩, entries⟩
    exact
      { distinct := ⟨callsDistinct, fun sort => (entries sort).1⟩
        mem_calls := fun {n} => by rw [calls, exact.mem_calls]
        mem_entries := fun {s sort} => by rw [(entries sort).2, exact.mem_entries] }
  · intro exact'
    exact ⟨⟨exact'.distinct.calls, fun n => by rw [exact'.mem_calls, exact.mem_calls]⟩,
      fun sort => ⟨exact'.distinct.entries sort, fun s => by
        rw [exact'.mem_entries, exact.mem_entries]⟩⟩

end Program

end MiddleEnd
