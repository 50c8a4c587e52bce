import MiddleEnd.Proofs.Settled.Verify
import MiddleEnd.Proofs.Surface.Lowering

/-! What a lowered program lists, and in which order. -/

namespace MiddleEnd

namespace Registries

variable {r : Registries}

theorem foldl_insertNew {α : Type} [BEq α] [LawfulBEq α] {xs ys : List α}
    (distinct : (xs ++ ys).Nodup) : ys.foldl insertNew xs = xs ++ ys := by
  induction ys generalizing xs with
  | nil => exact (List.append_nil xs).symm
  | cons y ys ih =>
    have new : y ∉ xs := fun member =>
      (List.nodup_append'.mp distinct).2.2 member List.mem_cons_self
    rw [List.append_cons] at distinct
    rw [List.foldl_cons, insertNew, if_neg (by simpa using new), ih distinct, ← List.append_cons]

end Registries

namespace Program

variable {p : Program}

theorem calls_foldl_enter (ids : List NodeId) (r : Registries) :
    (ids.foldl p.enter r).calls =
      (ids.filter fun n => (p.kind n).isCall).foldl Registries.insertNew r.calls := by
  induction ids generalizing r with
  | nil => rfl
  | cons n ids ih =>
    have step : (p.enter r n).calls =
        if (p.kind n).isCall then Registries.insertNew r.calls n else r.calls := by
      rw [enter]
      cases (p.kind n).defines? <;> simp only [Registries.addSymbol, Registries.calls_mapKind] <;>
        split <;> rfl
    rw [List.foldl_cons, ih, step, List.filter_cons]
    split <;> rfl

theorem entries_foldl_enter (ids : List NodeId) (sort : SymbolSort) (r : Registries) :
    (ids.foldl p.enter r).entries sort =
      ((ids.filterMap fun n => (p.kind n).defines?).filter fun s =>
        (p.symbol s).kind.sort = sort).foldl Registries.insertNew (r.entries sort) := by
  induction ids generalizing r with
  | nil => rfl
  | cons n ids ih =>
    have calls (r : Registries) : (if (p.kind n).isCall then r.addCall n else r).entries sort =
        r.entries sort := by
      split
      · exact Registries.entries_mapCalls ..
      · rfl
    rw [List.foldl_cons, ih, List.filterMap_cons]
    cases defines : (p.kind n).defines? with
    | none =>
      have step : (p.enter r n).entries sort = r.entries sort := by
        simp only [enter, defines, calls]
      rw [step]
    | some s =>
      have step : (p.enter r n).entries sort = if (p.symbol s).kind.sort = sort then
          Registries.insertNew (r.entries sort) s else r.entries sort := by
        simp only [enter, defines, Registries.addSymbol, Registries.entries_mapKind, calls]
      rw [step, List.filter_cons]
      by_cases here : (p.symbol s).kind.sort = sort
      · simp [here]
      · simp [here]

theorem entries_foldl_addSymbol (modules : List SymbolId) (sort : SymbolSort) (r : Registries) :
    (modules.foldl (fun r m => r.addSymbol m (p.symbol m).kind) r).entries sort =
      (modules.filter fun m => (p.symbol m).kind.sort = sort).foldl Registries.insertNew
        (r.entries sort) := by
  induction modules generalizing r with
  | nil => rfl
  | cons m modules ih =>
    rw [List.foldl_cons, ih, Registries.addSymbol, Registries.entries_mapKind, List.filter_cons]
    by_cases here : (p.symbol m).kind.sort = sort
    · simp [here]
    · simp [here]

theorem Sound.traversal_nodup (sound : p.Sound) : (p.roots.flatMap p.preorder).Nodup := by
  refine List.nodup_flatMap.mpr ⟨fun r _ => sound.forest.preorder_nodup r, ?_⟩
  refine sound.rooted.roots_nodup.imp_of_mem fun {r r'} root root' different n inside inside' => ?_
  have above := (sound.forest.mem_preorder.mp inside).2
  have above' := (sound.forest.mem_preorder.mp inside').2
  rcases above.total above' with up | up
  · exact different (up.eq_of_top (sound.rooted.top_of_root root'))
  · exact different (up.eq_of_top (sound.rooted.top_of_root root)).symm

/-- The symbols that the nodes of a program define, one for each definition, have no repetition. -/
theorem Sound.definitions_nodup (sound : p.Sound) {ids : List NodeId} (distinct : ids.Nodup) :
    (ids.filterMap fun n => (p.kind n).defines?).Nodup := by
  rw [List.Nodup, List.pairwise_filterMap]
  refine distinct.imp fun {m n} different s first s' second => ?_
  rintro rfl
  exact different (sound.bound_unique first second)

/-- The registries list everything in the order in which it stands in the modules. -/
structure InTextOrder (p : Program) : Prop where
  calls : p.registries.calls = (p.roots.flatMap p.preorder).filter fun n => (p.kind n).isCall
  symbols (sort : SymbolSort) : sort ≠ .moduleRoot → p.registries.entries sort =
    ((p.roots.flatMap p.preorder).filterMap fun n => (p.kind n).defines?).filter fun s =>
      (p.symbol s).kind.sort = sort
  modules : p.registries.modules = p.modules

theorem Ordered.inTextOrder (ordered : p.Ordered) (tidy : p.Tidy) : p.InTextOrder := by
  have sound := tidy.sound
  have distinct := sound.traversal_nodup
  have moduleSort (m : SymbolId) (member : m ∈ p.modules) :
      (p.symbol m).kind.sort = .moduleRoot := by
    obtain ⟨block, found⟩ := sound.rooted.sort_module member
    rw [moduleBlock?, Symbol.moduleBlock?] at found
    cases kind : (p.symbol m).kind <;> simp_all [SymbolKind.sort]
  have innerSort (s : SymbolId)
      (member : s ∈ (p.roots.flatMap p.preorder).filterMap fun n => (p.kind n).defines?) :
      (p.symbol s).kind.sort ≠ .moduleRoot := by
    obtain ⟨n, met, defines⟩ := List.mem_filterMap.mp member
    exact (tidy.lawful (sound.live_of_traversal met)).defines_local defines
  constructor
  · rw [ordered, computeRegistries, calls_foldl_enter, foldl_addSymbol_calls,
      Registries.foldl_insertNew (by simpa using distinct.filter _)]
    rfl
  · intro sort other
    have none : p.modules.filter (fun m => (p.symbol m).kind.sort = sort) = [] :=
      List.filter_eq_nil_iff.mpr fun m member here => by
        rw [moduleSort m member] at here
        exact other (of_decide_eq_true here).symm
    have start : ({} : Registries).entries sort = [] := by cases sort <;> rfl
    rw [ordered, computeRegistries, entries_foldl_enter, entries_foldl_addSymbol, none,
      List.foldl_nil, start,
      Registries.foldl_insertNew (by simpa using (sound.definitions_nodup distinct).filter _)]
    rfl
  · have none : ((p.roots.flatMap p.preorder).filterMap fun n => (p.kind n).defines?).filter
        (fun s => (p.symbol s).kind.sort = .moduleRoot) = [] :=
      List.filter_eq_nil_iff.mpr fun s member => by simpa using innerSort s member
    have all : p.modules.filter (fun m => (p.symbol m).kind.sort = .moduleRoot) = p.modules :=
      List.filter_eq_self.mpr fun m member => by simpa using moduleSort m member
    show p.registries.entries .moduleRoot = p.modules
    rw [ordered, computeRegistries, entries_foldl_enter, none, List.foldl_nil,
      entries_foldl_addSymbol, all]
    exact Registries.foldl_insertNew sound.rooted.modules_nodup

end Program

/-- Lowering a surface program fails for a reason that is never the arena's, or it makes a program
that the survey finds sound and whose registries are those that a walk over the modules builds, entry
for entry in the order of the text. -/
theorem Surface.ProgramTree.lower_sound (tree : ProgramTree) :
    match tree.lower with
    | .ok p => p.verify = [] ∧ p.registries = p.computeRegistries ∧ p.InTextOrder
    | .error e => ∀ fault, e ≠ .arena fault := by
  have spec := tree.lower_spec
  cases result : tree.lower with
  | error e =>
    rw [result] at spec
    exact spec
  | ok p =>
    rw [result] at spec
    obtain ⟨s, ⟨ready, _, _⟩, rfl⟩ := spec
    exact ⟨ready.settled.verify_eq_nil, ready.ordered, ready.ordered.inTextOrder ready.settled.toTidy⟩

end MiddleEnd
