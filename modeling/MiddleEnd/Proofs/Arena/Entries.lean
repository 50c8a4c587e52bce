import MiddleEnd.Proofs.Arena.Lookup

namespace MiddleEnd

/-- Which registry a symbol belongs to. -/
inductive SymbolSort where
  | var
  | arg
  | fn
  | type
  | moduleRoot
  deriving DecidableEq, Repr

def SymbolKind.sort : SymbolKind → SymbolSort
  | var => .var
  | arg _ => .arg
  | fn _ => .fn
  | type => .type
  | moduleRoot _ => .moduleRoot

namespace Registries

/-- The registry of the symbols of one sort. -/
def entries (r : Registries) : SymbolSort → List SymbolId
  | .var => r.vars
  | .arg => r.args
  | .fn => r.fns
  | .type => r.types
  | .moduleRoot => r.modules

theorem mem_insertNew {α : Type} [BEq α] [LawfulBEq α] {entries : List α} {entry a : α} :
    a ∈ insertNew entries entry ↔ a ∈ entries ∨ a = entry := by
  unfold insertNew
  split
  · rename_i there
    constructor
    · exact .inl
    · rintro (old | rfl)
      · exact old
      · exact List.contains_iff_mem.mp there
  · simp

theorem insertNew_nodup {α : Type} [BEq α] [LawfulBEq α] {entries : List α} {entry : α}
    (distinct : entries.Nodup) : (insertNew entries entry).Nodup := by
  unfold insertNew
  split
  · exact distinct
  · rename_i missing
    rw [List.nodup_append]
    refine ⟨distinct, by simp, fun a old b new same => missing ?_⟩
    rw [List.contains_iff_mem, ← List.mem_singleton.mp new, ← same]
    exact old

@[simp] theorem calls_mapKind (r : Registries) (kind : SymbolKind)
    (f : List SymbolId → List SymbolId) : (r.mapKind kind f).calls = r.calls := by
  cases kind <;> rfl

@[simp] theorem entries_mapCalls (r : Registries) (f : List NodeId → List NodeId)
    (sort : SymbolSort) : (r.mapCalls f).entries sort = r.entries sort := by
  cases sort <;> rfl

theorem entries_mapKind (r : Registries) (kind : SymbolKind) (f : List SymbolId → List SymbolId)
    (sort : SymbolSort) :
    (r.mapKind kind f).entries sort =
      if kind.sort = sort then f (r.entries sort) else r.entries sort := by
  cases kind <;> cases sort <;> simp [mapKind, entries, SymbolKind.sort]

/-- No registry holds an entry twice. -/
structure Distinct (r : Registries) : Prop where
  calls : r.calls.Nodup
  entries (sort : SymbolSort) : (r.entries sort).Nodup

theorem Distinct.mapCalls {r : Registries} {f : List NodeId → List NodeId} (distinct : r.Distinct)
    (kept : (f r.calls).Nodup) : (r.mapCalls f).Distinct where
  calls := kept
  entries sort := by
    rw [entries_mapCalls]
    exact distinct.entries sort

theorem Distinct.mapKind {r : Registries} {f : List SymbolId → List SymbolId}
    (distinct : r.Distinct) (kind : SymbolKind) (kept : ∀ sort, (f (r.entries sort)).Nodup) :
    (r.mapKind kind f).Distinct where
  calls := by
    rw [calls_mapKind]
    exact distinct.calls
  entries sort := by
    rw [entries_mapKind]
    split
    · exact kept sort
    · exact distinct.entries sort

end Registries

namespace Program

variable {p : Program}

theorem mem_calls_enter {r : Registries} {id n : NodeId} :
    n ∈ (p.enter r id).calls ↔ n ∈ r.calls ∨ n = id ∧ (p.kind id).isCall = true := by
  have first : n ∈ (if (p.kind id).isCall then r.addCall id else r).calls ↔
      n ∈ r.calls ∨ n = id ∧ (p.kind id).isCall = true := by
    by_cases call : (p.kind id).isCall = true
    · simp [call, Registries.addCall, Registries.mapCalls, Registries.mem_insertNew]
    · simp [call]
  unfold enter
  cases (p.kind id).defines? with
  | none => exact first
  | some sym => simpa [Registries.addSymbol] using first

theorem mem_entries_enter {r : Registries} {id : NodeId} {s : SymbolId} {sort : SymbolSort} :
    s ∈ (p.enter r id).entries sort ↔ s ∈ r.entries sort ∨
      (p.kind id).defines? = some s ∧ (p.symbol s).kind.sort = sort := by
  have first : (if (p.kind id).isCall then r.addCall id else r).entries sort = r.entries sort := by
    split <;> simp [Registries.addCall]
  unfold enter
  cases defines : (p.kind id).defines? with
  | none => simp [first]
  | some sym =>
    simp only [Registries.addSymbol, Registries.entries_mapKind, first]
    by_cases same : (p.symbol sym).kind.sort = sort
    · simp only [same, if_true, Registries.mem_insertNew, Option.some.injEq]
      constructor
      · rintro (old | rfl)
        · exact .inl old
        · exact .inr ⟨rfl, same⟩
      · rintro (old | ⟨rfl, _⟩)
        · exact .inl old
        · exact .inr rfl
    · simp only [same, if_false, Option.some.injEq]
      constructor
      · exact .inl
      · rintro (old | ⟨rfl, sorted⟩)
        · exact old
        · exact absurd sorted same

theorem mem_calls_leave {r : Registries} {id n : NodeId} :
    n ∈ (p.leave r id).calls ↔ n ∈ r.calls ∧ ¬ (n = id ∧ (p.kind id).isCall = true) := by
  have first : n ∈ (if (p.kind id).isCall then r.dropCall id else r).calls ↔
      n ∈ r.calls ∧ ¬ (n = id ∧ (p.kind id).isCall = true) := by
    by_cases call : (p.kind id).isCall = true
    · simp [call, Registries.dropCall, Registries.mapCalls]
    · simp [call]
  unfold leave
  cases (p.kind id).defines? with
  | none => exact first
  | some sym => simpa [Registries.dropSymbol] using first

theorem mem_entries_leave {r : Registries} {id : NodeId} {s : SymbolId} {sort : SymbolSort} :
    s ∈ (p.leave r id).entries sort ↔ s ∈ r.entries sort ∧
      ¬ ((p.kind id).defines? = some s ∧ (p.symbol s).kind.sort = sort) := by
  have first : (if (p.kind id).isCall then r.dropCall id else r).entries sort =
      r.entries sort := by
    split <;> simp [Registries.dropCall]
  unfold leave
  cases defines : (p.kind id).defines? with
  | none => simp [first]
  | some sym =>
    simp only [Registries.dropSymbol, Registries.entries_mapKind, first]
    by_cases same : (p.symbol sym).kind.sort = sort
    · simp only [same, if_true, List.mem_filter, bne_iff_ne, ne_eq, Option.some.injEq]
      refine and_congr_right fun _ => not_congr ⟨?_, ?_⟩
      · rintro rfl
        exact ⟨rfl, same⟩
      · rintro ⟨rfl, _⟩
        rfl
    · simp only [same, if_false, Option.some.injEq]
      refine ⟨fun old => ⟨old, ?_⟩, And.left⟩
      rintro ⟨rfl, sorted⟩
      exact same sorted

theorem enter_distinct {r : Registries} (distinct : r.Distinct) (id : NodeId) :
    (p.enter r id).Distinct := by
  have first : (if (p.kind id).isCall then r.addCall id else r).Distinct := by
    split
    · exact distinct.mapCalls (Registries.insertNew_nodup distinct.calls)
    · exact distinct
  unfold enter
  cases (p.kind id).defines? with
  | none => exact first
  | some sym => exact first.mapKind _ fun sort => Registries.insertNew_nodup (first.entries sort)

theorem leave_distinct {r : Registries} (distinct : r.Distinct) (id : NodeId) :
    (p.leave r id).Distinct := by
  have first : (if (p.kind id).isCall then r.dropCall id else r).Distinct := by
    split
    · exact distinct.mapCalls (distinct.calls.filter _)
    · exact distinct
  unfold leave
  cases (p.kind id).defines? with
  | none => exact first
  | some sym => exact first.mapKind _ fun sort => (first.entries sort).filter _

/-! Entering or leaving a list of nodes, one after the other. -/

theorem mem_calls_foldl_enter {ids : List NodeId} {r : Registries} {n : NodeId} :
    n ∈ (ids.foldl p.enter r).calls ↔ n ∈ r.calls ∨ n ∈ ids ∧ (p.kind n).isCall = true := by
  induction ids generalizing r with
  | nil => simp
  | cons id rest ih =>
    rw [List.foldl_cons, ih, mem_calls_enter, List.mem_cons]
    constructor
    · rintro ((old | ⟨rfl, call⟩) | ⟨later, call⟩)
      · exact .inl old
      · exact .inr ⟨.inl rfl, call⟩
      · exact .inr ⟨.inr later, call⟩
    · rintro (old | ⟨rfl | later, call⟩)
      · exact .inl (.inl old)
      · exact .inl (.inr ⟨rfl, call⟩)
      · exact .inr ⟨later, call⟩

theorem mem_entries_foldl_enter {ids : List NodeId} {r : Registries} {s : SymbolId}
    {sort : SymbolSort} :
    s ∈ (ids.foldl p.enter r).entries sort ↔ s ∈ r.entries sort ∨
      (∃ n ∈ ids, (p.kind n).defines? = some s) ∧ (p.symbol s).kind.sort = sort := by
  induction ids generalizing r with
  | nil => simp
  | cons id rest ih =>
    rw [List.foldl_cons, ih, mem_entries_enter]
    constructor
    · rintro ((old | ⟨defines, sorted⟩) | ⟨⟨n, later, defines⟩, sorted⟩)
      · exact .inl old
      · exact .inr ⟨⟨id, List.mem_cons_self, defines⟩, sorted⟩
      · exact .inr ⟨⟨n, List.mem_cons_of_mem _ later, defines⟩, sorted⟩
    · rintro (old | ⟨⟨n, member, defines⟩, sorted⟩)
      · exact .inl (.inl old)
      · rcases List.mem_cons.mp member with rfl | later
        · exact .inl (.inr ⟨defines, sorted⟩)
        · exact .inr ⟨⟨n, later, defines⟩, sorted⟩

theorem mem_calls_foldl_leave {ids : List NodeId} {r : Registries} {n : NodeId} :
    n ∈ (ids.foldl p.leave r).calls ↔ n ∈ r.calls ∧ ¬ (n ∈ ids ∧ (p.kind n).isCall = true) := by
  induction ids generalizing r with
  | nil => simp
  | cons id rest ih =>
    rw [List.foldl_cons, ih, mem_calls_leave, List.mem_cons]
    constructor
    · rintro ⟨⟨old, notFirst⟩, notLater⟩
      refine ⟨old, ?_⟩
      rintro ⟨rfl | later, call⟩
      · exact notFirst ⟨rfl, call⟩
      · exact notLater ⟨later, call⟩
    · rintro ⟨old, kept⟩
      refine ⟨⟨old, ?_⟩, fun ⟨later, call⟩ => kept ⟨.inr later, call⟩⟩
      rintro ⟨rfl, call⟩
      exact kept ⟨.inl rfl, call⟩

theorem mem_entries_foldl_leave {ids : List NodeId} {r : Registries} {s : SymbolId}
    {sort : SymbolSort} :
    s ∈ (ids.foldl p.leave r).entries sort ↔ s ∈ r.entries sort ∧
      ¬ ((∃ n ∈ ids, (p.kind n).defines? = some s) ∧ (p.symbol s).kind.sort = sort) := by
  induction ids generalizing r with
  | nil => simp
  | cons id rest ih =>
    rw [List.foldl_cons, ih, mem_entries_leave]
    constructor
    · rintro ⟨⟨old, notFirst⟩, notLater⟩
      refine ⟨old, ?_⟩
      rintro ⟨⟨n, member, defines⟩, sorted⟩
      rcases List.mem_cons.mp member with rfl | later
      · exact notFirst ⟨defines, sorted⟩
      · exact notLater ⟨⟨n, later, defines⟩, sorted⟩
    · rintro ⟨old, kept⟩
      refine ⟨⟨old, fun ⟨defines, sorted⟩ => kept ⟨⟨id, List.mem_cons_self, defines⟩, sorted⟩⟩, ?_⟩
      rintro ⟨⟨n, later, defines⟩, sorted⟩
      exact kept ⟨⟨n, List.mem_cons_of_mem _ later, defines⟩, sorted⟩

theorem foldl_enter_distinct {r : Registries} (distinct : r.Distinct) (ids : List NodeId) :
    (ids.foldl p.enter r).Distinct := by
  induction ids generalizing r with
  | nil => exact distinct
  | cons id rest ih => exact ih (enter_distinct distinct id)

theorem foldl_leave_distinct {r : Registries} (distinct : r.Distinct) (ids : List NodeId) :
    (ids.foldl p.leave r).Distinct := by
  induction ids generalizing r with
  | nil => exact distinct
  | cons id rest ih => exact ih (leave_distinct distinct id)

end Program

end MiddleEnd
