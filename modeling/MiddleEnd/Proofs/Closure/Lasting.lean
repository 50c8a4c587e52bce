import MiddleEnd.Proofs.Arena.Destroy

/-! What closure conversion never changes in a symbol. -/

namespace MiddleEnd

theorem FlagSet.contains_insert (flags : FlagSet) (flag other : Flag) :
    (flags.insert flag).contains other = (decide (other = flag) || flags.contains other) := by
  rw [insert]
  split
  · rename_i there
    by_cases same : other = flag
    · simp [same, there]
    · simp [same]
  · rename_i missing
    have apart (same : other ≠ flag) : other.rank < flag.rank ∨ flag.rank < other.rank := by
      cases other <;> cases flag <;> first | exact absurd rfl same | decide
    by_cases same : other = flag
    · simp [contains, same]
    · have ranks := apart same
      cases there : flags.toList.contains other <;>
        simp_all [contains]

namespace Symbol

/-- The symbol `t` is `s`, in a program that has been converted further: it may list other calls, and
it may have become captured or flattened. -/
structure Lasts (s t : Symbol) : Prop where
  name : t.name = s.name
  ty : t.ty = s.ty
  kind : t.kind.bare = s.kind.bare
  flags (flag : Flag) : flag ≠ .captured → flag ≠ .flattened → t.hasFlag flag = s.hasFlag flag

namespace Lasts

variable {s t u : Symbol}

theorem refl : Lasts s s := ⟨rfl, rfl, rfl, fun _ _ _ => rfl⟩

theorem trans (first : Lasts s t) (second : Lasts t u) : Lasts s u where
  name := second.name.trans first.name
  ty := second.ty.trans first.ty
  kind := second.kind.trans first.kind
  flags flag captured flattened :=
    (second.flags flag captured flattened).trans (first.flags flag captured flattened)

theorem of_core (same : t.core = s.core) : Lasts s t where
  name := (core_eq_iff.mp same).1
  ty := (core_eq_iff.mp same).2.2.1
  kind := bare_of_core same
  flags _ _ _ := by rw [hasFlag, (core_eq_iff.mp same).2.2.2.2, hasFlag]

theorem insert {flag : Flag} (derived : flag = .captured ∨ flag = .flattened) :
    Lasts s { s with flags := s.flags.insert flag } where
  name := rfl
  ty := rfl
  kind := rfl
  flags other captured flattened := by
    have different : other ≠ flag := by
      rintro rfl
      exact derived.elim captured flattened
    simp [hasFlag, FlagSet.contains_insert, different]

end Lasts

end Symbol

theorem Program.lasts_attachFlag {p : Program} (s : SymbolId) {flag : Flag} (v : SymbolId)
    (derived : flag = .captured ∨ flag = .flattened) :
    (p.symbol v).Lasts ((p.attachFlag s flag).symbol v) := by
  rw [attachFlag, symbol_modifySymbol]
  split
  · exact .insert derived
  · exact .refl

end MiddleEnd
