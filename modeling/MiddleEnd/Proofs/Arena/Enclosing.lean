import MiddleEnd.Proofs.Settled.Lawful

/-! The way out from a function, through the functions that declare each other. -/

namespace MiddleEnd.Program

/-- `p.Around f l`: going on to the declaring function, one comes from `f` through the functions `l` to
one that no function declares. -/
inductive Around (p : Program) : SymbolId → List SymbolId → Prop
  | out {f : SymbolId} : p.declaringFn? f = none → Around p f []
  | up {f g : SymbolId} {l : List SymbolId} : p.declaringFn? f = some g → Around p g l →
      Around p f (g :: l)

variable {p : Program} {f g : SymbolId} {l : List SymbolId}

namespace Around

theorem unique {l' : List SymbolId} (around : p.Around f l) (other : p.Around f l') : l = l' := by
  induction around generalizing l' with
  | out none =>
    cases other with
    | out => rfl
    | up some => cases none.symm.trans some
  | up some _ ih =>
    cases other with
    | out none => cases none.symm.trans some
    | up some' rest =>
      cases some.symm.trans some'
      exact congrArg _ (ih rest)

/-- From a function on the way, the way is shorter. -/
theorem onward (around : p.Around f l) (member : g ∈ l) :
    ∃ rest, p.Around g rest ∧ rest.length < l.length := by
  induction around with
  | out => exact (List.not_mem_nil member).elim
  | up _ around ih =>
    rcases List.mem_cons.mp member with rfl | later
    · exact ⟨_, around, Nat.lt_succ_self _⟩
    · obtain ⟨rest, onward, shorter⟩ := ih later
      exact ⟨rest, onward, Nat.lt_succ_of_lt shorter⟩

theorem not_mem (around : p.Around f l) : f ∉ l := by
  intro member
  obtain ⟨rest, again, shorter⟩ := around.onward member
  rw [around.unique again] at shorter
  exact Nat.lt_irrefl _ shorter

theorem nodup (around : p.Around f l) : l.Nodup := by
  induction around with
  | out => exact List.nodup_nil
  | up _ around ih => exact List.nodup_cons.mpr ⟨around.not_mem, ih⟩

theorem isFn (around : p.Around f l) (member : g ∈ l) : p.isFn g = true := by
  induction around with
  | out => exact (List.not_mem_nil member).elim
  | up declared _ ih =>
    rcases List.mem_cons.mp member with rfl | later
    · exact (Option.filter_eq_some_iff.mp declared).2
    · exact ih later

theorem length_le (around : p.Around f l) : l.length ≤ p.symbols.size := by
  have distinct : (l.map SymbolId.index).Nodup := around.nodup.map fun _ _ => SymbolId.index_inj.mp
  have inside : l.map SymbolId.index ⊆ List.range p.symbols.size := by
    intro i member
    obtain ⟨g, onWay, rfl⟩ := List.mem_map.mp member
    exact List.mem_range.mpr (known_of_isFn (around.isFn onWay))
  simpa using (List.subperm_of_subset distinct inside).length_le

theorem functionsAround_eq (around : p.Around f l) {fuel : Nat} (room : l.length < fuel) :
    p.functionsAround fuel f = l := by
  induction around generalizing fuel with
  | out none =>
    cases fuel with
    | zero => rfl
    | succ fuel => rw [functionsAround, none]
  | up declared _ ih =>
    cases fuel with
    | zero => omega
    | succ fuel =>
      rw [functionsAround, declared]
      exact congrArg _ (ih (Nat.lt_of_succ_lt_succ room))

/-- The way out, if there is one, is what is listed. -/
theorem eq_lexicalAncestors (around : p.Around f l) : l = p.lexicalAncestors f :=
  (around.functionsAround_eq (Nat.lt_succ_of_le around.length_le)).symm

theorem of_short {fuel : Nat} (short : (p.functionsAround fuel f).length < fuel) :
    p.Around f (p.functionsAround fuel f) := by
  induction fuel generalizing f with
  | zero => omega
  | succ fuel ih =>
    rw [functionsAround] at short ⊢
    cases declared : p.declaringFn? f with
    | none => exact .out declared
    | some outer =>
      rw [declared] at short
      exact .up declared (ih (Nat.lt_of_succ_lt_succ short))

end Around

/-- There is a way out exactly if fewer functions are listed than could be. -/
theorem exists_around_iff :
    (∃ l, p.Around f l) ↔ (p.lexicalAncestors f).length ≤ p.symbols.size := by
  constructor
  · rintro ⟨l, around⟩
    exact around.eq_lexicalAncestors ▸ around.length_le
  · exact fun short => ⟨_, .of_short (Nat.lt_succ_of_le short)⟩

end MiddleEnd.Program
