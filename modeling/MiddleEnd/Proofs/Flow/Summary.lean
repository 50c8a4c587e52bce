import MiddleEnd.Flow.Liveness
import MiddleEnd.Proofs.Flow.BitSet

namespace MiddleEnd.Flow

/-- What an access does to a bit, seen from after it: a read of the bit's local sets it, a write
clears it, and no other access changes it. -/
def effect (locals : Array SymbolId) (i : Nat) : Access → Option Bool
  | .read sym => if (bitOf? locals sym).map Fin.val = some i then some true else none
  | .write sym => if (bitOf? locals sym).map Fin.val = some i then some false else none

variable {locals : Array SymbolId} {i : Nat}

/-! The walk back over accesses: the first of them that changes a bit decides it. -/

theorem bit_before (access : Access) (live : BitSet locals.size) :
    (before locals access live).bit i = (effect locals i access).getD (live.bit i) := by
  cases access with
  | read sym =>
    cases found : bitOf? locals sym with
    | none => simp [before, effect, found]
    | some bit =>
      by_cases same : i = bit
      · subst same
        simp [before, effect, found, BitSet.bit_insert]
      · simp [before, effect, found, same, Ne.symm same, BitSet.bit_insert]
  | write sym =>
    cases found : bitOf? locals sym with
    | none => simp [before, effect, found]
    | some bit =>
      by_cases same : i = bit
      · subst same
        simp [before, effect, found, BitSet.bit_erase]
      · simp [before, effect, found, same, Ne.symm same, BitSet.bit_erase]

theorem bit_foldr_before (sequence : List Access) (live : BitSet locals.size) :
    (sequence.foldr (before locals) live).bit i =
      (sequence.findSome? (effect locals i)).getD (live.bit i) := by
  induction sequence with
  | nil => rfl
  | cons access rest ih =>
    rw [List.foldr_cons, bit_before, ih, List.findSome?_cons]
    cases effect locals i access <;> rfl

/-! The summary of a block. -/

namespace Summary

variable {s : Summary locals} {sym : SymbolId} {bit : Fin locals.size}

theorem add_read (found : bitOf? locals sym = some bit) : s.add locals (.read sym) =
    if s.seen.contains bit then s
    else { s with seen := (s.seen.insert bit).2, uses := (s.uses.insert bit).2 } := by
  cases seen : s.seen.contains bit <;> simp [add, found, BitSet.insert, seen]

theorem add_write (found : bitOf? locals sym = some bit) : s.add locals (.write sym) =
    if s.seen.contains bit then s
    else { s with seen := (s.seen.insert bit).2, defs := (s.defs.insert bit).2 } := by
  cases seen : s.seen.contains bit <;> simp [add, found, BitSet.insert, seen]

/-- An access adds a bit to the summary if it is the first to change that bit. -/
theorem bit_add (s : Summary locals) (access : Access) (i : Nat) :
    (s.add locals access).seen.bit i = (s.seen.bit i || (effect locals i access).isSome) ∧
    (s.add locals access).uses.bit i =
      (s.uses.bit i || (!s.seen.bit i && effect locals i access == some true)) ∧
    (s.add locals access).defs.bit i =
      (s.defs.bit i || (!s.seen.bit i && effect locals i access == some false)) := by
  cases access with
  | read sym =>
    cases found : bitOf? locals sym with
    | none => simp [add, effect, found]
    | some bit =>
      rw [add_read found, BitSet.contains_eq]
      by_cases same : i = bit
      · subst same
        cases seen : s.seen.bit bit <;> simp [effect, found, seen, BitSet.bit_insert]
      · cases seen : s.seen.bit bit <;>
          simp [effect, found, same, Ne.symm same, BitSet.bit_insert]
  | write sym =>
    cases found : bitOf? locals sym with
    | none => simp [add, effect, found]
    | some bit =>
      rw [add_write found, BitSet.contains_eq]
      by_cases same : i = bit
      · subst same
        cases seen : s.seen.bit bit <;> simp [effect, found, seen, BitSet.bit_insert]
      · cases seen : s.seen.bit bit <;>
          simp [effect, found, same, Ne.symm same, BitSet.bit_insert]

theorem bit_foldl_add (s : Summary locals) (sequence : List Access) (i : Nat) :
    (sequence.foldl (add locals) s).uses.bit i =
      (s.uses.bit i || (!s.seen.bit i && sequence.findSome? (effect locals i) == some true)) ∧
    (sequence.foldl (add locals) s).defs.bit i =
      (s.defs.bit i || (!s.seen.bit i && sequence.findSome? (effect locals i) == some false)) := by
  induction sequence generalizing s with
  | nil => simp
  | cons access rest ih =>
    obtain ⟨seen, uses, defs⟩ := s.bit_add access i
    rw [List.foldl_cons, (ih _).1, (ih _).2, seen, uses, defs, List.findSome?_cons]
    cases effect locals i access with
    | none => simp
    | some value => cases value <;> simp

end Summary

theorem bit_uses_summarize (sequence : List Access) : (summarize locals sequence).uses.bit i =
    (sequence.findSome? (effect locals i) == some true) := by
  rw [summarize, (Summary.bit_foldl_add _ _ i).1]
  simp [BitSet.bit_empty]

theorem bit_defs_summarize (sequence : List Access) : (summarize locals sequence).defs.bit i =
    (sequence.findSome? (effect locals i) == some false) := by
  rw [summarize, (Summary.bit_foldl_add _ _ i).2]
  simp [BitSet.bit_empty]

/-- A bit that stands for no local is in no summary. -/
theorem clean_uses_summarize (sequence : List Access) : (summarize locals sequence).uses.Clean := by
  intro i beyond
  have idle (access : Access) : effect locals i access = none := by
    have apart (sym : SymbolId) : (bitOf? locals sym).map Fin.val ≠ some i := by
      intro found
      obtain ⟨bit, _, rfl⟩ := Option.map_eq_some_iff.mp found
      exact Nat.not_lt.mpr beyond bit.isLt
    cases access <;> simp [effect, apart]
  rw [bit_uses_summarize, List.findSome?_eq_none_iff.mpr fun access _ => idle access]
  rfl

theorem summarize_disjoint (sequence : List Access) (i : Nat) :
    ¬ ((summarize locals sequence).uses.contains i = true ∧
      (summarize locals sequence).defs.contains i = true) := by
  rintro ⟨used, defined⟩
  rw [BitSet.contains_eq, bit_uses_summarize, Bool.and_eq_true, beq_iff_eq] at used
  rw [BitSet.contains_eq, bit_defs_summarize, Bool.and_eq_true, beq_iff_eq] at defined
  exact Bool.noConfusion (Option.some.inj (used.2.symm.trans defined.2))

/-! The two together. -/

/-- What is used, and what is live and not defined, is what the walk back finds. -/
theorem union_summarize (sequence : List Access) (out : BitSet locals.size) :
    (out.subtract (summarize locals sequence).defs).union (summarize locals sequence).uses =
      sequence.foldr (before locals) out := by
  refine BitSet.ext_bit fun i => ?_
  rw [BitSet.bit_union, BitSet.bit_subtract, bit_uses_summarize, bit_defs_summarize,
    bit_foldr_before]
  cases sequence.findSome? (effect locals i) with
  | none => simp
  | some value => cases value <;> simp

/-- Beyond the blocks of a graph nothing is used or defined. -/
theorem getD_summaries (g : Graph) (b : Nat) (assigned : Item → List Access)
    (part : Summary locals → BitSet locals.size) (untouched : part (summarize locals []) = .empty _) :
    ((g.blocks.toList.map fun block => summarize locals (block.items.flatMap assigned)).map
      part).getD b (.empty _) = part (summarize locals ((g.block b).items.flatMap assigned)) := by
  rw [List.getD_eq_getElem?_getD, List.getElem?_map, List.getElem?_map, Array.getElem?_toList,
    Graph.block, Array.getD_eq_getD_getElem?]
  cases g.blocks[b]? with
  | none => exact untouched.symm
  | some block => rfl

/-- The equations see a block as the walk back over its accesses does. -/
theorem transfer_summaries (g : Graph) (b : Nat) (assigned : Item → List Access)
    (out : BitSet locals.size) :
    let summaries :=
      g.blocks.toList.map fun block => summarize locals (block.items.flatMap assigned)
    (genKill g.successors (summaries.map (·.uses)) (summaries.map (·.defs))).transfer b out =
      ((g.block b).items.flatMap assigned).foldr (before locals) out := by
  intro summaries
  have uses := getD_summaries g b assigned (fun s : Summary locals => s.uses) rfl
  have defs := getD_summaries g b assigned (fun s : Summary locals => s.defs) rfl
  rw [← union_summarize, ← uses, ← defs]
  rfl

theorem foldr_before_flatMap (assigned : Item → List Access) (items : List Item)
    (live : BitSet locals.size) : (items.flatMap assigned).foldr (before locals) live =
      items.foldr (fun item => (assigned item).foldr (before locals)) live := by
  induction items with
  | nil => rfl
  | cons item rest ih => rw [List.flatMap_cons, List.foldr_append, List.foldr_cons, ih]

namespace Liveness

variable {p : Program}

theorem length_afterEach (l : Liveness) (out : BitSet l.locals.size) (items : List Item) :
    (l.afterEach p out items).1.length = items.length := by
  induction items with
  | nil => rfl
  | cons item rest ih => simp [afterEach, ih]

/-- The sets within a block come from walking backwards over the accesses of what is left. -/
theorem afterEach_eq (l : Liveness) (out : BitSet l.locals.size) (items : List Item) :
    (l.afterEach p out items).2 = (items.flatMap (accesses p)).foldr (before l.locals) out ∧
      ∀ k < items.length, (l.afterEach p out items).1[k]? =
        some (((items.drop (k + 1)).flatMap (accesses p)).foldr (before l.locals) out) := by
  induction items with
  | nil => simp [afterEach]
  | cons item rest ih =>
    obtain ⟨whole, each⟩ := ih
    refine ⟨by simp [afterEach, beforeItem, whole], fun k inside => ?_⟩
    cases k with
    | zero => simp [afterEach, whole]
    | succ k => simpa [afterEach] using each k (Nat.lt_of_succ_lt_succ inside)

/-- Whatever accesses the items of a block are taken to have, what the block uses, and what is live
after it and not defined by it, is what the walk back over its items finds, and nothing is used and
defined at once. So the equations and the walk agree: on what is live before the block, and, with
the summary of the items that are left, on what is live after each item. -/
theorem transfer_eq_walk (g : Graph) (b : Nat) (l : Liveness) (out : BitSet l.locals.size) :
    (∀ assigned : Item → List Access,
      let summary := summarize l.locals ((g.block b).items.flatMap assigned)
      (out.subtract summary.defs).union summary.uses =
          (g.block b).items.foldr (fun item => (assigned item).foldr (before l.locals)) out ∧
        ∀ i, ¬ (summary.uses.contains i = true ∧ summary.defs.contains i = true)) ∧
    ∀ p : Program,
      let summaries :=
        g.blocks.toList.map fun block => summarize l.locals (block.items.flatMap (accesses p))
      (genKill g.successors (summaries.map (·.uses)) (summaries.map (·.defs))).transfer b out =
          (l.afterEach p out (g.block b).items).2 ∧
        ∀ k < (g.block b).items.length,
          let rest := summarize l.locals (((g.block b).items.drop (k + 1)).flatMap (accesses p))
          (l.afterEach p out (g.block b).items).1[k]? =
            some ((out.subtract rest.defs).union rest.uses) := by
  refine ⟨fun assigned => ⟨?_, summarize_disjoint _⟩, fun p => ⟨?_, fun k inside => ?_⟩⟩
  · rw [union_summarize, foldr_before_flatMap]
  · rw [transfer_summaries, (l.afterEach_eq out _).1]
  · exact ((l.afterEach_eq out _).2 k inside).trans (congrArg some (union_summarize _ out).symm)

end Liveness

end MiddleEnd.Flow
