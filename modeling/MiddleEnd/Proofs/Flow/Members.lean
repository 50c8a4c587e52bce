import MiddleEnd.Proofs.Flow.BitSet
import Mathlib.Algebra.Order.Floor.Div
import Mathlib.Data.Finset.Sort
import Mathlib.Data.List.Range

/-! Words of bits as finite sets: whatever calls a set comes from, it is the set of numbers that the
same calls make, and no bit is set that stands for no number. -/

namespace MiddleEnd.Flow.BitSet

/-- How a set comes about: as a new one, or by a call from another one. The second set of a union or
a difference comes about in the same way. -/
inductive History (width : Nat) where
  | new
  | insert (earlier : History width) (index : Fin width)
  | erase (earlier : History width) (index : Nat)
  | union (earlier other : History width)
  | subtract (earlier other : History width)
  | clear (earlier : History width)

namespace History

variable {width : Nat}

def set : History width → BitSet width
  | new => .empty width
  | insert earlier index => (earlier.set.insert index).2
  | erase earlier index => (earlier.set.erase index).2
  | union earlier other => (earlier.set.unionWith other.set).2
  | subtract earlier other => earlier.set.subtract other.set
  | clear earlier => earlier.set.clear

/-- The numbers that the same calls make into a set. -/
def members : History width → Finset Nat
  | new => ∅
  | insert earlier index => Insert.insert (index : Nat) earlier.members
  | erase earlier index => earlier.members.erase index
  | union earlier other => earlier.members ∪ other.members
  | subtract earlier other => earlier.members \ other.members
  | clear _ => ∅

end History

variable {width : Nat} {s t : BitSet width} {i : Nat}

theorem clear_eq : s.clear = empty width :=
  congrArg mk (Vector.ext fun place stored => by simp)

/-! The number of members. -/

theorem shiftRight_and_one_ne_zero (word : UInt64) {place : Nat} (inside : place < 64) :
    (word >>> UInt64.ofNat place &&& 1 != 0) = word.toBitVec.getLsbD place := by
  have one : (1 : UInt64) = mask 0 := rfl
  rw [one, and_mask_ne_zero, UInt64.toBitVec_shiftRight]
  simp [Nat.mod_eq_of_lt inside]

/-- The words of a list, one after the other, hold as many bits as the list. -/
theorem sum_popCount (words : List UInt64) : words.foldr (popCount · + ·) 0 =
    (List.range (64 * words.length)).countP fun i =>
      (words[i / 64]?.getD 0).toBitVec.getLsbD (i % 64) := by
  induction words with
  | nil => rfl
  | cons first rest ih =>
    have size : 64 * (first :: rest).length = 64 + 64 * rest.length := by
      rw [List.length_cons]
      omega
    rw [size, List.range_add, List.countP_append, List.countP_map, List.foldr_cons, ih, popCount]
    congr 1
    · refine List.countP_congr fun place inside => ?_
      have small := List.mem_range.mp inside
      rw [shiftRight_and_one_ne_zero first small, Nat.div_eq_of_lt small, Nat.mod_eq_of_lt small]
      rfl
    · refine List.countP_congr fun i _ => ?_
      have next : (64 + i) / 64 = i / 64 + 1 := by omega
      simp [next]

theorem count_eq (s : BitSet width) :
    s.count = (List.range (64 * ((width + 63) / 64))).countP s.bit := by
  rw [count, sum_popCount, Vector.length_toList]
  refine List.countP_congr fun i _ => ?_
  simp [bit, word, wordOf]

theorem Clean.count_eq (clean : s.Clean) : s.count = s.toList.length := by
  obtain ⟨rest, size⟩ : ∃ rest, 64 * ((width + 63) / 64) = width + rest :=
    Nat.exists_eq_add_of_le (by omega)
  have none : ((List.range rest).map (width + ·)).countP s.bit = 0 := by
    rw [List.countP_map, List.countP_eq_zero]
    intro i _
    simp [clean (width + i) (Nat.le_add_right _ _)]
  rw [BitSet.count_eq, size, List.range_add, List.countP_append, none, Nat.add_zero, toList,
    ← List.countP_eq_length_filter]
  refine List.countP_congr fun i inside => ?_
  simp [contains_eq, List.mem_range.mp inside]

/-! The members as a finite set. -/

theorem mem_toList : i ∈ s.toList ↔ s.contains i = true := by
  rw [toList, List.mem_filter, List.mem_range]
  exact and_iff_right_of_imp lt_of_contains

theorem toList_ascending (s : BitSet width) : s.toList.Pairwise (· < ·) :=
  List.pairwise_lt_range.filter _

/-- The words hold the numbers of a finite set and nothing else. -/
structure Represents (s : BitSet width) (m : Finset Nat) : Prop where
  clean : s.Clean
  contains_iff {i : Nat} : s.contains i = true ↔ i ∈ m

namespace Represents

variable {m n : Finset Nat}

theorem empty : (BitSet.empty width).Represents ∅ where
  clean := .empty
  contains_iff := by simp

theorem insert (here : s.Represents m) (index : Fin width) :
    (s.insert index).2.Represents (Insert.insert (index : Nat) m) where
  clean := here.clean.insert index
  contains_iff := by simp [here.contains_iff, or_comm]

theorem erase (here : s.Represents m) (index : Nat) :
    (s.erase index).2.Represents (m.erase index) where
  clean := here.clean.erase index
  contains_iff := by simp [here.contains_iff, and_comm]

theorem union (here : s.Represents m) (there : t.Represents n) :
    (s.union t).Represents (m ∪ n) where
  clean := here.clean.union there.clean
  contains_iff := by simp [here.contains_iff, there.contains_iff]

theorem subtract (here : s.Represents m) (there : t.Represents n) :
    (s.subtract t).Represents (m \ n) where
  clean := here.clean.subtract t
  contains_iff := by simp [here.contains_iff, ← there.contains_iff]

/-- Sets are the same words just if they are the same numbers. -/
theorem eq_iff (here : s.Represents m) (there : t.Represents n) : s = t ↔ m = n := by
  constructor
  · rintro rfl
    exact Finset.ext fun i => here.contains_iff.symm.trans there.contains_iff
  · rintro rfl
    exact here.clean.ext there.clean fun i =>
      Bool.eq_iff_iff.mpr (here.contains_iff.trans there.contains_iff.symm)

theorem toList_eq (here : s.Represents m) : s.toList = m.sort := by
  have same : s.toList.toFinset = m := by
    refine Finset.ext fun i => ?_
    rw [List.mem_toFinset, mem_toList, here.contains_iff]
  rw [← same]
  exact ((List.toFinset_sort _ (s.toList_ascending.imp Nat.ne_of_lt)).mpr
    (s.toList_ascending.imp Nat.le_of_lt)).symm

theorem count_eq (here : s.Represents m) : s.count = m.card := by
  rw [here.clean.count_eq, here.toList_eq, Finset.length_sort]

theorem isEmpty_iff (here : s.Represents m) : s.isEmpty = true ↔ m = ∅ := by
  have blank : s.isEmpty = true ↔ s = BitSet.empty width := by
    obtain ⟨words⟩ := s
    simp [isEmpty, BitSet.empty, Vector.ext_iff]
  rw [blank, here.eq_iff .empty]

theorem insert_grows (here : s.Represents m) (index : Fin width) :
    (s.insert index).1 = true ↔ Insert.insert (index : Nat) m ≠ m := by
  rw [Ne, Finset.insert_eq_self, ← here.contains_iff]
  simp [BitSet.insert]

theorem erase_shrinks (here : s.Represents m) (index : Nat) :
    (s.erase index).1 = true ↔ m.erase index ≠ m := by
  rw [Ne, Finset.erase_eq_self, not_not, ← here.contains_iff, BitSet.erase]
  split
  · rfl
  · rename_i beyond
    exact iff_of_false Bool.false_ne_true fun member => beyond (lt_of_contains member)

theorem union_grows (here : s.Represents m) (there : t.Represents n) :
    (s.unionWith t).1 = true ↔ m ∪ n ≠ m := by
  have changed : (s.unionWith t).1 = true ↔ s.union t ≠ s := by
    obtain ⟨words⟩ := s
    simp [unionWith, BitSet.union]
  rw [changed, Ne, (here.union there).eq_iff here]

end Represents

theorem History.represents (h : History width) : h.set.Represents h.members := by
  induction h with
  | new => exact .empty
  | insert _ index ih => exact ih.insert index
  | erase _ index ih => exact ih.erase index
  | union _ _ ihS ihT => exact ihS.union ihT
  | subtract _ _ ihS ihT => exact ihS.subtract ihT
  | clear _ _ =>
    rw [History.set, clear_eq]
    exact .empty

/-- What words of bits tell is what is so of a finite set. -/
structure Agrees (s : BitSet width) (m : Finset Nat) : Prop where
  length_words : s.words.toList.length = width ⌈/⌉ 64
  none_beyond {i : Nat} : width ≤ i → s.bit i = false
  contains {i : Nat} : s.contains i = true ↔ i ∈ m
  count : s.count = m.card
  isEmpty : s.isEmpty = true ↔ m = ∅
  toList : s.toList = m.sort
  ascending : s.toList.Pairwise (· < ·)
  text : s.text = "\x7b" ++ ", ".intercalate (m.sort.map toString) ++ "\x7d"
  insert_grows (index : Fin width) :
    (s.insert index).1 = true ↔ Insert.insert (index : Nat) m ≠ m
  erase_shrinks (index : Nat) : (s.erase index).1 = true ↔ m.erase index ≠ m

/-- Whatever calls two sets of one width come from: each tells what is so of the numbers that its
calls make into a set, the one grows by the other just if those numbers become more, and they are
equal just if those numbers are the same. -/
theorem agrees_of_history (h k : History width) : h.set.Agrees h.members ∧
    ((h.set.unionWith k.set).1 = true ↔ h.members ∪ k.members ≠ h.members) ∧
    (h.set = k.set ↔ h.members = k.members) := by
  have here := h.represents
  have there := k.represents
  refine ⟨?_, here.union_grows there, here.eq_iff there⟩
  exact
    { length_words := by
        rw [Vector.length_toList, Nat.ceilDiv_eq_add_pred_div]
        rfl
      none_beyond := here.clean _
      contains := here.contains_iff
      count := here.count_eq
      isEmpty := here.isEmpty_iff
      toList := here.toList_eq
      ascending := h.set.toList_ascending
      text := by rw [BitSet.text, here.toList_eq]
      insert_grows := here.insert_grows
      erase_shrinks := here.erase_shrinks }

end MiddleEnd.Flow.BitSet
