import MiddleEnd.Flow.BitSet
import Mathlib.Data.List.Basic

namespace MiddleEnd.Flow.BitSet

variable {width : Nat} {s t : BitSet width} {i : Nat}

/-- Is the bit of an index set? The last word has bits that belong to no index below the width. -/
def bit (s : BitSet width) (i : Nat) : Bool := (s.word (wordOf i)).toBitVec.getLsbD (i % 64)

/-- No bit is set beyond the width, so that sets with the same members are the same. -/
def Clean (s : BitSet width) : Prop := ∀ i, width ≤ i → s.bit i = false

/-- Every member of the one set is a member of the other. -/
def Within (s t : BitSet width) : Prop := ∀ i, s.contains i → t.contains i

theorem toBitVec_mask (i : Nat) : (mask i).toBitVec = BitVec.twoPow 64 (i % 64) := by
  rw [mask, UInt64.toBitVec_shiftLeft, BitVec.twoPow_eq]
  simp

theorem and_mask_ne_zero (word : UInt64) (i : Nat) :
    (word &&& mask i != 0) = word.toBitVec.getLsbD (i % 64) := by
  have inside : i % 64 < 64 := Nat.mod_lt i (by decide)
  have zero : (word &&& mask i = 0) ↔ word.toBitVec &&& BitVec.twoPow 64 (i % 64) = 0#64 := by
    rw [← toBitVec_mask, ← UInt64.toBitVec_and, ← UInt64.toBitVec_inj]
    rfl
  have nonzero : BitVec.twoPow 64 (i % 64) ≠ 0#64 := fun zero => by
    simpa [inside] using congrArg (BitVec.getLsbD · (i % 64)) zero
  rw [BitVec.and_twoPow] at zero
  cases set : word.toBitVec.getLsbD (i % 64) <;> simp_all

theorem contains_eq (s : BitSet width) (i : Nat) : s.contains i = (decide (i < width) && s.bit i) := by
  rw [contains, and_mask_ne_zero, bit]

theorem lt_of_contains (member : s.contains i) : i < width := by
  simp only [contains_eq, Bool.and_eq_true, decide_eq_true_eq] at member
  exact member.1

/-! The words. -/

theorem bit_beyond (beyond : (width + 63) / 64 ≤ wordOf i) : s.bit i = false := by
  have none : s.words[wordOf i]? = none := by simpa using beyond
  simp [bit, word, none]

/-- Sets with the same bits are the same. -/
theorem ext_bit (same : ∀ i, s.bit i = t.bit i) : s = t := by
  obtain ⟨ws⟩ := s
  obtain ⟨wt⟩ := t
  congr 1
  refine Vector.ext fun place stored => UInt64.toBitVec_inj.mp ?_
  refine BitVec.eq_of_getLsbD_eq fun offset small => ?_
  have inWord : (64 * place + offset) / 64 = place := by omega
  have inBit : (64 * place + offset) % 64 = offset := by omega
  simpa [bit, word, wordOf, inWord, inBit, stored] using same (64 * place + offset)

theorem Clean.ext (cleanS : s.Clean) (cleanT : t.Clean) (same : ∀ i, s.contains i = t.contains i) :
    s = t := by
  refine ext_bit fun i => ?_
  by_cases small : i < width
  · simpa [contains_eq, small] using same i
  · rw [cleanS i (by omega), cleanT i (by omega)]

/-! One lemma for each operation. -/

theorem bit_empty : (empty width).bit i = false := by
  simp only [bit, word, empty, Vector.getElem?_replicate]
  split <;> simp

theorem bit_set {place : Nat} {w : UInt64} :
    bit (⟨s.words.setIfInBounds place w⟩ : BitSet width) i =
      if wordOf i = place ∧ place < (width + 63) / 64 then w.toBitVec.getLsbD (i % 64)
      else s.bit i := by
  simp only [bit, word, Vector.getElem?_setIfInBounds]
  by_cases here : wordOf i = place
  · subst here
    by_cases stored : wordOf i < (width + 63) / 64
    · simp [stored]
    · simp [stored]
  · simp [here, Ne.symm here]

theorem stored_of_lt (small : i < width) : wordOf i < (width + 63) / 64 := by
  unfold wordOf
  omega

theorem bit_insert (index : Fin width) :
    (s.insert index).2.bit i = (s.bit i || decide (i = index)) := by
  rw [insert, bit_set]
  by_cases here : wordOf i = wordOf index
  · have same : i % 64 = index % 64 ↔ i = index := by
      unfold wordOf at here
      omega
    have inside : i % 64 < 64 := Nat.mod_lt i (by decide)
    simp [here, stored_of_lt index.isLt, bit, toBitVec_mask, inside, ← same]
  · have different : i ≠ index := fun same => here (by rw [same])
    simp [here, different]

theorem bit_erase (index : Fin width) :
    (s.erase index).2.bit i = (s.bit i && !decide (i = index)) := by
  rw [erase, if_pos index.isLt, bit_set]
  by_cases here : wordOf i = wordOf index
  · have same : i % 64 = index % 64 ↔ i = index := by
      unfold wordOf at here
      omega
    have inside : i % 64 < 64 := Nat.mod_lt i (by decide)
    simp [here, stored_of_lt index.isLt, bit, toBitVec_mask, inside, ← same]
  · have different : i ≠ index := fun same => here (by rw [same])
    simp [here, different]

theorem bit_union : (s.union t).bit i = (s.bit i || t.bit i) := by
  by_cases stored : wordOf i < (width + 63) / 64
  · simp [bit, union, unionWith, word, stored]
  · simp [bit_beyond (Nat.le_of_not_lt stored)]

theorem bit_subtract : (s.subtract t).bit i = (s.bit i && !t.bit i) := by
  have inside : i % 64 < 64 := Nat.mod_lt i (by decide)
  by_cases stored : wordOf i < (width + 63) / 64
  · simp [bit, subtract, word, stored, inside]
  · simp [bit_beyond (Nat.le_of_not_lt stored)]

@[simp] theorem contains_empty : (empty width).contains i = false := by
  simp [contains_eq, bit_empty]

@[simp] theorem contains_insert (index : Fin width) :
    (s.insert index).2.contains i = (s.contains i || decide (i = index)) := by
  rw [contains_eq, contains_eq, bit_insert]
  by_cases same : i = index
  · simp [same]
  · simp [same]

@[simp] theorem contains_erase (index : Nat) :
    (s.erase index).2.contains i = (s.contains i && !decide (i = index)) := by
  by_cases inside : index < width
  · rw [contains_eq, contains_eq, bit_erase ⟨index, inside⟩, Bool.and_assoc]
  · have absent : ¬ s.contains index = true := fun member => inside (lt_of_contains member)
    by_cases same : i = index
    · simp [erase, inside, same, absent]
    · simp [erase, inside, same]

@[simp] theorem contains_union : (s.union t).contains i = (s.contains i || t.contains i) := by
  simp only [contains_eq, bit_union, Bool.and_or_distrib_left]

@[simp] theorem contains_subtract : (s.subtract t).contains i = (s.contains i && !t.contains i) := by
  simp only [contains_eq, bit_subtract]
  cases decide (i < width) <;> simp

theorem Clean.empty : (empty width).Clean := fun _ _ => bit_empty

theorem Clean.insert (clean : s.Clean) (index : Fin width) : (s.insert index).2.Clean := by
  intro i beyond
  have different : i ≠ index := by omega
  simp [bit_insert, clean i beyond, different]

theorem Clean.erase (clean : s.Clean) (index : Nat) : (s.erase index).2.Clean := by
  intro i beyond
  by_cases inside : index < width
  · rw [bit_erase ⟨index, inside⟩, clean i beyond, Bool.false_and]
  · rw [BitSet.erase, if_neg inside]
    exact clean i beyond

theorem Clean.union (cleanS : s.Clean) (cleanT : t.Clean) : (s.union t).Clean := fun i beyond => by
  rw [bit_union, cleanS i beyond, cleanT i beyond, Bool.or_false]

theorem Clean.subtract (clean : s.Clean) (t : BitSet width) : (s.subtract t).Clean := fun i beyond => by
  rw [bit_subtract, clean i beyond, Bool.false_and]

theorem contains_ofList {members : List (Fin width)} {i : Fin width} :
    (ofList members).contains i = true ↔ i ∈ members := by
  have added (s : BitSet width) : (members.foldl (fun s i => (s.insert i).2) s).contains i = true ↔
      s.contains i = true ∨ i ∈ members := by
    induction members generalizing s with
    | nil => simp
    | cons first rest ih => simp [ih, or_assoc, Fin.ext_iff]
  simp [ofList, added]

theorem Clean.ofList (members : List (Fin width)) : (ofList members).Clean := by
  have kept (s : BitSet width) (clean : s.Clean) :
      (members.foldl (fun s i => (s.insert i).2) s).Clean := by
    induction members generalizing s with
    | nil => exact clean
    | cons first rest ih => exact ih _ (clean.insert first)
  exact kept _ .empty

/-! The number of members. -/

theorem length_toList_le (s : BitSet width) : s.toList.length ≤ width := by
  calc s.toList.length ≤ (List.range width).length := List.length_filter_le _ _
    _ = width := List.length_range

theorem Within.length_lt (cleanS : s.Clean) (cleanT : t.Clean) (within : s.Within t)
    (different : s ≠ t) : s.toList.length < t.toList.length := by
  obtain ⟨i, unlike⟩ : ∃ i, s.contains i ≠ t.contains i := by
    by_contra! same
    exact different (cleanS.ext cleanT same)
  have added : t.contains i ∧ ¬ s.contains i := by
    have ifIn := within i
    cases inS : s.contains i <;> cases inT : t.contains i <;> simp_all
  have smaller : List.Sublist s.toList t.toList := List.monotone_filter_right _ within
  refine Nat.lt_of_le_of_ne smaller.length_le fun same => added.2 ?_
  have known := lt_of_contains added.1
  have memT : i ∈ t.toList := by simp [toList, known, added.1]
  rw [← smaller.eq_of_length same, toList, List.mem_filter] at memT
  exact memT.2

end MiddleEnd.Flow.BitSet
