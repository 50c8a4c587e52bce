namespace MiddleEnd.Flow

/-- A set of numbers below `width`, one bit for each, in words of 64 bits. -/
structure BitSet (width : Nat) where
  words : Vector UInt64 ((width + 63) / 64)
  deriving DecidableEq, Repr

/-- How many bits of a word are set, from one place on. -/
def popCount (word : UInt64) : Nat :=
  (List.range 64).countP fun place => word >>> (UInt64.ofNat place) &&& 1 != 0

namespace BitSet

variable {width : Nat}

def empty (width : Nat) : BitSet width := ⟨Vector.replicate _ 0⟩

/-- The word that holds the bit of an index. -/
def wordOf (index : Nat) : Nat := index / 64

/-- The bit of an index within its word. -/
def mask (index : Nat) : UInt64 := 1 <<< UInt64.ofNat (index % 64)

def word (s : BitSet width) (place : Nat) : UInt64 := s.words[place]?.getD 0

def contains (s : BitSet width) (index : Nat) : Bool :=
  index < width && s.word (wordOf index) &&& mask index != 0

/-- Adds an index. The first part says whether the set grew. -/
def insert (s : BitSet width) (index : Fin width) : Bool × BitSet width :=
  let place := wordOf index
  (!s.contains index, ⟨s.words.setIfInBounds place (s.word place ||| mask index)⟩)

/-- Takes out an index, if it is there. The first part says whether it was. -/
def erase (s : BitSet width) (index : Nat) : Bool × BitSet width :=
  if index < width then
    let place := wordOf index
    (s.contains index, ⟨s.words.setIfInBounds place (s.word place &&& ~~~ mask index)⟩)
  else (false, s)

/-- Adds the members of another set. The first part says whether the set grew. -/
def unionWith (s t : BitSet width) : Bool × BitSet width :=
  let merged := s.words.zipWith (· ||| ·) t.words
  (merged != s.words, ⟨merged⟩)

def union (s t : BitSet width) : BitSet width := (s.unionWith t).2

/-- Takes out the members of another set. -/
def subtract (s t : BitSet width) : BitSet width :=
  ⟨s.words.zipWith (fun mine theirs => mine &&& ~~~ theirs) t.words⟩

/-- Takes out all members. -/
def clear (s : BitSet width) : BitSet width := ⟨s.words.map fun _ => 0⟩

def isEmpty (s : BitSet width) : Bool := s.words.all (· == 0)

/-- The number of members. -/
def count (s : BitSet width) : Nat := s.words.toList.foldr (popCount · + ·) 0

/-- The members, ascending. -/
def toList (s : BitSet width) : List Nat := (List.range width).filter s.contains

def text (s : BitSet width) : String :=
  "\x7b" ++ ", ".intercalate (s.toList.map toString) ++ "\x7d"

/-- An index that a set cannot hold. -/
structure OutOfRange where
  index : Nat
  width : Nat
  deriving DecidableEq, Repr

def OutOfRange.message (e : OutOfRange) : String :=
  s!"bit {e.index} out of range 0..{e.width}"

/-- Adds an index that may be too large. -/
def insertChecked (s : BitSet width) (index : Nat) : Except OutOfRange (Bool × BitSet width) :=
  if h : index < width then .ok (s.insert ⟨index, h⟩) else .error ⟨index, width⟩

/-- The set of the members of a list. -/
def ofList (members : List (Fin width)) : BitSet width :=
  members.foldl (fun s index => (s.insert index).2) (empty width)

end BitSet

end MiddleEnd.Flow
