namespace MiddleEnd.Flow

/-! Finite sets as ascending lists, by a rank that tells their members apart. -/

namespace Ascending

variable {α : Type}

/-- Adds a member in its place. -/
def insert (rank : α → Int) (a : α) : List α → List α
  | [] => [a]
  | b :: rest =>
    if rank a < rank b then a :: b :: rest
    else if rank b < rank a then b :: insert rank a rest
    else b :: rest

def union (rank : α → Int) (xs ys : List α) : List α :=
  ys.foldl (fun acc y => insert rank y acc) xs

def ofList (rank : α → Int) (xs : List α) : List α := union rank [] xs

end Ascending

end MiddleEnd.Flow
