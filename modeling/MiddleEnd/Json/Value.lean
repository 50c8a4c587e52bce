namespace MiddleEnd

/-- A JSON value. Objects keep their entries in the order of the text, repeated names included. -/
inductive Json where
  | null
  | bool (value : Bool)
  /-- A number written as an integer that fits into 64 bits, with a sign or without one. -/
  | int (value : Int)
  /-- Any other number, as it is written. -/
  | real (text : String)
  | str (value : String)
  | arr (items : List Json)
  | obj (entries : List (String × Json))
  deriving Repr, Inhabited

namespace Json

mutual

/-- How deep arrays and objects are nested in a value. -/
def depth : Json → Nat
  | arr items => depthOfItems items + 1
  | obj entries => depthOfEntries entries + 1
  | _ => 0

def depthOfItems : List Json → Nat
  | [] => 0
  | item :: rest => max item.depth (depthOfItems rest)

def depthOfEntries : List (String × Json) → Nat
  | [] => 0
  | (_, item) :: rest => max item.depth (depthOfEntries rest)

end

/-- The value of an entry; where a name is repeated, the first one. -/
def get? (name : String) : Json → Option Json
  | obj entries => entries.lookup name
  | _ => none

/-- An optional value, absent as null. -/
def ofOption {α : Type} (f : α → Json) : Option α → Json
  | some value => f value
  | none => null

def nat (n : Nat) : Json := int n

end Json

end MiddleEnd
