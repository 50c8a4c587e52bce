namespace MiddleEnd

/-- A fact about a symbol that a front-end states or a pass derives. -/
inductive Flag where
  /-- A variable the compiler made. -/
  | temp
  /-- Settable from outside the program. -/
  | config
  /-- Known at compile time. -/
  | param
  | const
  /-- Bound by the header of a `for` loop. -/
  | indexVar
  /-- Holds the return value of its function. -/
  | returnValue
  | ctor
  /-- A constructor the compiler made. -/
  | defaultCtor
  | iterator
  /-- The formal that stands for the receiver of a method. -/
  | receiver
  /-- The return type was written down. -/
  | specifiedReturnType
  /-- A call never returns. -/
  | terminatesProgram
  | external
  | exported
  /-- Moved to module scope by closure conversion. -/
  | flattened
  /-- Captured by a nested function. -/
  | captured
  deriving DecidableEq, Repr

namespace Flag

/-- Every flag, in the order in which sets of flags are listed. -/
def all : List Flag :=
  [temp, config, param, const, indexVar, returnValue, ctor, defaultCtor, iterator, receiver,
    specifiedReturnType, terminatesProgram, external, exported, flattened, captured]

/-- The word for a flag, in programs as in dumps. -/
def word : Flag → String
  | temp => "temp"
  | config => "config"
  | param => "param"
  | const => "const"
  | indexVar => "index_var"
  | returnValue => "return_value"
  | ctor => "constructor"
  | defaultCtor => "default_constructor"
  | iterator => "iterator"
  | receiver => "receiver"
  | specifiedReturnType => "specified_return_type"
  | terminatesProgram => "function_terminates_program"
  | external => "extern"
  | exported => "export"
  | flattened => "flattened"
  | captured => "captured"

def ofWord? (word : String) : Option Flag := all.find? (·.word == word)

/-- The place of a flag in `all`. -/
def rank (flag : Flag) : Nat := all.idxOf flag

end Flag

/-- A set of flags, listed in the order of `Flag.all`. -/
structure FlagSet where
  toList : List Flag := []
  deriving DecidableEq, Repr, Inhabited

namespace FlagSet

def empty : FlagSet := ⟨[]⟩

def contains (s : FlagSet) (flag : Flag) : Bool := s.toList.contains flag

def isEmpty (s : FlagSet) : Bool := s.toList.isEmpty

def insert (s : FlagSet) (flag : Flag) : FlagSet :=
  if s.contains flag then s
  else
    ⟨s.toList.filter (·.rank < flag.rank) ++ flag :: s.toList.filter (flag.rank < ·.rank)⟩

def erase (s : FlagSet) (flag : Flag) : FlagSet := ⟨s.toList.filter (· != flag)⟩

def ofList (flags : List Flag) : FlagSet := flags.foldl insert empty

def text (s : FlagSet) : String := "[" ++ ", ".intercalate (s.toList.map Flag.word) ++ "]"

end FlagSet

end MiddleEnd
