import MiddleEnd.Flag
import MiddleEnd.Ty

namespace MiddleEnd

/-- How a formal receives its actual. -/
inductive Intent where
  | blank
  | input
  | const
  | constInput
  | constRef
  | ref
  | output
  | inputOutput
  | param
  | type
  deriving DecidableEq, Repr, Inhabited

namespace Intent

def all : List Intent :=
  [blank, input, const, constInput, constRef, ref, output, inputOutput, param, type]

/-- Does the formal stand for the caller's own storage? -/
def bindsStorage : Intent → Bool
  | ref | constRef | output | inputOutput => true
  | _ => false

/-- How dumps and messages show an intent. -/
def text : Intent → String
  | blank => ""
  | input => "in"
  | const => "const"
  | constInput => "const in"
  | constRef => "const ref"
  | ref => "ref"
  | output => "out"
  | inputOutput => "inout"
  | param => "param"
  | type => "type"

/-- The word for an intent in a surface program. -/
def word : Intent → String
  | blank => "blank"
  | input => "in"
  | const => "const"
  | constInput => "const_in"
  | constRef => "const_ref"
  | ref => "ref"
  | output => "out"
  | inputOutput => "in_out"
  | param => "param"
  | type => "type"

def ofWord? (word : String) : Option Intent := all.find? (·.word == word)

end Intent

/-- What a function gives back. -/
inductive RetTag where
  | value
  | ref
  | constRef
  | type
  | param
  deriving DecidableEq, Repr, Inhabited

namespace RetTag

def all : List RetTag := [value, ref, constRef, type, param]

def text : RetTag → String
  | value => "value"
  | ref => "ref"
  | constRef => "const ref"
  | type => "type"
  | param => "param"

/-- The word for a return tag in a surface program. -/
def word : RetTag → String
  | value => "value"
  | ref => "ref"
  | constRef => "const_ref"
  | type => "type"
  | param => "param"

def ofWord? (word : String) : Option RetTag := all.find? (·.word == word)

end RetTag

/-- What is known of a function besides its name and type. -/
structure FnData where
  retTag : RetTag := .value
  /-- The variable that holds the return value, if the body has one. -/
  retVar : Option SymbolId := none
  /-- The calls that invoke the function. -/
  calledBy : List NodeId := []
  deriving DecidableEq, Repr, Inhabited

inductive SymbolKind where
  | var
  | arg (intent : Intent)
  | fn (data : FnData)
  | type
  /-- A module, with the block of its top level. -/
  | moduleRoot (block : NodeId)
  deriving DecidableEq, Repr, Inhabited

def SymbolKind.word : SymbolKind → String
  | var => "var"
  | arg _ => "arg"
  | fn _ => "fn"
  | type => "type"
  | moduleRoot _ => "module"

/-- A named entity of the program. -/
structure Symbol where
  name : String
  kind : SymbolKind
  /-- The declared type; of a function, the return type. -/
  ty : Ty
  /-- The definition that introduces the symbol. -/
  decl : Option NodeId := none
  flags : FlagSet := .empty
  /-- False once the definition has been destroyed. -/
  live : Bool := true
  /-- How many structural changes the function or module has seen. -/
  epoch : Nat := 0
  deriving DecidableEq, Repr, Inhabited

namespace Symbol

/-- What stands at a place that no symbol takes: a nameless destroyed variable. -/
def absent : Symbol := { name := "", kind := .var, ty := .unknown, live := false }

def hasFlag (s : Symbol) (flag : Flag) : Bool := s.flags.contains flag

def fnData? (s : Symbol) : Option FnData :=
  match s.kind with
  | .fn data => some data
  | _ => none

def isFn (s : Symbol) : Bool := s.fnData?.isSome

/-- Variables and formals: what a nested function can capture. -/
def isValue (s : Symbol) : Bool :=
  match s.kind with
  | .var | .arg _ => true
  | _ => false

def isVar (s : Symbol) : Bool :=
  match s.kind with
  | .var => true
  | _ => false

def isType (s : Symbol) : Bool :=
  match s.kind with
  | .type => true
  | _ => false

def intent? (s : Symbol) : Option Intent :=
  match s.kind with
  | .arg intent => some intent
  | _ => none

/-- The block of a module's top level. -/
def moduleBlock? (s : Symbol) : Option NodeId :=
  match s.kind with
  | .moduleRoot block => some block
  | _ => none

/-- Changes what is known of a function; any other symbol stays as it is. -/
def mapFnData (f : FnData → FnData) (s : Symbol) : Symbol :=
  match s.kind with
  | .fn data => { s with kind := .fn (f data) }
  | _ => s

end Symbol

end MiddleEnd
