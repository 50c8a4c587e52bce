namespace MiddleEnd

/-- The place of a node in its program. Places are handed out in order and never used twice. -/
structure NodeId where
  index : Nat
  deriving DecidableEq, Repr, Inhabited

/-- The place of a symbol in its program. -/
structure SymbolId where
  index : Nat
  deriving DecidableEq, Repr, Inhabited

/-- How a message names a node. -/
def NodeId.text (id : NodeId) : String := s!"#{id.index}"

/-- How a message names a symbol. -/
def SymbolId.text (id : SymbolId) : String := s!"${id.index}"

/-- How a violation names a node that may be missing. -/
def NodeId.optionText : Option NodeId → String
  | some id => s!"Some(NodeId({id.index}))"
  | none => "None"

/-- How a violation names a symbol that may be missing. -/
def SymbolId.optionText : Option SymbolId → String
  | some id => s!"Some(SymbolId({id.index}))"
  | none => "None"

end MiddleEnd
