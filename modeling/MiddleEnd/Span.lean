namespace MiddleEnd

/-- A byte range of the source text, its end excluded. -/
structure Span where
  start : Nat
  stop : Nat
  deriving DecidableEq, Repr

namespace Span

/-- The span of what the compiler made itself and the source does not show. -/
def nowhere : Span := ⟨0, 0⟩

instance : Inhabited Span := ⟨nowhere⟩

def isNowhere (s : Span) : Bool := s == nowhere

/-- The least span that covers both; a span of nowhere adds nothing. -/
def merge (a b : Span) : Span :=
  if a.isNowhere then b
  else if b.isNowhere then a
  else ⟨min a.start b.start, max a.stop b.stop⟩

end Span

end MiddleEnd
