import MiddleEnd.Symbol

namespace MiddleEnd

/-- Every call and every symbol that can be reached from a module root, in the order in which they
became reachable, so that a sweep over the whole program need not walk it. -/
structure Registries where
  calls : List NodeId := []
  fns : List SymbolId := []
  vars : List SymbolId := []
  args : List SymbolId := []
  types : List SymbolId := []
  modules : List SymbolId := []
  deriving DecidableEq, Repr, Inhabited

namespace Registries

/-- Appends an entry that is not there yet. -/
def insertNew {α : Type} [BEq α] (entries : List α) (entry : α) : List α :=
  if entries.contains entry then entries else entries ++ [entry]

/-- Do two lists have the same length and the same entries, in whatever order? -/
def agree {α : Type} [BEq α] (xs ys : List α) : Bool :=
  xs.length == ys.length && xs.all ys.contains && ys.all xs.contains

/-- Changes the list of calls. -/
def mapCalls (r : Registries) (f : List NodeId → List NodeId) : Registries :=
  { r with calls := f r.calls }

/-- Changes the list that symbols of this kind belong to. -/
def mapKind (r : Registries) (kind : SymbolKind) (f : List SymbolId → List SymbolId) : Registries :=
  match kind with
  | .var => { r with vars := f r.vars }
  | .arg _ => { r with args := f r.args }
  | .fn _ => { r with fns := f r.fns }
  | .type => { r with types := f r.types }
  | .moduleRoot _ => { r with modules := f r.modules }

def addCall (r : Registries) (call : NodeId) : Registries :=
  r.mapCalls (insertNew · call)

def dropCall (r : Registries) (call : NodeId) : Registries :=
  r.mapCalls (·.filter (· != call))

def addSymbol (r : Registries) (sym : SymbolId) (kind : SymbolKind) : Registries :=
  r.mapKind kind (insertNew · sym)

def dropSymbol (r : Registries) (sym : SymbolId) (kind : SymbolKind) : Registries :=
  r.mapKind kind (·.filter (· != sym))

/-- Do two registries agree up to the order of their entries? -/
def sameEntries (a b : Registries) : Bool :=
  agree a.calls b.calls && agree a.fns b.fns &&
    agree a.vars b.vars && agree a.args b.args &&
    agree a.types b.types && agree a.modules b.modules

end Registries

end MiddleEnd
