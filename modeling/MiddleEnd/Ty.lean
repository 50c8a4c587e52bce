import MiddleEnd.Id

namespace MiddleEnd

/-- As much of a type as the middle-end needs: whether one was declared, and how values of it
are passed. -/
inductive Ty where
  /-- None declared. -/
  | unknown
  | void
  | int
  | bool
  | string
  /-- A type of the program, by its symbol. -/
  | named (sym : SymbolId)
  | ref (inner : Ty)
  deriving DecidableEq, Repr, Inhabited

namespace Ty

def isUnknown : Ty → Bool
  | unknown => true
  | _ => false

def isVoid : Ty → Bool
  | void => true
  | _ => false

def isRef : Ty → Bool
  | ref _ => true
  | _ => false

/-- The type of references to values of this type, where there is one. -/
def refForm : Ty → Option Ty
  | unknown | void | ref _ => none
  | ty => some (ref ty)

def hasRefForm (ty : Ty) : Bool := ty.refForm.isSome

/-- What a reference refers to; any other type is its own value type. -/
def valueType : Ty → Ty
  | ref inner => inner
  | ty => ty

/-- How a dump shows a type. -/
def text : Ty → String
  | unknown => "?"
  | void => "void"
  | int => "int"
  | bool => "bool"
  | string => "string"
  | named sym => s!"type#{sym.index}"
  | ref inner => "ref " ++ inner.text

end Ty

end MiddleEnd
