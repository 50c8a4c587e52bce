import MiddleEnd.Json.Value
import MiddleEnd.Symbol

namespace MiddleEnd

/-! How types and flags are written as JSON values of their own: a word, or an object with the word
as its only name. -/

/-- A word alone, or with nothing to it. -/
def Json.word? : Json → Option String
  | .str word => some word
  | .obj [(word, .null)] => some word
  | _ => none

namespace Ty

def toJson : Ty → Json
  | unknown => .str "Unknown"
  | void => .str "Void"
  | int => .str "Int"
  | bool => .str "Bool"
  | string => .str "Str"
  | named sym => .obj [("Named", .nat sym.index)]
  | ref inner => .obj [("Ref", inner.toJson)]

def ofWord? : String → Option Ty
  | "Unknown" => some unknown
  | "Void" => some void
  | "Int" => some int
  | "Bool" => some bool
  | "Str" => some string
  | _ => none

/-- How many symbols can be told apart. -/
def symbolLimit : Int := 4294967296

/-- Reads a type, as deep as it is nested. -/
def ofJson? : Json → Option Ty
  | .obj [("Named", .int index)] =>
    if 0 ≤ index ∧ index < symbolLimit then some (named ⟨index.toNat⟩) else none
  | .obj [("Ref", inner)] => (ofJson? inner).map ref
  | .str word => ofWord? word
  | .obj [(word, .null)] => ofWord? word
  | _ => none

end Ty

namespace FlagSet

/-- Reads a set of flags from a list of their words. -/
def ofJson? : Json → Option FlagSet
  | .arr items => (items.mapM fun (item : Json) => item.word?.bind Flag.ofWord?).map ofList
  | _ => none

def toJson (s : FlagSet) : Json := .arr (s.toList.map fun flag => .str flag.word)

end FlagSet

end MiddleEnd
