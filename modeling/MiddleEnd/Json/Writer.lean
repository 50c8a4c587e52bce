import MiddleEnd.Json.Value
import MiddleEnd.Text.Quoted

namespace MiddleEnd.Json

/-- A character inside a JSON text. -/
def escapeChar (c : Char) : String :=
  if c = '"' then "\\\""
  else if c = '\\' then "\\\\"
  else if c = '\n' then "\\n"
  else if c = '\r' then "\\r"
  else if c = '\t' then "\\t"
  else if c = '\x08' then "\\b"
  else if c = '\x0c' then "\\f"
  else if c.toNat < 0x20 then
    "\\u00" ++ (if c.toNat < 0x10 then "0" else "") ++ Text.hex c.toNat
  else c.toString

def quoted (s : String) : String := "\"" ++ String.join (s.toList.map escapeChar) ++ "\""

mutual

/-- A value without any blanks. -/
def compact : Json → String
  | null => "null"
  | bool value => if value then "true" else "false"
  | int value => toString value
  | real text => text
  | str value => quoted value
  | arr items => "[" ++ ",".intercalate (compactItems items) ++ "]"
  | obj entries => "\x7b" ++ ",".intercalate (compactEntries entries) ++ "\x7d"

def compactItems : List Json → List String
  | [] => []
  | item :: rest => item.compact :: compactItems rest

def compactEntries : List (String × Json) → List String
  | [] => []
  | (name, item) :: rest => (quoted name ++ ":" ++ item.compact) :: compactEntries rest

end

/-- Lines between brackets, each further in than the brackets; nothing stands between the
brackets of an empty list. -/
def bracketed (level : Nat) (opening closing : String) (lines : List String) : String :=
  if lines.isEmpty then opening ++ closing
  else
    let outer := "\n" ++ "".pushn ' ' (2 * level)
    let inner := outer ++ "  "
    opening ++ inner ++ ("," ++ inner).intercalate lines ++ outer ++ closing

mutual

/-- A value spread over lines, two spaces further in for each level. -/
def prettyAt (level : Nat) : Json → String
  | arr items => bracketed level "[" "]" (prettyItems (level + 1) items)
  | obj entries => bracketed level "\x7b" "\x7d" (prettyEntries (level + 1) entries)
  | scalar => scalar.compact

def prettyItems (level : Nat) : List Json → List String
  | [] => []
  | item :: rest => item.prettyAt level :: prettyItems level rest

def prettyEntries (level : Nat) : List (String × Json) → List String
  | [] => []
  | (name, item) :: rest =>
    (quoted name ++ ": " ++ item.prettyAt level) :: prettyEntries level rest

end

def pretty (value : Json) : String := value.prettyAt 0

/-- An object whose entries are ordered by name. -/
def sorted (entries : List (String × Json)) : Json :=
  obj (entries.mergeSort fun a b => a.1 ≤ b.1)

end MiddleEnd.Json
