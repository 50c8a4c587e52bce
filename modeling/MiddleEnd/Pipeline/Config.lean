import MiddleEnd.Json.Reader
import MiddleEnd.Json.Writer

namespace MiddleEnd.Pipeline

/-- After which passes the program is dumped. -/
inductive DumpAfter where
  | never
  | every
  | passes (names : List String)
  deriving DecidableEq, Repr, Inhabited

/-- What a run records besides its result. Nothing here changes what the passes do. -/
structure Config where
  timing : Bool := false
  stats : Bool := false
  dump : DumpAfter := .never
  /-- Verify the structure of the program after every pass. -/
  verify : Bool := true
  deriving DecidableEq, Repr, Inhabited

namespace Config

def dumpsAfter (c : Config) (pass : String) : Bool :=
  match c.dump with
  | .never => false
  | .every => true
  | .passes names => names.contains pass

/-- The first pass that a dump is asked for and that is not among the passes of the run. -/
def unknownPass? (c : Config) (passes : List String) : Option String :=
  match c.dump with
  | .passes names => names.find? fun name => !passes.contains name
  | _ => none

/-! The form of a configuration in JSON: an object with some of the fields, or an array of the
first few. Unknown and repeated fields are refused. -/

def boolOf : Json → Option Bool
  | .bool value => some value
  | _ => none

def textOf : Json → Option String
  | .str value => some value
  | _ => none

def dumpOf : Json → Option DumpAfter
  | .str "never" => some .never
  | .str "every" => some .every
  | .obj [("never", .null)] => some .never
  | .obj [("every", .null)] => some .every
  | .obj [("passes", .arr names)] => (names.mapM textOf).map .passes
  | _ => none

def fieldNames : List String := ["timing", "stats", "dump", "verify"]

/-- Sets one field. -/
def withField (c : Config) (name : String) (value : Json) : Option Config :=
  match name with
  | "timing" => (boolOf value).map fun b => { c with timing := b }
  | "stats" => (boolOf value).map fun b => { c with stats := b }
  | "dump" => (dumpOf value).map fun d => { c with dump := d }
  | "verify" => (boolOf value).map fun b => { c with verify := b }
  | _ => none

def ofEntries (entries : List (String × Json)) : Option Config :=
  if (entries.map Prod.fst).eraseDups.length = entries.length then
    entries.foldlM (fun c (name, value) => c.withField name value) {}
  else none

def ofJson? : Json → Option Config
  | .obj entries => ofEntries entries
  | .arr items =>
    if items.length ≤ fieldNames.length then ofEntries (fieldNames.zip items) else none
  | _ => none

/-- Reads a configuration. -/
def parse? (text : String) : Option Config := (Json.parse text).toOption.bind ofJson?

def dumpToJson : DumpAfter → Json
  | .never => .str "never"
  | .every => .str "every"
  | .passes names => .obj [("passes", .arr (names.map .str))]

def toJson (c : Config) : Json :=
  .sorted
    [("timing", .bool c.timing), ("stats", .bool c.stats), ("dump", dumpToJson c.dump),
      ("verify", .bool c.verify)]

end Config

end MiddleEnd.Pipeline
