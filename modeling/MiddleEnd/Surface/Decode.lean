import MiddleEnd.Json.Reader
import MiddleEnd.Surface.Tree

namespace MiddleEnd.Surface

/-! Surface programs are read in two ways. The program, its modules and the spans of top-level
statements are read straight from the text, so that the first fault in the text is the one that
counts. Everything else inside a top-level statement is taken in as a JSON value first and then
decoded; there a fault is always one of shape. -/

namespace Decode

abbrev Entries := List (String × Json)

/-- The value of a field that may be missing. Fails if the field is there twice. -/
def field? (entries : Entries) (name : String) : Option (Option Json) :=
  match entries.filter (·.1 == name) with
  | [] => some none
  | [(_, value)] => some (some value)
  | _ => none

/-- A field that must be there. -/
def need {α : Type} (entries : Entries) (name : String) (decode : Json → Option α) : Option α :=
  (field? entries name).bind (·.bind decode)

/-- A field that takes a default where it is missing. -/
def field {α : Type} (entries : Entries) (name : String) (default : α) (decode : Json → Option α) :
    Option α :=
  (field? entries name).bind fun value =>
    match value with
    | some value => decode value
    | none => some default

/-- A value that may be null. -/
def nullable {α : Type} (decode : Json → Option α) : Json → Option (Option α)
  | .null => some none
  | value => (decode value).map some

def text : Json → Option String
  | .str value => some value
  | _ => none

def natural : Json → Option Nat
  | .int value => if 0 ≤ value then some value.toNat else none
  | _ => none

def list {α : Type} (decode : Json → Option α) : Json → Option (List α)
  | .arr items => items.mapM decode
  | _ => none

/-- A word of an enumeration, bare or as the only name of an object and with null for its value. -/
def bareWord {α : Type} (ofWord? : String → Option α) : Json → Option α
  | .str word => ofWord? word
  | .obj [(word, .null)] => ofWord? word
  | _ => none

/-- As `bareWord`, but an empty object will do for null. -/
def word {α : Type} (ofWord? : String → Option α) : Json → Option α
  | .obj [(word, .obj [])] => ofWord? word
  | value => bareWord ofWord? value

def flags : Json → Option (List Flag) := list (word Flag.ofWord?)

def span : Json → Option Span
  | .arr [start, stop] => do pure ⟨← natural start, ← natural stop⟩
  | .obj entries => do pure ⟨← need entries "start" natural, ← need entries "end" natural⟩
  | _ => none

/-- An integer that fits into 64 bits with its sign. -/
def int64 (value : Int) : Option Int :=
  if -0x8000000000000000 ≤ value && value < 0x8000000000000000 then some value else none

/-- An expression, nested at most so deep. Of an object, the first form whose fields are all
there and of the right shape counts. -/
def expr : Nat → Json → Option Expr
  | 0, _ => none
  | _ + 1, .int value => (int64 value).map .int
  | _ + 1, .bool value => some (.bool value)
  | _ + 1, .str value => some (.name value)
  | depth + 1, .obj entries =>
    (do pure (.str (← need entries "str" text))) <|>
    (do pure (.call (← need entries "call" text) (← field entries "args" [] (list (expr depth))))) <|>
    (do pure (.named (← need entries "named" text) (← need entries "value" (expr depth)))) <|>
    (do
      let op ← need entries "prim" (bareWord PrimOp.ofWord?)
      pure (.prim op (← field entries "args" [] (list (expr depth))))) <|>
    (do pure (.addrOf (← need entries "addr_of" (expr depth)))) <|>
    (do pure (.deref (← need entries "deref" (expr depth))))
  | _, _ => none

/-- A formal as an object, or as an array of its fields from the first on. -/
def formal (depth : Nat) : Json → Option Formal
  | .obj entries => do
    pure {
      name := ← need entries "name" text
      ty := ← field entries "ty" none (nullable text)
      intent := ← field entries "intent" .blank (word Intent.ofWord?)
      default := ← field entries "default" none (nullable (expr depth))
      flags := ← field entries "flags" [] flags }
  | .arr (name :: rest) => do
    if 4 < rest.length then none
    let slot {α : Type} (place : Nat) (default : α) (decode : Json → Option α) : Option α :=
      match rest[place]? with
      | some value => decode value
      | none => some default
    pure {
      name := ← text name
      ty := ← slot 0 none (nullable text)
      intent := ← slot 1 .blank (word Intent.ofWord?)
      default := ← slot 2 none (nullable (expr depth))
      flags := ← slot 3 [] flags }
  | _ => none

/-- The words for the forms of statements. A form may also be given by its place in this list. -/
def stmtWords : List String :=
  ["var", "type", "fn", "assign", "if", "while", "do_while", "for", "return", "break", "continue",
    "label", "goto", "expr"]

def stmtWord : Json → Option String
  | .str word => some word
  | .int place => if 0 ≤ place then stmtWords[place.toNat]? else none
  | _ => none

mutual

/-- A statement from its entries, the span apart. -/
def stmtOf : Nat → Entries → Span → Option Stmt
  | 0, _, _ => none
  | depth + 1, entries, span => do
    let expr := expr depth
    let body (name : String) := field entries name [] (list (stmt depth))
    match ← need entries "kind" stmtWord with
    | "var" =>
      let name ← need entries "name" text
      let ty ← field entries "ty" none (nullable text)
      let init ← field entries "init" none (nullable expr)
      pure (.var span name ty init (← field entries "flags" [] flags))
    | "type" => pure (.type span (← need entries "name" text))
    | "fn" =>
      let name ← need entries "name" text
      let formals ← field entries "formals" [] (list (formal depth))
      let ret ← field entries "ret" none (nullable text)
      let retTag ← field entries "ret_tag" .value (word RetTag.ofWord?)
      let flags ← field entries "flags" [] flags
      pure (.fn span name formals ret retTag flags (← body "body"))
    | "assign" => pure (.assign span (← need entries "target" expr) (← need entries "value" expr))
    | "if" =>
      let test ← need entries "cond" expr
      let thenBody ← need entries "then" (list (stmt depth))
      pure (.cond span test thenBody (← field entries "else" none (nullable (list (stmt depth)))))
    | "while" => pure (.loop span (← need entries "cond" expr) (← body "body") true)
    | "do_while" => pure (.loop span (← need entries "cond" expr) (← body "body") false)
    | "for" =>
      let index ← need entries "index" text
      pure (.forLoop span index (← need entries "iterable" expr) (← body "body"))
    | "return" => pure (.ret span (← field entries "value" none (nullable expr)))
    | "break" => pure (.brk span)
    | "continue" => pure (.cont span)
    | "label" => pure (.label span (← need entries "name" text))
    | "goto" => pure (.goto span (← need entries "label" text))
    | "expr" => pure (.expr span (← need entries "expr" expr))
    | _ => none

/-- A statement inside another one. -/
def stmt : Nat → Json → Option Stmt
  | depth + 1, .obj entries => do
    let place ← field entries "span" .nowhere span
    stmtOf depth (entries.filter (·.1 != "span")) place
  | _, _ => none

end

/-- More than any value that may be read can be nested. -/
def nesting : Nat := 2 * Json.Reader.nestingLimit

end Decode

open Json (Fault Reader)

namespace Read

open Json.Reader

/-- A span as an object or as an array of its two ends. -/
def span (depth : Nat) : Reader Span := do
  match ← peek with
  | some '[' =>
    array depth do
      let some start ← item? true natural | throw .wrongShape
      let some stop ← item? false natural | throw .wrongShape
      pure ⟨start, stop⟩
  | some '\x7b' =>
    object depth (none, none)
      (fun name (start, stop) => do
        match name with
        | "start" => pure (← once start natural, stop)
        | "end" => pure (start, ← once stop natural)
        | _ => entry skip; pure (start, stop))
      fun
        | (some start, some stop) => .ok ⟨start, stop⟩
        | _ => .error .wrongShape
  | _ => refuse

/-- A top-level statement. Its shape is looked at once its last entry has been read. -/
def stmt (depth : Nat) : Reader Stmt := do
  match ← peek with
  | some '\x7b' =>
    object depth (none, [])
      (fun name (place, entries) => do
        if name = "span" then pure (← once place (span (depth - 1)), entries)
        else pure (place, (name, ← entry (value (depth - 1))) :: entries))
      fun (place, entries) =>
        match Decode.stmtOf Decode.nesting entries.reverse (place.getD .nowhere) with
        | some stmt => .ok stmt
        | none => .error .wrongShape
  | _ => refuse

def moduleTree (depth : Nat) : Reader ModuleTree := do
  match ← peek with
  | some '[' =>
    array depth do
      let some name ← item? true text | throw .wrongShape
      let some items ← item? false (listOf stmt (depth - 1)) | pure { name := name }
      let some span ← item? false (span (depth - 1)) | pure { name := name, items := items }
      pure { name := name, items := items, span := span }
  | some '\x7b' =>
    object depth (none, none, none)
      (fun field (name, items, place) => do
        match field with
        | "name" => pure (← once name text, items, place)
        | "items" => pure (name, ← once items (listOf stmt (depth - 1)), place)
        | "span" => pure (name, items, ← once place (span (depth - 1)))
        | _ => entry skip; pure (name, items, place))
      fun
        | (some name, items, place) =>
          .ok { name := name, items := items.getD [], span := place.getD .nowhere }
        | _ => .error .wrongShape
  | _ => refuse

def programTree (depth : Nat) : Reader ProgramTree := do
  let modules := listOf moduleTree (depth - 1)
  match ← peek with
  | some '[' =>
    array depth do
      let some modules ← item? true modules | throw .wrongShape
      pure { modules := modules }
  | some '\x7b' =>
    object depth none
      (fun field found => do
        match field with
        | "modules" => once found modules
        | _ => entry skip; pure found)
      fun
        | some modules => .ok { modules := modules }
        | none => .error .wrongShape
  | _ => refuse

end Read

/-- Reads a surface program. -/
def ProgramTree.parse (text : String) : Except Fault ProgramTree :=
  Json.Reader.whole (Read.programTree Json.Reader.nestingLimit) text

end MiddleEnd.Surface
