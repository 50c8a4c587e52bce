import MiddleEnd.Json.Value

namespace MiddleEnd.Json

/-- What is wrong with a text that was to hold a value of some shape. -/
inductive Fault where
  /-- The text is no JSON. -/
  | malformed
  /-- The text ends too early. -/
  | endOfText
  /-- The text is JSON, but not of the shape that was asked for. -/
  | wrongShape
  deriving DecidableEq, Repr

/-- Reads from the front of a text and leaves the rest. -/
abbrev Reader := StateT (List Char) (Except Fault)

namespace Reader

def isSpace (c : Char) : Bool := c == ' ' || c == '\n' || c == '\t' || c == '\r'

/-- The next character after any blanks; it stays in the text. -/
def peek : Reader (Option Char) := fun cs =>
  let rest := cs.dropWhile isSpace
  pure (rest.head?, rest)

/-- Drops the next character. -/
def advance : Reader Unit := modify List.tail

/-- Fails by what is next: the end of the text, or something that does not belong there. -/
def fail {α : Type} : Option Char → Reader α
  | none => throw .endOfText
  | some _ => throw .malformed

/-- Reads what is left of a word. -/
def word : List Char → Reader Unit
  | [] => pure ()
  | c :: rest => do
    match ← get with
    | [] => throw .endOfText
    | d :: after => if c = d then do set after; word rest else throw .malformed

/-! Texts between quotes. -/

def hexDigit? (c : Char) : Option Nat :=
  if '0' ≤ c && c ≤ '9' then some (c.toNat - '0'.toNat)
  else if 'a' ≤ c && c ≤ 'f' then some (c.toNat - 'a'.toNat + 10)
  else if 'A' ≤ c && c ≤ 'F' then some (c.toNat - 'A'.toNat + 10)
  else none

/-- Four hexadecimal digits. The text ends too early if it has less than four bytes left. -/
def hexFour (cs : List Char) : Except Fault (Nat × List Char) :=
  let digits := cs.take 4
  if digits.foldr (·.utf8Size + ·) 0 < 4 then throw .endOfText
  else
    match digits.mapM hexDigit? with
    | some [a, b, c, d] => pure (((a * 16 + b) * 16 + c) * 16 + d, cs.drop 4)
    | _ => throw .malformed

/-- Is the number the first half of a pair that stands for one character? -/
def isHighHalf (n : Nat) : Bool := 0xD800 ≤ n && n < 0xDC00

def isLowHalf (n : Nat) : Bool := 0xDC00 ≤ n && n < 0xE000

/-- The character of an escape by number, the second half of a pair included. -/
def unicode (cs : List Char) : Except Fault (Char × List Char) := do
  let (high, rest) ← hexFour cs
  if isLowHalf high then throw .malformed
  else if isHighHalf high then
    match rest with
    | [] => throw .endOfText
    | ['\\'] => throw .endOfText
    | '\\' :: 'u' :: rest =>
      let (low, rest) ← hexFour rest
      if isLowHalf low then
        pure (Char.ofNat (0x10000 + (high - 0xD800) * 0x400 + (low - 0xDC00)), rest)
      else throw .malformed
    | _ => throw .malformed
  else pure (Char.ofNat high, rest)

/-- The character that an escape stands for. When the text is only skipped, halves of pairs are
not put together. -/
def escape (strict : Bool) : List Char → Except Fault (Char × List Char)
  | [] => throw .endOfText
  | '"' :: rest => pure ('"', rest)
  | '\\' :: rest => pure ('\\', rest)
  | '/' :: rest => pure ('/', rest)
  | 'b' :: rest => pure ('\x08', rest)
  | 'f' :: rest => pure ('\x0c', rest)
  | 'n' :: rest => pure ('\n', rest)
  | 'r' :: rest => pure ('\r', rest)
  | 't' :: rest => pure ('\t', rest)
  | 'u' :: rest =>
    if strict then unicode rest
    else do
      let (_, rest) ← hexFour rest
      pure (' ', rest)
  | _ => throw .malformed

/-- The characters up to the closing quote, put before those in `done`, last first. -/
def stringBody (strict : Bool) : Nat → List Char → List Char → Except Fault (String × List Char)
  | 0, _, _ => throw .endOfText
  | _ + 1, _, [] => throw .endOfText
  | fuel + 1, done, c :: rest =>
    if c = '"' then pure (String.ofList done.reverse, rest)
    else if c = '\\' then do
      let (d, rest) ← escape strict rest
      stringBody strict fuel (d :: done) rest
    else if c.toNat < 0x20 then throw .malformed
    else stringBody strict fuel (c :: done) rest

/-- A text whose opening quote is next. -/
def string (strict : Bool) : Reader String := do
  advance
  fun cs => stringBody strict (cs.length + 1) [] cs

/-! Numbers. -/

def maxWord : Nat := UInt64.size - 1

/-- Digits of a number as far as they fit into a word, and how many did not fit. -/
def gather (start : Nat) : List Char → Nat × Nat
  | [] => (start, 0)
  | c :: rest =>
    let next := start * 10 + (c.toNat - '0'.toNat)
    if next ≤ maxWord then gather next rest else (start, rest.length + 1)

/-- Is a number of this significand and this power of ten too large for a double? -/
def overflows (significand : Nat) (power : Int) : Bool :=
  significand != 0 && 0 ≤ power &&
    (308 < power ||
      (significand.toUInt64.toFloat * Float.ofScientific 1 false power.toNat).isInf)

/-- The number that decimal digits stand for. -/
def natOf (digits : List Char) : Nat :=
  digits.foldl (fun n c => n * 10 + (c.toNat - '0'.toNat)) 0

/-- The parts of a number as it is written. -/
structure Decimal where
  negative : Bool
  whole : List Char
  fraction : Option (List Char)
  /-- The sign and the digits of the exponent. -/
  exponent : Option (Bool × List Char)

namespace Decimal

/-- The power of ten in the exponent. -/
def power (d : Decimal) : Int :=
  match d.exponent with
  | none => 0
  | some (negative, digits) =>
    if negative then -(natOf digits : Int) else natOf digits

/-- Does the number lie outside the range of doubles? -/
def outOfRange (d : Decimal) : Bool :=
  let (whole, dropped) := gather 0 d.whole
  let (significand, power) : Nat × Int :=
    match d.fraction with
    | none => (whole, dropped)
    | some digits =>
      let (significand, lost) := gather whole digits
      (significand, (dropped : Int) - (digits.length - lost : Nat))
  let ten : Int := d.power
  if ten ≥ 0x80000000 then significand != 0
  else if ten ≤ -0x80000000 then false
  else overflows significand (power + ten)

def text (d : Decimal) : String :=
  let sign := if d.negative then "-" else ""
  let fraction := (d.fraction.map fun digits => "." ++ String.ofList digits).getD ""
  let exponent :=
    (d.exponent.map fun (negative, digits) =>
      (if negative then "e-" else "e") ++ String.ofList digits).getD ""
  sign ++ String.ofList d.whole ++ fraction ++ exponent

/-- The value of a number; only integers of 64 bits count as integers, and a negative zero does
not. -/
def toJson (d : Decimal) : Json :=
  let size := natOf d.whole
  if d.fraction.isSome || d.exponent.isSome then .real d.text
  else if d.negative then
    if 0 < size && size ≤ 0x8000000000000000 then .int (-(size : Int)) else .real d.text
  else if size ≤ maxWord then .int size
  else .real d.text

end Decimal

/-- One digit or more. -/
def digits (strict : Bool) : Reader (List Char) := fun cs =>
  let found := cs.takeWhile Char.isDigit
  if found.isEmpty then throw (if cs.isEmpty && strict then .endOfText else .malformed)
  else pure (found, cs.drop found.length)

/-- Takes the next character if it is one of these. -/
def take? (wanted : List Char) : Reader (Option Char) := fun cs =>
  match cs with
  | c :: rest => pure (if wanted.contains c then (some c, rest) else (none, cs))
  | [] => pure (none, [])

/-- A number, cut into its parts. A number that is only skipped is malformed, and not cut short,
where the text ends in it. -/
def decimal (strict : Bool) : Reader Decimal := do
  let sign ← take? ['-']
  let whole ← digits strict
  if whole.head? = some '0' && 1 < whole.length then throw .malformed
  let fraction ←
    match ← take? ['.'] with
    | some _ => some <$> digits strict
    | none => pure none
  let exponent ←
    match ← take? ['e', 'E'] with
    | some _ =>
      let sign ← take? ['+', '-']
      let power ← digits strict
      pure (some (sign == some '-', power))
    | none => pure none
  pure ⟨sign.isSome, whole, fraction, exponent⟩

def number : Reader Json := do
  let d ← decimal true
  if d.outOfRange then throw .malformed
  pure d.toJson

/-! Arrays and objects. -/

/-- Moves to the next element of an array. False at its end, which stays in the text. -/
def nextItem (first : Bool) : Reader Bool := do
  match ← peek with
  | some ']' => pure false
  | some ',' =>
    if first then pure true
    else
      advance
      match ← peek with
      | some ']' => throw .malformed
      | some _ => pure true
      | none => throw .endOfText
  | some _ => if first then pure true else throw .malformed
  | none => throw .endOfText

/-- Reads the next name of an object; its colon stays in the text, so that a name can be refused
before it is known to have a value. None at the end of the object, which stays in the text too. -/
def nextName (strict first : Bool) : Reader (Option String) := do
  let begun ←
    match ← peek with
    | some '\x7d' => pure none
    | some ',' => if first then pure (some ',') else do advance; pure (some (← atName))
    | some c => if first then pure (some c) else throw .malformed
    | none => throw .endOfText
  match begun with
  | none => pure none
  | some '"' => some <$> string strict
  | some _ => throw .malformed
where
  atName : Reader Char := do
    match ← peek with
    | some c => pure c
    | none => throw .endOfText

/-- Reads the colon between a name and its value. -/
def colon : Reader Unit := do
  match ← peek with
  | some ':' => advance
  | other => fail other

/-- Closes an array or object after everything that was asked of it has been read. -/
def close (bracket : Char) : Reader Unit := do
  match ← peek with
  | some c => if c = bracket then advance else throw .malformed
  | none => throw .endOfText

/-- How many arrays and objects may be nested, the outermost one included, plus one. -/
def nestingLimit : Nat := 128

/-- Opens an array or object, unless it lies too deep. -/
def openNested (depth : Nat) : Reader Unit :=
  if depth ≤ 1 then throw .malformed else advance

mutual

/-- Any value; `depth` says how much deeper it may nest. -/
def valueIn : Nat → Nat → Reader Json
  | 0, _ => throw .malformed
  | fuel + 1, depth => do
    match ← peek with
    | none => throw .endOfText
    | some 'n' => word "null".toList; pure .null
    | some 't' => word "true".toList; pure (.bool true)
    | some 'f' => word "false".toList; pure (.bool false)
    | some '"' => .str <$> string true
    | some '[' => do
      openNested depth
      let items ← itemsIn fuel (depth - 1) true
      advance
      pure (.arr items)
    | some '\x7b' => do
      openNested depth
      let entries ← entriesIn fuel (depth - 1) true
      advance
      pure (.obj entries)
    | some c => if c = '-' || c.isDigit then number else throw .malformed

def itemsIn : Nat → Nat → Bool → Reader (List Json)
  | 0, _, _ => throw .malformed
  | fuel + 1, depth, first => do
    if ← nextItem first then
      let item ← valueIn fuel depth
      let rest ← itemsIn fuel depth false
      pure (item :: rest)
    else pure []

def entriesIn : Nat → Nat → Bool → Reader (List (String × Json))
  | 0, _, _ => throw .malformed
  | fuel + 1, depth, first => do
    match ← nextName true first with
    | some name =>
      colon
      let item ← valueIn fuel depth
      let rest ← entriesIn fuel depth false
      pure ((name, item) :: rest)
    | none => pure []

end

/-- As much fuel as reading the rest of a text can use: every second step takes a character. -/
def fuelFor (cs : List Char) : Nat := 2 * cs.length + 2

/-- Any value that nests no deeper than it may. -/
def value (depth : Nat) : Reader Json := do
  valueIn (fuelFor (← get)) depth

mutual

/-- Passes over a value without looking into it more than needed to find its end. -/
def skipIn : Nat → Reader Unit
  | 0 => throw .malformed
  | fuel + 1 => do
    match ← peek with
    | none => throw .endOfText
    | some 'n' => word "null".toList
    | some 't' => word "true".toList
    | some 'f' => word "false".toList
    | some '"' => do let _ ← string false
    | some '[' => do advance; skipItems fuel true; advance
    | some '\x7b' => do advance; skipEntries fuel true; advance
    | some c =>
      if c = '-' || c.isDigit then do let _ ← decimal false
      else throw .malformed

def skipItems : Nat → Bool → Reader Unit
  | 0, _ => throw .malformed
  | fuel + 1, first => do
    if ← nextItem first then do skipIn fuel; skipItems fuel false

def skipEntries : Nat → Bool → Reader Unit
  | 0, _ => throw .malformed
  | fuel + 1, first => do
    match ← nextName false first with
    | some _ => do colon; skipIn fuel; skipEntries fuel false
    | none => pure ()

end

/-- Passes over a value. It may nest as deep as it likes. -/
def skip : Reader Unit := do
  skipIn (fuelFor (← get))

/-! Values of one shape. -/

/-- Refuses a value of another shape. A scalar is read first, so that what is wrong with its text
comes before what is wrong with its shape. -/
def refuse {α : Type} : Reader α := do
  match ← peek with
  | none => throw .endOfText
  | some '[' => throw .wrongShape
  | some '\x7b' => throw .wrongShape
  | some _ => do
    let _ ← value nestingLimit
    throw .wrongShape

def text : Reader String := do
  match ← peek with
  | some '"' => string true
  | _ => refuse

/-- An integer of 64 bits without a sign. -/
def natural : Reader Nat := do
  match ← peek with
  | some c =>
    if c = '-' || c.isDigit then
      match ← number with
      | .int n => if 0 ≤ n then pure n.toNat else throw .wrongShape
      | _ => throw .wrongShape
    else refuse
  | none => throw .endOfText

/-- The elements of an array that is already open. -/
def itemsOf {α : Type} (item : Reader α) : Nat → Bool → Reader (List α)
  | 0, _ => throw .malformed
  | fuel + 1, first => do
    if ← nextItem first then
      let x ← item
      let xs ← itemsOf item fuel false
      pure (x :: xs)
    else pure []

/-- An array of values of one shape; `item` is told how much deeper it may nest. -/
def listOf {α : Type} (item : Nat → Reader α) (depth : Nat) : Reader (List α) := do
  match ← peek with
  | some '[' => do
    openNested depth
    let items ← itemsOf (item (depth - 1)) (fuelFor (← get)) true
    advance
    pure items
  | _ => refuse

/-- The next element of an array that is already open, if there is one. -/
def item? {α : Type} (first : Bool) (item : Reader α) : Reader (Option α) := do
  if ← nextItem first then some <$> item else pure none

/-- The entries of an object that is already open. Each name is handed on, its colon unread,
together with what was gathered so far. -/
def entriesOf {σ : Type} (entry : String → σ → Reader σ) : Nat → Bool → σ → Reader σ
  | 0, _, _ => throw .malformed
  | fuel + 1, first, s => do
    match ← nextName true first with
    | some name => do
      let s ← entry name s
      entriesOf entry fuel false s
    | none => pure s

/-- Reads an object name by name, then makes a value of what was gathered. -/
def object {σ α : Type} (depth : Nat) (start : σ) (entry : String → σ → Reader σ)
    (finish : σ → Except Fault α) : Reader α := do
  openNested depth
  let s ← entriesOf entry (fuelFor (← get)) true start
  let a ← finish s
  advance
  pure a

/-- Reads an array element by element. -/
def array {α : Type} (depth : Nat) (items : Reader α) : Reader α := do
  openNested depth
  let a ← items
  close ']'
  pure a

/-- Reads the value that belongs to the name read last. -/
def entry {α : Type} (reader : Reader α) : Reader α := do
  colon
  reader

/-- Reads into a field that may not be there twice: the second name is refused at once. -/
def once {α : Type} (field : Option α) (reader : Reader α) : Reader (Option α) :=
  if field.isSome then throw .wrongShape else some <$> entry reader

/-- Reads a whole text that holds one value and nothing after it. -/
def whole {α : Type} (reader : Reader α) (text : String) : Except Fault α :=
  (reader.run text.toList).bind fun (a, rest) =>
    if (rest.dropWhile isSpace).isEmpty then .ok a else .error .malformed

end Reader

/-- Reads any value. -/
def parse (text : String) : Except Fault Json :=
  Reader.whole (Reader.value Reader.nestingLimit) text

end MiddleEnd.Json
