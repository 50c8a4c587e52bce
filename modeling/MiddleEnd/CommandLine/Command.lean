namespace MiddleEnd.CommandLine

/-- The options, each with a long spelling and some with a short one. -/
inductive Switch where
  | verbose
  | help
  | config
  | source
  | dumpAfter
  | dumpEvery
  | timing
  | stats
  | noVerify
  | json
  | emit
  deriving DecidableEq, Repr

namespace Switch

def long : Switch → String
  | verbose => "verbose"
  | help => "help"
  | config => "config"
  | source => "source"
  | dumpAfter => "dump-after"
  | dumpEvery => "dump-every"
  | timing => "timing"
  | stats => "stats"
  | noVerify => "no-verify"
  | json => "json"
  | emit => "emit"

def short? : Switch → Option Char
  | verbose => some 'v'
  | help => some 'h'
  | config => some 'c'
  | source => some 's'
  | _ => none

/-- Is the option followed by a value? -/
def takesValue : Switch → Bool
  | config | source | dumpAfter => true
  | _ => false

/-- Is the value a path? A path is never empty. -/
def takesPath : Switch → Bool
  | config | source => true
  | _ => false

/-- May the option be given more than once? -/
def repeats : Switch → Bool
  | verbose | dumpAfter => true
  | _ => false

/-- The options of every command. -/
def shared : List Switch := [verbose, help]

/-- The options of the command that runs the passes. -/
def ofRun : List Switch :=
  shared ++ [config, source, dumpAfter, dumpEvery, timing, stats, noVerify, json, emit]

end Switch

/-- Why a command line is not understood. -/
inductive UsageError where
  | noCommand
  | unknownCommand (name : String)
  | unknownOption (text : String)
  | unexpectedArgument (text : String)
  | missingFile
  | missingValue (option : Switch)
  | unneededValue (option : Switch)
  | repeatedOption (option : Switch)
  | emptyPath
  | conflict (one other : Switch)
  deriving DecidableEq, Repr

def UsageError.message : UsageError → String
  | noCommand => "a command is required: run, dump or passes"
  | unknownCommand name => s!"unrecognized command '{name}'"
  | unknownOption text => s!"unexpected option '{text}'"
  | unexpectedArgument text => s!"unexpected argument '{text}'"
  | missingFile => "an input file is required"
  | missingValue option => s!"option '--{option.long}' needs a value"
  | unneededValue option => s!"option '--{option.long}' takes no value"
  | repeatedOption option => s!"option '--{option.long}' cannot be used more than once"
  | emptyPath => "a path cannot be empty"
  | conflict one other => s!"option '--{one.long}' cannot be used with '--{other.long}'"

/-- What the arguments of one command hold, read from left to right. -/
structure Given where
  /-- The options in the order given, with their values. -/
  switches : List (Switch × Option String) := []
  /-- The arguments that are no options. -/
  arguments : List String := []
  deriving DecidableEq, Repr, Inhabited

namespace Given

def has (g : Given) (s : Switch) : Bool := g.switches.any (·.1 == s)

def values (g : Given) (s : Switch) : List String :=
  (g.switches.filter (·.1 == s)).filterMap Prod.snd

/-- Puts down an option. -/
def add (g : Given) (s : Switch) (value : Option String) : Except UsageError Given :=
  if s.takesPath && value == some "" then .error .emptyPath
  else if g.has s && !s.repeats then .error (.repeatedOption s)
  else .ok { g with switches := g.switches ++ [(s, value)] }

/-- Puts down an argument that is no option; a command has room for so many. -/
def addArgument (g : Given) (room : Nat) (text : String) : Except UsageError Given :=
  if room ≤ g.arguments.length then .error (.unexpectedArgument text)
  else if text.isEmpty then .error .emptyPath
  else .ok { g with arguments := g.arguments ++ [text] }

end Given

/-- Reads an argument of the form `--name` or `--name=value`, without its dashes. An option that
still waits for its value is handed back. -/
def readLong (known : List Switch) (body : List Char) (g : Given) :
    Except UsageError (Given × Option Switch) := do
  let name := body.takeWhile (· != '=')
  let rest := body.dropWhile (· != '=')
  match known.find? (·.long.toList == name) with
  | none => .error (.unknownOption ("--" ++ String.ofList name))
  | some s =>
    match s.takesValue, rest with
    | true, [] => pure (g, some s)
    | true, _ :: value => do pure (← g.add s (some (String.ofList value)), none)
    | false, [] => do pure (← g.add s none, none)
    | false, _ :: _ => .error (.unneededValue s)

/-- Reads short options that stand together behind one dash. The first that takes a value takes
the rest of the argument for it, without a leading equals sign. -/
def readShort (known : List Switch) : List Char → Given →
    Except UsageError (Given × Option Switch)
  | [], g => pure (g, none)
  | c :: rest, g =>
    match known.find? (·.short? == some c) with
    | none => .error (.unknownOption ("-" ++ c.toString))
    | some s =>
      match s.takesValue, rest with
      | false, _ => do
        let g ← g.add s none
        if s = .help then pure (g, none) else readShort known rest g
      | true, [] => pure (g, some s)
      | true, '=' :: value => do pure (← g.add s (some (String.ofList value)), none)
      | true, value => do pure (← g.add s (some (String.ofList value)), none)

/-- Reads the arguments of a command. Whoever asks for help gets it, whatever follows. -/
def readGiven (known : List Switch) (room : Nat) :
    List String → Option Switch → Given → Except UsageError Given
  | [], none, g => pure g
  | [], some waiting, _ => .error (.missingValue waiting)
  | text :: rest, waiting, g =>
    match text.toList, waiting with
    | ['-', '-'], none => rest.foldlM (fun g text => g.addArgument room text) g
    | '-' :: _ :: _, some waiting => .error (.missingValue waiting)
    | '-' :: '-' :: body, none => do
      let (g, waiting) ← readLong known body g
      if g.has .help then pure g else readGiven known room rest waiting g
    | '-' :: c :: body, none => do
      let (g, waiting) ← readShort known (c :: body) g
      if g.has .help then pure g else readGiven known room rest waiting g
    | _, some waiting => do
      readGiven known room rest none (← g.add waiting (some text))
    | _, none => do
      readGiven known room rest none (← g.addArgument room text)

/-- How a run is to be done and what is to be written about it. -/
structure RunOptions where
  file : String
  config : Option String := none
  source : Option String := none
  timing : Bool := false
  stats : Bool := false
  dumpAfter : List String := []
  dumpEvery : Bool := false
  noVerify : Bool := false
  json : Bool := false
  emit : Bool := false
  deriving DecidableEq, Repr, Inhabited

inductive Command where
  | run (options : RunOptions)
  /-- Write the program as it is before any pass. -/
  | dump (file : String)
  | passes
  | help
  deriving DecidableEq, Repr

namespace Command

def ofRunArguments (args : List String) : Except UsageError Command := do
  let g ← readGiven Switch.ofRun 1 args none {}
  if g.has .help then pure help
  else if g.has .dumpEvery && g.has .dumpAfter then .error (.conflict .dumpEvery .dumpAfter)
  else
    match g.arguments with
    | file :: _ => pure (run {
        file := file
        config := (g.values .config).head?
        source := (g.values .source).head?
        timing := g.has .timing
        stats := g.has .stats
        dumpAfter := g.values .dumpAfter
        dumpEvery := g.has .dumpEvery
        noVerify := g.has .noVerify
        json := g.has .json
        emit := g.has .emit })
    | [] => .error .missingFile

def ofDumpArguments (args : List String) : Except UsageError Command := do
  let g ← readGiven Switch.shared 1 args none {}
  if g.has .help then pure help
  else
    match g.arguments with
    | file :: _ => pure (dump file)
    | [] => .error .missingFile

def ofPassesArguments (args : List String) : Except UsageError Command := do
  let g ← readGiven Switch.shared 0 args none {}
  pure (if g.has .help then help else passes)

/-- The words that begin a command. -/
def words : List String := ["run", "dump", "passes", "help"]

/-- Help is for the program, or for one of its commands. -/
def ofHelpArguments : List String → Except UsageError Command
  | [] => .ok help
  | [word] => if words.contains word then .ok help else .error (.unknownCommand word)
  | _ :: word :: _ => .error (.unknownCommand word)

/-- Reads a command line: shared options, the word of the command, then what belongs to it. -/
def parse : List String → Except UsageError Command
  | [] => .error .noCommand
  | "run" :: rest => ofRunArguments rest
  | "dump" :: rest => ofDumpArguments rest
  | "passes" :: rest => ofPassesArguments rest
  | "help" :: rest => ofHelpArguments rest
  | "--" :: rest =>
    match rest with
    | [] => .error .noCommand
    | text :: _ => .error (.unexpectedArgument text)
  | text :: rest =>
    match text.toList with
    | '-' :: _ :: _ => do
      let g ← readGiven Switch.shared 0 [text] none {}
      if g.has .help then pure help else parse rest
    | _ => .error (.unknownCommand text)

/-- The files that a command reads. -/
def paths : Command → List String
  | run options => options.config.toList ++ options.source.toList ++ [options.file]
  | dump file => [file]
  | passes | help => []

end Command

end MiddleEnd.CommandLine
