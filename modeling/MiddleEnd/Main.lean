import MiddleEnd.CommandLine.Execute

namespace MiddleEnd.CommandLine

/-- Why a file cannot be read, as it is put to the user. -/
def reason : IO.Error → String
  | .noFileOrDirectory _ code _ => s!"No such file or directory (os error {code})"
  | .permissionDenied _ code _ => s!"Permission denied (os error {code})"
  | .inappropriateType _ code _ => s!"Is a directory (os error {code})"
  | other => other.toString

/-- Reads the files that a command line names. -/
def readFiles (paths : List String) : IO (List (String × Except String String)) :=
  paths.mapM fun (path : String) => do
    try
      let text ← IO.FS.readFile path
      pure (path, .ok text)
    catch error => pure (path, .error (reason error))

/-- Looks a file up among those that have been read. -/
def lookUp (read : List (String × Except String String)) (path : String) :
    Except String String :=
  (read.lookup path).getD (.error "No such file or directory (os error 2)")

end MiddleEnd.CommandLine

open MiddleEnd.CommandLine in
def main (args : List String) : IO UInt32 := do
  let paths := ((Command.parse args).toOption.map Command.paths).getD []
  let read ← readFiles paths
  let result := answer (lookUp read) args
  IO.print result.out
  IO.eprint result.err
  return result.exit.toUInt32
