namespace MiddleEnd.CommandLine

/-- Why a path cannot be read. -/
inductive FileError where
  | notFound
  | notADirectory
  | isADirectory
  | nameTooLong
  deriving DecidableEq, Repr

def FileError.message : FileError → String
  | notFound => "No such file or directory (os error 2)"
  | notADirectory => "Not a directory (os error 20)"
  | isADirectory => "Is a directory (os error 21)"
  | nameTooLong => "File name too long (os error 36)"

/-- The working directory of a run, held in memory: every file under the names that lead to it. -/
structure Directory where
  entries : List (List String × String)

namespace Directory

def ofList (files : List (String × String)) : Directory :=
  ⟨files.map fun (path, text) => (path.splitOn "/", text)⟩

def text? (d : Directory) (names : List String) : Option String := d.entries.lookup names

/-- The working directory is there also when it is empty. -/
def isDirectory (d : Directory) (names : List String) : Bool :=
  names.isEmpty ||
    d.entries.any fun (path, _) => names.isPrefixOf path && names.length < path.length

/-- Where the names of a path have led. -/
inductive Place where
  /-- To what these names lead to from the working directory. -/
  | inside (names : List String)
  /-- To a directory that does not lie in the working directory. -/
  | outside
  deriving DecidableEq, Repr

/-- How many bytes a name may have. -/
def nameLimit : Nat := 255

/-- How many bytes a path may have. -/
def pathLimit : Nat := 4095

/-- Follows one name of a path. Only a directory can be left through a name, an empty one included;
of what lies outside the working directory nothing is known but that it is there. -/
def follow (d : Directory) (place : Place) (name : String) : Except FileError Place :=
  let stays := name = "" || name = "."
  match place with
  | .outside =>
    if stays || name = ".." then .ok .outside
    else if nameLimit < name.utf8ByteSize then .error .nameTooLong
    else .error .notFound
  | .inside names =>
    let inner := names ++ [name]
    if !d.isDirectory names then .error .notADirectory
    else if stays then .ok place
    else if name = ".." then .ok (if names.isEmpty then .outside else .inside names.dropLast)
    else if nameLimit < name.utf8ByteSize then .error .nameTooLong
    else if (d.text? inner).isSome || d.isDirectory inner then .ok (.inside inner)
    else .error .notFound

/-- The text of the file at a path. -/
def read (d : Directory) (path : String) : Except FileError String := do
  if path.isEmpty then throw .notFound
  if pathLimit < path.utf8ByteSize then throw .nameTooLong
  let start : Place := if path.startsWith "/" then .outside else .inside []
  match ← (path.splitOn "/").foldlM d.follow start with
  | .inside names =>
    match d.text? names with
    | some text => pure text
    | none => throw .isADirectory
  | .outside => throw .isADirectory

end Directory

end MiddleEnd.CommandLine
