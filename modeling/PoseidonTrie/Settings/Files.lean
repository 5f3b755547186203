namespace PoseidonTrie.Settings

/-- A name below a directory. A name from the root stands alone. -/
def joinPath (directory name : String) : String :=
  if name.startsWith "/" || directory = "" then name
  else if directory.endsWith "/" then directory ++ name
  else directory ++ "/" ++ name

/-- A path up to the end of its last name. -/
def upToName (path : String) : String :=
  String.ofList (trim path.toList.reverse).reverse
where
  trim : List Char → List Char
    | '/' :: rest => trim rest
    | '.' :: '/' :: rest => trim rest
    | rest => rest

/-- The bytes of the longest path that is followed, however short the place it leads to. -/
def pathLimit : Nat := 4095

/-- A path from the root that may lead to a regular file. One that ends in a slash does not. -/
def isFilePath (path : String) : Bool :=
  path.startsWith "/" && path.utf8ByteSize ≤ pathLimit
    && !path.endsWith "/" && !path.endsWith "/."

def pathNames (path : String) : List String :=
  (path.splitOn "/").filter fun name => name ≠ "" ∧ name ≠ "."

/-- The names from the root to a file or a directory. -/
abbrev Place := List String

/-- The place under a name. The root is its own parent. -/
def Place.step (place : Place) (name : String) : Place :=
  if name = ".." then place.dropLast else place ++ [name]

/-- The directories below the root, and the texts of the regular files from the latest on. -/
structure Files where
  directories : List Place
  texts : List (Place × String)

namespace Files

def empty : Files := ⟨[], []⟩

def isDirectory (files : Files) (place : Place) : Bool :=
  place.isEmpty || files.directories.contains place

def text? (files : Files) (place : Place) : Option String :=
  (files.texts.find? (·.1 = place)).map (·.2)

/-- The place that names lead to. Every step but the last must be a directory. -/
def resolve? (files : Files) (place : Place) : (names : List String) → Option Place
  | [] => some place
  | name :: rest =>
    let place := place.step name
    if rest.isEmpty || files.isDirectory place then resolve? files place rest else none

/-- The text of the regular file at a path. -/
def read? (files : Files) (path : String) : Option String := do
  guard (isFilePath path)
  files.text? (← files.resolve? [] (pathNames path))

/-- The place that names lead to, made a directory with all on the way. No file may be there. -/
def makeDirectories? (files : Files) (place : Place) :
    (names : List String) → Option (Files × Place)
  | [] => some (files, place)
  | name :: rest => do
    let place := place.step name
    guard (files.text? place).isNone
    makeDirectories? { files with directories := place :: files.directories } place rest

/-- Writes the text of the regular file at a path, in place of an earlier one. Directories on the
way are made, also those that the path only passes through. -/
def write? (files : Files) (path text : String) : Option Files := do
  guard (isFilePath path)
  let names := pathNames path
  let (files, place) ← files.makeDirectories? [] names.dropLast
  let place := place.step (← names.getLast?)
  guard !files.isDirectory place
  return { files with texts := (place, text) :: files.texts }

end Files

end PoseidonTrie.Settings
