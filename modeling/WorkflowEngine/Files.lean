/-!
# Files

A tree of files and directories as far as it is known. Paths are texts; where they lead to does not
depend on repeated slashes or on parts that stay in place.

## Main definitions

* `Path.parts`, `Path.join`, `Path.extension?`: parts of paths
* `Files`: the tree
* `FileError`, `FileError.message`: why a file cannot be read or written
* `Files.read`, `Files.write`, `Files.below`: one file, and all files of a directory
-/

namespace WorkflowEngine

namespace FilePath

/-- The parts of a path between slashes. -/
def split (path : String) : List String :=
  (path.toList.splitOn '/').map String.ofList

/-- A part leads on from the parts before it. -/
def follow (before : List String) (part : String) : List String :=
  if part.isEmpty || part == "." then before
  else if part == ".." then before.dropLast
  else before ++ [part]

/-- The parts of the place that a path leads to. -/
def parts (path : String) : List String := (split path).foldl follow []

/-- The path leads to a directory if it leads anywhere. -/
def endsInDirectory (path : String) : Bool :=
  match (split path).getLast? with
  | some last => last.isEmpty || last == "." || last == ".."
  | none => false

/-- The path of an entry of a directory. -/
def join (dir name : String) : String :=
  if dir.isEmpty || dir.endsWith "/" then dir ++ name else dir ++ "/" ++ name

/-- The part of a name after its last point, unless that is its first character. -/
def extension? (name : String) : Option String :=
  let after := name.toList.reverse.takeWhile (· != '.')
  if after.length + 1 < name.length then some (String.ofList after.reverse) else none

/-- The extension of the file that a path leads to. -/
def extensionOf? (path : String) : Option String := (parts path).getLast?.bind extension?

end FilePath

/-- Why a file cannot be read or written. -/
inductive FileError where
  | notFound
  | exists
  | notADirectory
  | isADirectory
  /-- The bytes are no text. -/
  | notText
deriving Repr, DecidableEq

/-- The text that says why a file cannot be read or written. -/
def FileError.message : FileError → String
  | .notFound => "No such file or directory (os error 2)"
  | .exists => "File exists (os error 17)"
  | .notADirectory => "Not a directory (os error 20)"
  | .isADirectory => "Is a directory (os error 21)"
  | .notText => "stream did not contain valid UTF-8"

/-- What stands at a place. -/
inductive FileEntry where
  | directory
  /-- A file with its text, or none if its bytes are no text. -/
  | file (text : Option String)
deriving Repr, DecidableEq

/-- A tree of files and directories. Directories on the way to an entry need no entries. -/
abbrev Files := List (List String × FileEntry)

namespace Files

/-- The tree with the given paths. -/
def ofList (entries : List (String × FileEntry)) : Files :=
  entries.map fun (path, e) => (FilePath.parts path, e)

variable (files : Files)

/-- What stands at a place. -/
def at? (place : List String) : Option FileEntry :=
  match files.lookup place with
  | some e => some e
  | none =>
    if place.isEmpty || files.any fun e => place.isPrefixOf e.1 then some .directory else none

/-- A place is a file. -/
def isFileAt (place : List String) : Bool :=
  match files.at? place with
  | some (.file _) => true
  | _ => false

/-- A place on the way to another is a file. -/
def isBlocked (place : List String) : Bool :=
  (List.range place.length).any fun n => files.isFileAt (place.take n)

/-- The directory at a place exists. -/
def isDirectoryAt (place : List String) : Bool := files.at? place == some .directory

/-- A path leads to a directory. -/
def isDirectory (path : String) : Bool :=
  !path.isEmpty && files.isDirectoryAt (FilePath.parts path)

/-- A path leads somewhere. -/
def isThere (path : String) : Bool :=
  let place := FilePath.parts path
  !path.isEmpty && (files.at? place).isSome &&
    !(FilePath.endsInDirectory path && files.isFileAt place)

/-- The text of a file. -/
def read (path : String) : Except FileError String :=
  let place := FilePath.parts path
  if path.isEmpty then .error .notFound
  else if files.isBlocked place then .error .notADirectory
  else
    match files.at? place with
    | none => .error .notFound
    | some .directory => .error .isADirectory
    | some (.file text) =>
      if FilePath.endsInDirectory path then .error .notADirectory
      else
        match text with
        | some s => .ok s
        | none => .error .notText

/-- The tree with the directories on the way to a place. -/
def makeDirectories (place : List String) : Except FileError Files :=
  if files.isBlocked place then .error .notADirectory
  else
    match files.at? place with
    | some (.file _) => .error .exists
    | some .directory => .ok files
    | none => .ok (files ++ [(place, .directory)])

/-- The tree with a file written, and the directories on the way to it. -/
def write (path text : String) : Except FileError Files := do
  let place := FilePath.parts path
  let files ← files.makeDirectories place.dropLast
  if files.isDirectoryAt place then throw .isADirectory
  return (files.filter fun e => e.1 != place) ++ [(place, .file (some text))]

/-- The place comes before another one in listings. -/
def comesBefore : List String → List String → Bool
  | [], _ => true
  | _ :: _, [] => false
  | a :: as, b :: bs => if a == b then comesBefore as bs else a < b

/-- The files of a directory and of those within it, with their paths, in order. -/
def below (dir : String) : List String :=
  let place := FilePath.parts dir
  let inside := files.filterMap fun (p, e) =>
    match e with
    | .file _ =>
      if place.isPrefixOf p && place.length < p.length then some (p.drop place.length) else none
    | .directory => none
  (inside.mergeSort comesBefore).map fun p => FilePath.join dir ("/".intercalate p)

end Files

end WorkflowEngine
