import WorkflowEngine.Data.Datum
import WorkflowEngine.Files
import WorkflowEngine.Json.Reader

/-!
# Files as Json

A tree of files as a record of paths: a text stands for a file, a list of bytes for a file whose
bytes may be no text, and nothing for a directory.

## Main definitions

* `Files.ofJson`: the tree of a value
* `Files.ofText?`: the tree of a text
-/

namespace WorkflowEngine

/-- The byte of a number. -/
def FileEntry.byteOfJson (v : Json) : UInt8 := (((Datum.ofJson v).nat? 256).getD 0).toUInt8

/-- What a value stands for. -/
def FileEntry.ofJson : Json → FileEntry
  | .str s => .file (some s)
  | .arr items => .file (String.fromUTF8? ⟨(items.map byteOfJson).toArray⟩)
  | _ => .directory

namespace Files

/-- The tree of a value. -/
def ofJson : Json → Files
  | .obj fields => ofList (fields.map fun (path, v) => (path, FileEntry.ofJson v))
  | _ => []

/-- The tree of a text; an empty text has no files. -/
def ofText? (s : String) : Option Files :=
  if s.isEmpty then some []
  else
    match Json.read s with
    | some (.obj fields) => some (ofJson (.obj fields))
    | _ => none

end Files

end WorkflowEngine
