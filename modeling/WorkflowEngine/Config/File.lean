import WorkflowEngine.Config.Basic
import WorkflowEngine.Files
import WorkflowEngine.Toml.Reader

/-!
# The configuration file

## Main definitions

* `Config.ofToml?`: the configuration of a text
* `Config.load`: the configuration of a directory
-/

namespace WorkflowEngine

/-- A choice may be written as a table with an empty table under its word. -/
def Config.choice : Datum → Datum
  | .record [(k, .record [])] => .record [(k, .null)]
  | d => d

/-- The configuration of a text. -/
def Config.ofToml? (s : String) : Option Config := do
  match ← Toml.read s with
  | .record entries => ofDatum? (.record (entries.map fun (k, d) => (k, choice d)))
  | d => ofDatum? d

/-- The name of the configuration file of a directory. -/
def Config.fileName : String := "flowsmith.toml"

/-- The configuration of a directory: that of its file, or the default one if there is no file that
can be read. -/
def Config.load (files : Files) (dir : String) : Config :=
  match files.read (FilePath.join dir fileName) with
  | .ok s => (ofToml? s).getD {}
  | .error _ => {}

end WorkflowEngine
