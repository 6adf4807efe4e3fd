import WorkflowEngine.CommandLine.Check
import WorkflowEngine.CommandLine.DryRun
import WorkflowEngine.CommandLine.Listing
import WorkflowEngine.CommandLine.Options
import WorkflowEngine.Config.File
import WorkflowEngine.Document.Schema

/-!
# Commands

## Main definitions

* `Command.output`: what a command leaves
* `output`: what a command line leaves
-/

namespace WorkflowEngine.CommandLine

/-- The directory of workflows if none is given. -/
def defaultCatalogDir : String := "workflows"

/-- The directory of workflows: the one that is given counts more than that of the configuration. -/
def catalogDir (given : Option String) (config : Config) : String :=
  (given <|> config.catalogDir).getD defaultCatalogDir

/-- What a command leaves. -/
def Command.output (files : Files) (options : Options) (command : Command) : Output :=
  let config := Config.load files options.configDir
  match command with
  | .validate paths catalog => checkFiles files options.json paths catalog
  | .resolve id catalog => resolveWorkflow files options.json (catalogDir catalog config) id
  | .list catalog => listWorkflows files options.json (catalogDir catalog config)
  | .run id catalog workItem reject =>
    dryRun files config options.json options.quiet (catalogDir catalog config) id workItem reject
  | .schema => .success (jsonText Document.schema)
  | .completions => .success ""

/-- The name of the program. -/
def programName : String := "fsmith"

/-- The version of the program. -/
def programVersion : String := "0.1.0"

/-- What is said of the version of the program, or of one of its commands. -/
def versionText (name : Option CommandName) : String :=
  let suffix := match name with
    | some name => "-" ++ name.text
    | none => ""
  programName ++ suffix ++ " " ++ programVersion ++ "\n"

/-- How the program is used. -/
def usage : String :=
  unlines [
    "Validate, resolve and dry-run workflow definitions.",
    "",
    "Usage: " ++ programName ++ " [OPTIONS] COMMAND",
    "",
    "  validate FILES [--catalog DIR]",
    "  resolve ID [--catalog DIR]",
    "  list [--catalog DIR]",
    "  run ID [--catalog DIR] [--work-item FILE] [--approve | --reject REASON]",
    "  schema",
    "  completions SHELL",
    "",
    "Options: --json, --quiet, -v, --config DIR, --help, --version"]

/-- What a command line leaves. -/
def output (files : Files) (args : List String) : Output :=
  match Invocation.ofArgs args with
  | .command options command => command.output files options
  | .version name => .success (versionText name)
  | .help => .success usage
  | .misuse => { ending := .misuse usage }

end WorkflowEngine.CommandLine
