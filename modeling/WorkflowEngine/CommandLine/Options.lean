/-!
# Arguments

What the arguments of a command line ask for. Switches of the program may stand before or behind the
name of a command, those of a command only behind it. Each switch stands once on its side of the
name, and a value does not begin with a dash unless an equals sign joins it to its switch.

## Main definitions

* `Switch`, `Given`: switches, and what was given
* `readArgs`: the arguments of one side of the name
* `Command`, `Options`: commands and the options of all commands
* `Invocation.ofArgs`: what a command line asks for
-/

namespace WorkflowEngine.CommandLine

/-- What a switch is for. -/
inductive SwitchKind where
  | flag
  /-- A flag that may be repeated. -/
  | count
  /-- A switch with a text as its value. -/
  | text
  /-- A switch with a path as its value, which is not empty. -/
  | path
  | help
  | version
deriving DecidableEq

/-- A switch with its name. -/
structure Switch where
  name : String
  letter : Option Char := none
  kind : SwitchKind

/-- The switches of all commands. -/
def commonSwitches : List Switch := [
  ⟨"json", none, .flag⟩, ⟨"quiet", none, .flag⟩, ⟨"verbose", some 'v', .count⟩,
  ⟨"config", none, .path⟩, ⟨"help", some 'h', .help⟩, ⟨"version", some 'V', .version⟩]

/-- What was given on one side of the name of a command. -/
structure Given where
  /-- The switches with their values. -/
  values : List (String × String) := []
  positionals : List String := []

/-- Why the reading of arguments ends early. -/
inductive Stop where
  | misuse
  | help
  | version

/-- The arguments that belong to no switch: how many there may be, and which. -/
structure Slots where
  most : Option Nat
  accepts : String → Bool := fun _ => true

namespace Given

variable (g : Given)

/-- A switch was given. -/
def has (name : String) : Bool := (g.values.lookup name).isSome

/-- The value of a switch. -/
def value? (name : String) : Option String := g.values.lookup name

/-- One more argument that belongs to no switch. -/
def addPositional (slots : Slots) (arg : String) : Except Stop Given :=
  if slots.accepts arg && slots.most.all (g.positionals.length < ·) then
    .ok { g with positionals := g.positionals ++ [arg] }
  else .error .misuse

/-- A switch is given with a value. -/
def set (s : Switch) (value : String) : Except Stop Given :=
  match s.kind with
  | .help => .error .help
  | .version => .error .version
  | .count => .ok { g with values := (s.name, value) :: g.values }
  | .path =>
    if g.has s.name || value.isEmpty then .error .misuse
    else .ok { g with values := (s.name, value) :: g.values }
  | _ =>
    if g.has s.name then .error .misuse
    else .ok { g with values := (s.name, value) :: g.values }

end Given

/-- The switch takes a value. -/
def Switch.takesValue (s : Switch) : Bool := s.kind == .text || s.kind == .path

/-- The letters of an argument with one dash. -/
def readLetters (switches : List Switch) (g : Given) : List Char → Except Stop Given
  | [] => .ok g
  | c :: cs =>
    match switches.find? fun s => s.letter == some c with
    | some s => do readLetters switches (← g.set s "") cs
    | none => .error .misuse

/-- What an argument is. -/
inductive Argument where
  /-- All arguments behind it belong to no switch. -/
  | divider
  /-- A switch by its name, with the value that an equals sign joins to it. -/
  | long (name : String) (value : Option String)
  | letters (cs : List Char)
  | positional (arg : String)

/-- What an argument is. -/
def Argument.ofString (arg : String) : Argument :=
  match arg.toList with
  | ['-', '-'] => .divider
  | '-' :: '-' :: cs =>
    match cs.dropWhile (· != '=') with
    | '=' :: value => .long (String.ofList (cs.takeWhile (· != '='))) (some (String.ofList value))
    | _ => .long (String.ofList cs) none
  | '-' :: c :: cs => .letters (c :: cs)
  | _ => .positional arg

/-- An argument may be the value of the switch before it. -/
def mayBeValue (arg : String) : Bool :=
  match Argument.ofString arg with
  | .positional _ => true
  | _ => false

/-- Reads arguments into the given slots; without slots, up to the first argument that belongs to no
switch, which is left with those behind it. -/
def readArgs (switches : List Switch) (slots : Option Slots) (g : Given) :
    List String → Except Stop (Given × List String)
  | [] => .ok (g, [])
  | arg :: args =>
    match Argument.ofString arg, slots with
    | .divider, none => .error .misuse
    | .divider, some slots => do return (← args.foldlM (fun g a => g.addPositional slots a) g, [])
    | .positional _, none => .ok (g, arg :: args)
    | .positional p, some slots => do
      readArgs switches (some slots) (← g.addPositional slots p) args
    | .letters cs, slots => do readArgs switches slots (← readLetters switches g cs) args
    | .long name value, slots =>
      match switches.find? fun s => s.name == name with
      | none => .error .misuse
      | some s =>
        if s.takesValue then
          match value, args with
          | some v, args => do readArgs switches slots (← g.set s v) args
          | none, v :: args =>
            if mayBeValue v then do readArgs switches slots (← g.set s v) args
            else .error .misuse
          | none, [] => .error .misuse
        else if value.isSome then .error .misuse
        else do readArgs switches slots (← g.set s "") args

/-! ### Commands -/

/-- What is asked for. -/
inductive Command where
  | validate (files : List String) (catalog : Option String)
  | resolve (id : String) (catalog : Option String)
  | list (catalog : Option String)
  | run (id : String) (catalog workItem reject : Option String)
  | schema
  | completions
deriving Repr, DecidableEq

/-- The options of all commands. -/
structure Options where
  json : Bool := false
  quiet : Bool := false
  /-- The directory of the configuration file. -/
  configDir : String := "."
deriving Repr, DecidableEq

/-- The names of commands. -/
inductive CommandName where
  | validate
  | resolve
  | list
  | run
  | schema
  | completions
deriving DecidableEq

namespace CommandName

/-- The command with a name or a short name. -/
def ofString? : String → Option CommandName
  | "validate" => some .validate
  | "check" => some .validate
  | "resolve" => some .resolve
  | "list" => some .list
  | "ls" => some .list
  | "run" => some .run
  | "schema" => some .schema
  | "completions" => some .completions
  | _ => none

/-- The name of a command. -/
def text : CommandName → String
  | .validate => "validate"
  | .resolve => "resolve"
  | .list => "list"
  | .run => "run"
  | .schema => "schema"
  | .completions => "completions"

/-- The switches of a command. -/
def switches : CommandName → List Switch
  | .validate => [⟨"catalog", none, .path⟩]
  | .resolve => [⟨"catalog", none, .path⟩]
  | .list => [⟨"catalog", none, .path⟩]
  | .run => [⟨"catalog", none, .path⟩, ⟨"work-item", none, .path⟩, ⟨"approve", none, .flag⟩,
      ⟨"reject", none, .text⟩]
  | .schema => []
  | .completions => []

/-- The shells that names can be completed in. -/
def shells : List String := ["bash", "elvish", "fish", "powershell", "zsh"]

/-- The arguments of a command that belong to no switch. -/
def slots : CommandName → Slots
  | .validate => { most := none, accepts := fun path => !path.isEmpty }
  | .resolve => { most := some 1 }
  | .list => { most := some 0 }
  | .run => { most := some 1 }
  | .schema => { most := some 0 }
  | .completions => { most := some 1, accepts := shells.contains }

/-- The command with what was given behind its name. -/
def command? (name : CommandName) (g : Given) : Option Command :=
  let catalog := g.value? "catalog"
  match name, g.positionals with
  | .validate, file :: files => some (.validate (file :: files) catalog)
  | .resolve, [id] => some (.resolve id catalog)
  | .list, [] => some (.list catalog)
  | .run, [id] =>
    if g.has "approve" && g.has "reject" then none
    else some (.run id catalog (g.value? "work-item") (g.value? "reject"))
  | .schema, [] => some .schema
  | .completions, [_] => some .completions
  | _, _ => none

end CommandName

/-- What a command line asks for. -/
inductive Invocation where
  | command (options : Options) (command : Command)
  /-- The version of the program, or of one of its commands. -/
  | version (name : Option CommandName)
  | help
  | misuse

namespace Invocation

/-- What is asked for if reading ends early. -/
def ofStop (name : Option CommandName) : Stop → Invocation
  | .misuse => .misuse
  | .help => .help
  | .version => .version name

/-- The options that were given on both sides of the name; those behind it count more. -/
def options (before behind : Given) : Options :=
  { json := before.has "json" || behind.has "json"
    quiet := before.has "quiet" || behind.has "quiet"
    configDir := (behind.value? "config" <|> before.value? "config").getD "." }

/-- What the name of a command and the arguments behind it ask for. -/
def ofCommand (before : Given) (word : String) (args : List String) : Invocation :=
  if word == "help" then
    match args with
    | [] => .help
    | [name] => if (CommandName.ofString? name).isSome || name == "help" then .help else .misuse
    | _ => .misuse
  else
    match CommandName.ofString? word with
    | none => .misuse
    | some name =>
      match readArgs (name.switches ++ commonSwitches) (some name.slots) {} args with
      | .error stop => ofStop (some name) stop
      | .ok (g, _) =>
        match name.command? g with
        | some c => .command (options before g) c
        | none => .misuse

/-- What a command line asks for. -/
def ofArgs (args : List String) : Invocation :=
  match readArgs commonSwitches none {} args with
  | .error stop => ofStop none stop
  | .ok (before, word :: args) => ofCommand before word args
  | .ok (_, []) => .misuse

end Invocation

end WorkflowEngine.CommandLine
