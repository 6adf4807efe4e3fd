import WorkflowEngine.Yaml.Token.Lexer

/-!
# Reading Yaml documents

The tokens of a text are read into data. A text holds one document. Anchors name data that aliases
stand for later; within what it names an anchor stands for something unreadable.

## Main definitions

* `Reading`: steps that take tokens and remember anchors
* `node`: one node
* `read`: the data of a text
-/

namespace WorkflowEngine.Yaml

open Data

/-- What is left to read, what the anchors name, and what the handles of tags stand for. -/
structure Reading where
  tokens : List Token
  anchors : List (String × Datum) := []
  handles : List (String × String)

/-- A step of reading. -/
abbrev Step := StateT Reading Option

/-- The next token. -/
def peek : Step (Option Token) := do return (← get).tokens.head?

/-- Over the next token. -/
def advance : Step Unit := modify fun r => { r with tokens := r.tokens.tail }

/-- Nothing: an empty unquoted word. -/
def void : Datum := .scalar ⟨"", .plain, none⟩

/-- What the text of a tag asserts. -/
def tagOfText (s : String) : Tag :=
  match s with
  | "tag:yaml.org,2002:null" => .null
  | "tag:yaml.org,2002:bool" => .bool
  | "tag:yaml.org,2002:int" => .int
  | "tag:yaml.org,2002:float" => .float
  | s => if s.toList.head? == some '!' then .custom else .standard

/-- The text of a tag, if its handle stands for something. -/
def tagText? (handles : List (String × String)) (t : TagName) : Option String :=
  if t.handle.isEmpty then some t.suffix
  else (handles.lookup t.handle).map (· ++ t.suffix)

/-- An anchor and a tag, each at most once. -/
def properties : Step (Option String × Option String) := do
  let anchor : Step (Option String) := do
    match ← peek with
    | some (.anchor name) => advance; return some name
    | _ => return none
  let tag : Step (Option String) := do
    match ← peek with
    | some (.tag name) =>
      advance
      match tagText? (← get).handles name with
      | some s => return some s
      | none => failure
    | _ => return none
  match ← anchor with
  | some a => return (some a, ← tag)
  | none =>
    let t ← tag
    return (← anchor, t)

/-- What an anchor names from here on. -/
def name (anchor : Option String) (d : Datum) : Step Unit :=
  match anchor with
  | some a => modify fun r => { r with anchors := (a, d) :: r.anchors }
  | none => pure ()

/-- A list or record under its tag. -/
def collection (tag : Option String) (d : Datum) : Datum :=
  if tag.map tagOfText == some .custom then .marked d else d

/-- A scalar under its tag. The lone exclamation mark is no tag. -/
def scalar (tag : Option String) (text : String) (style : Style) : Datum :=
  if tag == some "!" then .scalar ⟨text, style, none⟩
  else .scalar ⟨text, style, tag.map tagOfText⟩

mutual
/-- One node. In a block lists and records may be indented; as values of a record lists need not
be. -/
def node (inBlock mayDash : Bool) : Nat → Step Datum
  | 0 => failure
  | fuel + 1 => do
    match ← peek with
    | some (.alias a) =>
      advance
      match (← get).anchors.lookup a with
      | some d => return d
      | none => failure
    | _ =>
      let (anchor, tag) ← properties
      name anchor .unreadable
      let d ← content inBlock mayDash tag (anchor.isSome || tag.isSome) fuel
      name anchor d
      return d

/-- What stands after the properties of a node; nothing may stand there if it has any. -/
def content (inBlock mayDash : Bool) (tag : Option String) (mayBeVoid : Bool) : Nat → Step Datum
  | 0 => failure
  | fuel + 1 => do
    match ← peek with
    | some .blockEntry =>
      if mayDash then return collection tag (.list (← dashes fuel))
      else if mayBeVoid then return .scalar ⟨"", .plain, tag.map tagOfText⟩
      else failure
    | some (.scalar text style) =>
      advance
      return scalar tag text style
    | some .flowSequenceStart =>
      advance
      return collection tag (.list (← flowItems true fuel))
    | some .flowMappingStart =>
      advance
      return collection tag (.record (← flowEntries true fuel))
    | some .blockSequenceStart =>
      if inBlock then
        advance
        return collection tag (.list (← blockItems fuel))
      else if mayBeVoid then return .scalar ⟨"", .plain, tag.map tagOfText⟩
      else failure
    | some .blockMappingStart =>
      if inBlock then
        advance
        return collection tag (.record (← blockEntries fuel))
      else if mayBeVoid then return .scalar ⟨"", .plain, tag.map tagOfText⟩
      else failure
    | _ => if mayBeVoid then return .scalar ⟨"", .plain, tag.map tagOfText⟩ else failure

/-- A node, or nothing before one of the given tokens. -/
def nodeUnless (inBlock mayDash : Bool) (ends : List Token) : Nat → Step Datum
  | 0 => failure
  | fuel + 1 => do
    match ← peek with
    | some t => if ends.contains t then return void else node inBlock mayDash fuel
    | none => return void

/-- The elements of an indented list. -/
def blockItems : Nat → Step (List Datum)
  | 0 => failure
  | fuel + 1 => do
    match ← peek with
    | some .blockEntry =>
      advance
      let d ← nodeUnless true false [.blockEntry, .blockEnd] fuel
      return d :: (← blockItems fuel)
    | some .blockEnd => advance; return []
    | _ => failure

/-- The elements of a list that is indented no more than the record it stands in. -/
def dashes : Nat → Step (List Datum)
  | 0 => failure
  | fuel + 1 => do
    match ← peek with
    | some .blockEntry =>
      advance
      let d ← nodeUnless true false [.blockEntry, .key, .value, .blockEnd] fuel
      return d :: (← dashes fuel)
    | _ => return []

/-- The entries of an indented record. -/
def blockEntries : Nat → Step (List (Datum × Datum))
  | 0 => failure
  | fuel + 1 => do
    match ← peek with
    | some .key =>
      advance
      let k ← nodeUnless true true [.key, .value, .blockEnd] fuel
      let v ← match ← peek with
        | some .value => do
          advance
          nodeUnless true true [.key, .value, .blockEnd] fuel
        | _ => pure void
      return (k, v) :: (← blockEntries fuel)
    | some .blockEnd => advance; return []
    | _ => failure

/-- The elements up to a closing bracket. A key alone is a record with one entry. -/
def flowItems (first : Bool) : Nat → Step (List Datum)
  | 0 => failure
  | fuel + 1 => do
    if (← peek) == some .flowSequenceEnd then
      advance
      return []
    if !first then
      if (← peek) == some .flowEntry then advance else failure
    match ← peek with
    | some .flowSequenceEnd => advance; return []
    | some .key =>
      advance
      let k ← match ← peek with
        -- a missing key takes the mark after it along
        | some .value => do advance; pure void
        | some .flowEntry => do advance; pure void
        | some .flowSequenceEnd => do advance; pure void
        | _ => node false false fuel
      let v ← match ← peek with
        | some .value => do
          advance
          nodeUnless false false [.flowEntry, .flowSequenceEnd] fuel
        | _ => pure void
      return .record [(k, v)] :: (← flowItems false fuel)
    | _ =>
      let d ← node false false fuel
      return d :: (← flowItems false fuel)

/-- The entries up to a closing brace. -/
def flowEntries (first : Bool) : Nat → Step (List (Datum × Datum))
  | 0 => failure
  | fuel + 1 => do
    if (← peek) == some .flowMappingEnd then
      advance
      return []
    if !first then
      if (← peek) == some .flowEntry then advance else failure
    match ← peek with
    | some .flowMappingEnd => advance; return []
    | some .key =>
      advance
      let k ← nodeUnless false false [.value, .flowEntry, .flowMappingEnd] fuel
      let v ← match ← peek with
        | some .value => do
          advance
          nodeUnless false false [.flowEntry, .flowMappingEnd] fuel
        | _ => pure void
      return (k, v) :: (← flowEntries false fuel)
    | _ =>
      let k ← node false false fuel
      return (k, void) :: (← flowEntries false fuel)
end

/-- The directives before a document. The version is given at most once, and is 1.1 or 1.2; every
handle is given at most once. -/
def directives (versionGiven : Bool) (handles : List (String × String)) :
    List Token → Option (List (String × String) × List Token)
  | .version major minor :: ts =>
    if versionGiven || major != 1 || (minor != 1 && minor != 2) then none
    else directives true handles ts
  | .tagDirective handle start :: ts =>
    if (handles.lookup handle).isSome then none
    else directives versionGiven ((handle, start) :: handles) ts
  | ts => some (handles, ts)

/-- The document of a list of tokens. -/
def document (tokens : List Token) : Option Datum := do
  let (handles, rest) ← directives false [] tokens
  let (explicit, rest) ← match rest with
    | .documentStart :: rest => pure (true, rest)
    | _ => if rest.length < tokens.length then none else pure (false, rest)
  let handles := handles ++ [("!", "!"), ("!!", "tag:yaml.org,2002:")]
  let fuel := 4 * rest.length + 4
  let isVoid := match rest with
    | [] => true
    | .version _ _ :: _ => explicit
    | .tagDirective _ _ :: _ => explicit
    | .documentStart :: _ => explicit
    | .documentEnd :: _ => explicit
    | _ => false
  let (d, r) ←
    if isVoid then pure (void, { tokens := rest, handles })
    else (node true false fuel).run { tokens := rest, handles }
  if r.tokens.all (· == .documentEnd) then return d else none

/-- The data of a text. Nothing in more than 128 lists and records is readable. -/
def read (s : String) : Option Datum := do
  return (← document (← Token.ofText? s)).cut 128

end WorkflowEngine.Yaml
