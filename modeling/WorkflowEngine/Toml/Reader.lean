import WorkflowEngine.Toml.Number
import WorkflowEngine.Toml.Table

/-!
# Reading Toml

A document is a list of entries and headers, one to a line.

## Main definitions

* `value`: a value
* `Toml.read`: the data of a document
-/

namespace WorkflowEngine.Toml

/-- The text from the next character that is no blank, line break or part of a comment. -/
def skipGaps : Nat → List Char → List Char
  | 0, cs => cs
  | fuel + 1, cs =>
    let rest := skipComment (skipBlanks cs)
    match newline? rest with
    | some rest => skipGaps fuel rest
    | none => rest

/-- A literal name. -/
def name (word : String) (d : Datum) : Step Datum := fun cs =>
  let pat := word.toList
  if cs.take pat.length = pat then some (d, cs.drop pat.length) else none

mutual
/-- A value with at most `depth` lists and tables within each other. -/
def value : Nat → Nat → Step Datum
  | 0, _, _ => none
  | fuel + 1, depth, cs =>
    match cs with
    | '"' :: _ => (text cs).map fun (s, rest) => (.text s, rest)
    | '\'' :: _ => (text cs).map fun (s, rest) => (.text s, rest)
    | 't' :: _ => name "true" (.bool true) cs
    | 'f' :: _ => name "false" (.bool false) cs
    | '[' :: rest =>
      if depth = 0 then none
      else (elements fuel (depth - 1) rest).map fun (ds, rest) => (.list ds, rest)
    | '{' :: rest =>
      if depth = 0 then none
      else
        match skipBlanks rest with
        | '}' :: rest => some (.record [], rest)
        | rest => (pairs fuel (depth - 1) [] rest).map fun (es, rest) => (Entries.toDatum es, rest)
    | cs => number cs

/-- The elements of a list up to its closing bracket. -/
def elements : Nat → Nat → Step (List Datum)
  | 0, _, _ => none
  | fuel + 1, depth, cs =>
    match skipGaps cs.length cs with
    | ']' :: rest => some ([], rest)
    | rest => do
      let (d, rest) ← value fuel depth rest
      match skipGaps rest.length rest with
      | ']' :: rest => return ([d], rest)
      | ',' :: rest =>
        let (ds, rest) ← elements fuel depth rest
        return (d :: ds, rest)
      | _ => none

/-- The entries of a table within a line up to its closing brace; there is at least one. -/
def pairs : Nat → Nat → Entries → Step Entries
  | 0, _, _, _ => none
  | fuel + 1, depth, es, cs => do
    let (keys, rest) ← keyPath cs
    let ((), rest) ← mark '=' rest
    let (d, rest) ← value fuel depth (skipBlanks rest)
    let es ← Entries.put (keys.getLastD "") d keys.dropLast es
    match skipBlanks rest with
    | '}' :: rest => return (es, rest)
    | ',' :: rest => pairs fuel depth es rest
    | _ => none
end

/-- An entry in a line of its own: its keys and value. -/
def entry : Step (List String × Datum) := fun cs => do
  let (keys, rest) ← keyPath cs
  let ((), rest) ← mark '=' rest
  let rest := skipBlanks rest
  let (d, rest) ← value (2 * rest.length + 2) maxDepth rest
  return ((keys, d), ← lineEnd rest)

/-- The entries up to the next header or the end. -/
def section? : Nat → Step (List (List String × Datum))
  | 0, _ => none
  | fuel + 1, cs =>
    match skipGaps cs.length cs with
    | [] => some ([], [])
    | '[' :: rest => some ([], '[' :: rest)
    | rest => do
      let (e, rest) ← entry rest
      let (es, rest) ← section? fuel rest
      return (e :: es, rest)

/-- A table with the entries of a section added. -/
def fill (lines : List (List String × Datum)) (es : Entries) : Option Entries :=
  lines.foldlM (fun es (keys, d) => Entries.put (keys.getLastD "") d keys.dropLast es) es

/-- A header: its keys, and whether it is that of one of several tables. -/
def header : Step (List String × Bool)
  | '[' :: '[' :: cs => do
    let (keys, rest) ← keyPath cs
    let ((), rest) ← mark ']' rest
    let ((), rest) ← mark ']' rest
    return ((keys, true), ← lineEnd rest)
  | '[' :: cs => do
    let (keys, rest) ← keyPath cs
    let ((), rest) ← mark ']' rest
    return ((keys, false), ← lineEnd rest)
  | _ => none

/-- A document with the tables under headers added. -/
def tables : Nat → Entries → List Char → Option Entries
  | 0, _, _ => none
  | fuel + 1, es, cs =>
    if cs.isEmpty then some es
    else do
      let ((keys, isItem), rest) ← header cs
      let (lines, rest) ← section? (rest.length + 1) rest
      let last := if isItem then Entries.defineItem (fill lines)
        else Entries.defineTable (fill lines)
      tables fuel (← Entries.define last keys es) rest

/-- The data of a document. A mark of the byte order may stand before it. -/
def read (s : String) : Option Datum := do
  let cs := match s.toList with
    | '\ufeff' :: cs => cs
    | cs => cs
  let (lines, rest) ← section? (cs.length + 1) cs
  return (← tables (rest.length + 1) (← fill lines []) rest).toDatum

end WorkflowEngine.Toml
