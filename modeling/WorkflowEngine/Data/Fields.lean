import WorkflowEngine.Data.Datum

/-!
# Records with named fields

A record type is read from a record, whose unknown entries are ignored and whose known ones stand at
most once, or from a list that gives the fields in their order and may leave out the last ones.

## Main definitions

* `Fields`: the data given for the fields of a record type
* `Datum.fields?`: the data given for fields with the given names
* `Fields.required`, `Fields.optional`, `Fields.withDefault`: one field
-/

namespace WorkflowEngine

open Data

/-- The data given for the fields of a record type. -/
abbrev Data.Fields := List (String × Datum)

/-- No name stands twice in a list of entries. -/
def Data.distinctNames : List (String × Datum) → Bool
  | [] => true
  | (name, _) :: rest => !(rest.any fun (n, _) => n == name) && Data.distinctNames rest

/-- The data given for the fields with the given names. -/
def Datum.fields? (names : List String) (d : Datum) : Option Fields :=
  match d with
  | .list items => if items.length ≤ names.length then some (names.zip items) else none
  | .marked (.list items) => if items.length ≤ names.length then some (names.zip items) else none
  | d => do
    let known := (← d.entries?).filter fun (name, _) => names.contains name
    if distinctNames known then some known else none

namespace Data.Fields

variable {α : Type}

/-- A field that has to be given. -/
def required (f : Fields) (name : String) (read : Datum → Option α) : Option α :=
  (f.lookup name).bind read

/-- A field that may be absent or nothing. -/
def optional (f : Fields) (name : String) (read : Datum → Option α) : Option (Option α) :=
  match f.lookup name with
  | none => some none
  | some d => d.optional read

/-- A field that takes a default when it is absent. -/
def withDefault (f : Fields) (name : String) (default : α) (read : Datum → Option α) : Option α :=
  match f.lookup name with
  | none => some default
  | some d => read d

end Data.Fields

namespace Data

/-- Reads every element of a list. -/
def readList {α : Type} (read : Datum → Option α) (d : Datum) : Option (List α) := do
  (← d.items?).mapM read

/-- Reads every entry of a record; a later entry takes the place of an earlier one with its key. -/
def readDict {α : Type} (read : Datum → Option α) (d : Datum) : Option (Dict α) := do
  return Dict.ofList (← (← d.entries?).mapM fun (k, v) => (read v).map (k, ·))

/-- Reads one of the words of an enumeration: the word itself, or a record whose only entry has the
word as key and nothing as value. -/
def readWord {α : Type} (words : List (String × α)) (d : Datum) : Option α :=
  match d with
  | .record [(k, .null)] => k.text?.bind (List.lookup · words)
  | d => d.text?.bind (List.lookup · words)

end Data

end WorkflowEngine
