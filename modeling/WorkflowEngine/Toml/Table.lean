import WorkflowEngine.Data.Datum

/-!
# Tables of Toml

A document is a tree of tables, which entries and headers fill bit by bit. What has been defined is
not defined again: a table may be implied by a header below it and defined later, one of dotted keys
grows only by more of them, and a value is final.

## Main definitions

* `Node`, `Entries`: the tree
* `Entries.put`: an entry with its keys
* `Entries.define`: a table under a header, or one more of an array
* `Entries.toDatum`: the tree as data
-/

namespace WorkflowEngine.Toml

/-- How a table came to be. -/
inductive Origin where
  /-- By a header of its own, or as a value. -/
  | explicit
  /-- By a header of a table within it. -/
  | implied
  /-- By a key with points. -/
  | dotted
deriving DecidableEq

/-- What stands under a key. -/
inductive Node where
  | value (d : Datum)
  | table (origin : Origin) (entries : List (String × Node))
  | tables (items : List (List (String × Node)))

/-- The entries of a table. -/
abbrev Entries := List (String × Node)

namespace Entries

/-- Puts a node under a key, in place of the one that stands there. -/
def set (es : Entries) (key : String) (n : Node) : Entries :=
  if es.any fun e => e.1 == key then es.map fun e => if e.1 == key then (key, n) else e
  else es ++ [(key, n)]

/-- Changes the last of several tables. -/
def changeLast (change : Entries → Option Entries) (items : List Entries) :
    Option (List Entries) := do
  let last ← items.getLast?
  return items.dropLast ++ [← change last]

/-- Puts a value under keys. The tables on the way may be implied, but the last one is one of dotted
keys. -/
def put (key : String) (d : Datum) : List String → Entries → Option Entries
  | [], es => if (es.lookup key).isSome then none else some (es.set key (.value d))
  | k :: ks, es =>
    match es.lookup k with
    | none => (put key d ks []).map fun t => es.set k (.table .dotted t)
    | some (.table .dotted t) => (put key d ks t).map fun t => es.set k (.table .dotted t)
    | some (.table .implied t) =>
      if ks.isEmpty then none else (put key d ks t).map fun t => es.set k (.table .implied t)
    | some (.tables items) =>
      if ks.isEmpty then none
      else (changeLast (put key d ks) items).map fun items => es.set k (.tables items)
    | some _ => none

/-- The table under a header, filled. -/
def defineTable (fill : Entries → Option Entries) (key : String) (es : Entries) :
    Option Entries :=
  match es.lookup key with
  | none => (fill []).map fun t => es.set key (.table .explicit t)
  | some (.table .implied t) => (fill t).map fun t => es.set key (.table .explicit t)
  | some _ => none

/-- One more table of an array, filled. -/
def defineItem (fill : Entries → Option Entries) (key : String) (es : Entries) : Option Entries :=
  match es.lookup key with
  | none => (fill []).map fun t => es.set key (.tables [t])
  | some (.tables items) => (fill []).map fun t => es.set key (.tables (items ++ [t]))
  | some _ => none

/-- Defines what the last of several keys names by `last`; the tables on the way are implied. -/
def define (last : String → Entries → Option Entries) : List String → Entries → Option Entries
  | [], _ => none
  | [k], es => last k es
  | k :: ks, es =>
    match es.lookup k with
    | none => (define last ks []).map fun t => es.set k (.table .implied t)
    | some (.table origin t) => (define last ks t).map fun t => es.set k (.table origin t)
    | some (.tables items) =>
      (changeLast (define last ks) items).map fun items => es.set k (.tables items)
    | some (.value _) => none

mutual
/-- A node as data. -/
def nodeDatum : Node → Datum
  | .value d => d
  | .table _ es => .record (fieldData es)
  | .tables items => .list (itemData items)

/-- Entries as data. -/
def fieldData : List (String × Node) → List (Datum × Datum)
  | [] => []
  | (k, n) :: es => (.text k, nodeDatum n) :: fieldData es

/-- Tables of an array as data. -/
def itemData : List (List (String × Node)) → List Datum
  | [] => []
  | es :: items => .record (fieldData es) :: itemData items
end

/-- The tree as data. -/
def toDatum (es : Entries) : Datum := .record (fieldData es)

end Entries

end WorkflowEngine.Toml
