import WorkflowEngine.Data.Word
import WorkflowEngine.Json.Basic

/-!
# Data as read

A document in any of the accepted formats is first read into a tree of data. Some formats fix what
every scalar is; in others an unquoted word is what its reader asks for. Where a part of a document
is only refused if something reads it, that part is `unreadable`.

## Main definitions

* `Datum`: the tree
* `Datum.depth`: how many lists and records lie within each other
* `Datum.cut`: a tree in which nothing below a depth is readable
* `Datum.text?`, `Datum.bool?`, `Datum.nat?`, `Datum.int?`: scalars of a kind that is asked for
* `Datum.json?`: a datum as a value, where anything may stand
* `Datum.ofJson`, `Datum.toJson`: values as data, and what is written as values
-/

namespace WorkflowEngine

namespace Data

/-- How a scalar is written: as an unquoted word, as a block of lines that are kept, or
otherwise. -/
inductive Style where
  | plain
  | literal
  | quoted
deriving Repr, DecidableEq

/-- What an explicit tag asserts about what it stands before. -/
inductive Tag where
  | null
  | bool
  | int
  | float
  /-- Another standard tag; it asserts nothing. -/
  | standard
  /-- A tag of the document's own. -/
  | custom
deriving Repr, DecidableEq

/-- A scalar of a format in which unquoted words are what their readers ask for. -/
structure Scalar where
  text : String
  style : Style
  tag : Option Tag
deriving Repr, DecidableEq

end Data

open Data

/-- Data as read from a document. -/
inductive Datum where
  | null
  | bool (value : Bool)
  | int (value : Int)
  | float (value : Float)
  | text (value : String)
  | scalar (value : Scalar)
  | list (items : List Datum)
  | record (entries : List (Datum × Datum))
  /-- A list or record under a tag of the document's own. -/
  | marked (value : Datum)
  /-- Something that no reader accepts. -/
  | unreadable
deriving Repr, Inhabited

namespace Datum

mutual
/-- How many lists and records lie within each other. -/
def depth : Datum → Nat
  | .list items => depthOfItems items + 1
  | .record entries => depthOfEntries entries + 1
  | .marked d => depth d
  | _ => 0

/-- The greatest depth of an element. -/
def depthOfItems : List Datum → Nat
  | [] => 0
  | d :: ds => max (depth d) (depthOfItems ds)

/-- The greatest depth of a value of an entry. -/
def depthOfEntries : List (Datum × Datum) → Nat
  | [] => 0
  | (_, d) :: ds => max (depth d) (depthOfEntries ds)
end

mutual
/-- The datum with everything unreadable that lies in more than `depth` lists and records. -/
def cut (depth : Nat) : Datum → Datum
  | .list items => if depth = 0 then .unreadable else .list (cutItems (depth - 1) items)
  | .record entries => if depth = 0 then .unreadable else .record (cutEntries (depth - 1) entries)
  | .marked d => .marked (cut depth d)
  | d => d

/-- The elements cut. -/
def cutItems (depth : Nat) : List Datum → List Datum
  | [] => []
  | d :: ds => cut depth d :: cutItems depth ds

/-- The entries cut. -/
def cutEntries (depth : Nat) : List (Datum × Datum) → List (Datum × Datum)
  | [] => []
  | (k, d) :: ds => (cut depth k, cut depth d) :: cutEntries depth ds
end

/-- A scalar that is an empty unquoted word. -/
def isVoid : Datum → Bool
  | .scalar s => s.style == .plain && s.text.isEmpty
  | _ => false

/-- A text. An unquoted word is a text where one is asked for. -/
def text? : Datum → Option String
  | .text s => some s
  | .scalar s => some s.text
  | _ => none

/-- The word that may be read as a scalar of a kind with the given tag. -/
def word? (tag : Tag) : Datum → Option String
  | .scalar s =>
    if s.style == .plain || (s.style == .literal && s.tag == some tag) then some s.text else none
  | _ => none

/-- A truth value. -/
def bool? : Datum → Option Bool
  | .bool b => some b
  | d => (d.word? .bool).bind Word.bool?

/-- A whole number below `limit`. -/
def nat? (limit : Nat) : Datum → Option Nat
  | .int n => if 0 ≤ n && n < limit then some n.toNat else none
  | d => (d.word? .int).bind (Word.unsigned? limit)

/-- A whole number between `-2 ^ 63` and `2 ^ 63 - 1`. -/
def int? : Datum → Option Int
  | .int n => if Bits.isSigned 64 n then some n else none
  | d => (d.word? .int).bind Word.signed?

/-- Whether anything is there, where nothing may stand too; none if that is unreadable. -/
def isPresent? : Datum → Option Bool
  | .null => some false
  | .scalar s =>
    if s.style == .plain then
      match s.tag with
      | none => some !(s.text.isEmpty || Word.isNull s.text)
      | some .null => if Word.isNull s.text then some false else none
      | some _ => some true
    else some true
  | _ => some true

/-- Reads what is there, if anything is. -/
def optional {α : Type} (read : Datum → Option α) (d : Datum) : Option (Option α) := do
  if ← d.isPresent? then return some (← read d) else return none

/-- The elements of a list. An empty word is the empty list. -/
def items? : Datum → Option (List Datum)
  | .list items => some items
  | .marked (.list items) => some items
  | d => if d.isVoid then some [] else none

/-- The entries of a record with texts as keys. An empty word is the empty record. -/
def entries? : Datum → Option (List (String × Datum))
  | .record entries => entries.mapM fun (k, d) => k.text?.map (·, d)
  | .marked (.record entries) => entries.mapM fun (k, d) => k.text?.map (·, d)
  | d => if d.isVoid then some [] else none

/-- A whole number as a value, if values hold it. -/
def jsonOfInt? (n : Int) : Option Json :=
  if Json.Number.inRange n then some (.num (.int n)) else none

/-- A word as a value. -/
def jsonOfWord? (s : String) : Option Json :=
  match Word.kind s with
  | .null => some .null
  | .bool b => some (.bool b)
  | .int n => jsonOfInt? n
  | .float x => some (Json.ofFloat x)
  | .text => some (.str s)

/-- A scalar as a value: what its tag asserts, else what its word says. -/
def jsonOfScalar? (s : Scalar) : Option Json :=
  match s.tag with
  | none => if s.style == .plain then jsonOfWord? s.text else some (.str s.text)
  | some .null => if Word.isNull s.text then some .null else none
  | some .bool => (Word.bool? s.text).map .bool
  | some .int => (Word.integer? s.text).bind jsonOfInt?
  | some .float => (Word.float? s.text).map Json.ofFloat
  | some .standard => some (.str s.text)
  | some .custom => none

mutual
/-- The datum as a value, where anything may stand. -/
def json? : Datum → Option Json
  | .null => some .null
  | .bool b => some (.bool b)
  | .int n => some (.num (.ofInt n))
  | .float x => some (Json.ofFloat x)
  | .text s => some (.str s)
  | .scalar s => jsonOfScalar? s
  | .list items => (jsonItems? items).map .arr
  | .record entries => (jsonEntries? entries).map fun fields => .obj (Dict.ofList fields)
  | .marked _ => none
  | .unreadable => none

/-- The elements as values. -/
def jsonItems? : List Datum → Option (List Json)
  | [] => some []
  | d :: ds => do return (← json? d) :: (← jsonItems? ds)

/-- The entries as fields. -/
def jsonEntries? : List (Datum × Datum) → Option (List (String × Json))
  | [] => some []
  | (k, d) :: ds => do return (← k.text?, ← json? d) :: (← jsonEntries? ds)
end

mutual
/-- A value as data. -/
def ofJson : Json → Datum
  | .null => .null
  | .bool b => .bool b
  | .num (.int n) => .int n
  | .num (.float x) => .float x
  | .str s => .text s
  | .arr items => .list (ofJsonItems items)
  | .obj fields => .record (ofJsonFields fields)

/-- The elements as data. -/
def ofJsonItems : List Json → List Datum
  | [] => []
  | v :: vs => ofJson v :: ofJsonItems vs

/-- The fields as data. -/
def ofJsonFields : List (String × Json) → List (Datum × Datum)
  | [] => []
  | (k, v) :: fs => (.text k, ofJson v) :: ofJsonFields fs
end

mutual
/-- What is written as a value. -/
def toJson : Datum → Json
  | .null => .null
  | .bool b => .bool b
  | .int n => .num (.ofInt n)
  | .float x => Json.ofFloat x
  | .text s => .str s
  | .scalar s => .str s.text
  | .list items => .arr (toJsonItems items)
  | .record entries => .obj (Dict.ofList (toJsonFields entries))
  | .marked d => toJson d
  | .unreadable => .null

/-- The elements as values. -/
def toJsonItems : List Datum → List Json
  | [] => []
  | d :: ds => toJson d :: toJsonItems ds

/-- The entries as fields. -/
def toJsonFields : List (Datum × Datum) → List (String × Json)
  | [] => []
  | (k, d) :: ds => ((k.text?).getD "", toJson d) :: toJsonFields ds
end

end Datum

end WorkflowEngine
