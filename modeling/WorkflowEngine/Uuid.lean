import WorkflowEngine.Data.Datum

/-!
# Unique ids

## Main definitions

* `Uuid`: a number of 128 bits
* `Uuid.ofText?`, `Uuid.text`: its text of hexadecimal digits in five groups
* `Uuid.ofTime`: new ids
-/

namespace WorkflowEngine

/-- A number of 128 bits that names something. -/
structure Uuid where
  value : Nat
deriving Repr, DecidableEq, Inhabited

namespace Uuid

/-- The id that names nothing. -/
def nil : Uuid := ⟨0⟩

/-- The id of 32 hexadecimal digits. -/
def ofDigits? (cs : List Char) : Option Uuid :=
  if cs.length = 32 then (Data.Word.natInBase? 16 cs).map Uuid.mk else none

/-- The id of five groups of hexadecimal digits. -/
def ofGroups? (cs : List Char) : Option Uuid :=
  if cs.length = 36 && [8, 13, 18, 23].all (fun i => cs[i]? == some '-') then
    ofDigits? (cs.filter (· != '-'))
  else none

/-- The id of a text: digits alone, or groups, which may stand in braces or after `urn:uuid:`. -/
def ofText? (s : String) : Option Uuid :=
  let cs := s.toList
  if s.utf8ByteSize = 32 then ofDigits? cs
  else if s.utf8ByteSize = 36 then ofGroups? cs
  else if s.utf8ByteSize = 38 && cs.head? == some '{' && cs.getLast? == some '}' then
    ofGroups? cs.tail.dropLast
  else if s.utf8ByteSize = 45 && cs.take 9 == "urn:uuid:".toList then ofGroups? (cs.drop 9)
  else none

/-- The text of an id. -/
def text (u : Uuid) : String :=
  let ds := Nat.toDigits 16 u.value
  let ds := List.replicate (32 - ds.length) '0' ++ ds
  let group := fun (start length : Nat) => String.ofList ((ds.drop start).take length)
  "-".intercalate [group 0 8, group 8 4, group 12 4, group 16 4, group 20 12]

/-- The id with a number among those of a time in milliseconds, in the form of time-ordered ids:
later ids are greater. -/
def ofTime (ms n : Nat) : Uuid := 
  ⟨(ms % Bits.words 48) * Bits.words 80 + 7 * Bits.words 76 + Bits.words 63 + n % Bits.words 62⟩

/-- An id from data. -/
def ofDatum? (d : Datum) : Option Uuid := d.text?.bind ofText?

end Uuid

end WorkflowEngine
