import WorkflowEngine.Bits
import WorkflowEngine.Decimal.Reading

/-!
# Words

What an unquoted word stands for: nothing, a truth value, a whole number, a float, or itself. Whole
numbers may be written in base sixteen, eight or two. Digits after a leading zero are no number.

## Main definitions

* `Word.isNull`, `Word.bool?`: the words for nothing and for truth values
* `Word.unsigned?`, `Word.signed?`: whole numbers where one is asked for
* `Word.kind`: what a word is where anything may stand
-/

namespace WorkflowEngine.Data.Word

open Decimal

/-- The words for nothing. -/
def isNull (s : String) : Bool := s == "~" || s == "null" || s == "Null" || s == "NULL"

/-- The words for truth values. -/
def bool? (s : String) : Option Bool :=
  if s == "true" || s == "True" || s == "TRUE" then some true
  else if s == "false" || s == "False" || s == "FALSE" then some false
  else none

/-- Two or more digits of which the first is zero, with an optional sign. -/
def isPadded (cs : List Char) : Bool :=
  let digits := match cs with
    | '-' :: ds => ds
    | '+' :: ds => ds
    | ds => ds
  match digits with
  | '0' :: d :: ds => (d :: ds).all Char.isDigit
  | _ => false

/-- The value of a digit in bases up to sixteen. -/
def hexValue? (c : Char) : Option Nat :=
  if c.isDigit then some (c.toNat - '0'.toNat)
  else if 'a' ≤ c ∧ c ≤ 'f' then some (c.toNat - 'a'.toNat + 10)
  else if 'A' ≤ c ∧ c ≤ 'F' then some (c.toNat - 'A'.toNat + 10)
  else none

/-- The number that digits spell in a base; there must be at least one digit. -/
def natInBase? (base : Nat) (cs : List Char) : Option Nat :=
  if cs.isEmpty then none
  else cs.foldl (fun n c => do
    let v ← n
    let d ← hexValue? c
    if d < base then some (v * base + d) else none) (some 0)

/-- The number after a base mark, if the text starts with one; texts without a mark are decimal. -/
def magnitude? (cs : List Char) : Option Nat :=
  match cs with
  | '0' :: 'x' :: ds => natInBase? 16 ds
  | '0' :: 'o' :: ds => natInBase? 8 ds
  | '0' :: 'b' :: ds => natInBase? 2 ds
  | ds => if isPadded ds then none else natInBase? 10 ds

/-- The number of a word without a minus sign. -/
def natural? (s : String) : Option Nat :=
  match s.toList with
  | '+' :: cs => magnitude? cs
  | cs => magnitude? cs

/-- The number of a word, with an optional sign. -/
def integer? (s : String) : Option Int :=
  match s.toList with
  | '-' :: cs => (magnitude? cs).map fun n => -(n : Int)
  | _ => (natural? s).map Int.ofNat

/-- The word as a whole number below `limit`. -/
def unsigned? (limit : Nat) (s : String) : Option Nat :=
  (natural? s).filter (· < limit)

/-- The word as a whole number between `-2 ^ 63` and `2 ^ 63 - 1`. -/
def signed? (s : String) : Option Int :=
  (integer? s).filter (Bits.isSigned 64)

/-- The word as a float. The words for infinities and for no number begin with a point; other
values are finite. -/
def float? (s : String) : Option Float :=
  let unsigned := match s.toList with
    | '+' :: cs => cs
    | cs => cs
  let signedTwice := match s.toList with
    | '+' :: '+' :: _ => true
    | '+' :: '-' :: _ => true
    | _ => false
  if signedTwice then none
  else
    match String.ofList unsigned with
    | ".inf" | ".Inf" | ".INF" => some (1.0 / 0.0)
    | _ =>
      match s with
      | "-.inf" | "-.Inf" | "-.INF" => some (-1.0 / 0.0)
      | ".nan" | ".NaN" | ".NAN" => some (0.0 / 0.0)
      | _ => (ofText unsigned).filter Float.isFinite

/-- What a word is where anything may stand. -/
inductive Kind where
  | null
  | bool (value : Bool)
  | int (value : Int)
  | float (value : Float)
  | text

/-- What a word is where anything may stand. Numbers of more than 128 bits are floats. -/
def kind (s : String) : Kind :=
  if s.isEmpty || isNull s then .null
  else
    match bool? s with
    | some b => .bool b
    | none =>
      match (integer? s).filter (Bits.isWord 128) with
      | some n => .int n
      | none =>
        if isPadded s.toList then .text
        else
          match float? s with
          | some x => .float x
          | none => .text

end WorkflowEngine.Data.Word
