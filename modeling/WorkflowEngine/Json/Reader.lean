import WorkflowEngine.Data.Fields

/-!
# Reading Json text

A text is read into data. The grammar is strict: no comments, no trailing commas, no leading zeros,
no control characters in texts. Numbers and texts that have the right form but no value, such as a
number beyond all floats or half of a surrogate pair, make a datum that is unreadable, so that they
count only where something reads them.

## Main definitions

* `Json.readDatum s`: the data of a text
* `Json.read s`: the value of a text
* `Json.readAll s`: the values of a text that holds any number of them
-/

namespace WorkflowEngine.Json

open Decimal

/-- What a reading step takes from the front of a text, and the rest. -/
abbrev Step (α : Type) := List Char → Option (α × List Char)

/-- The blanks that may stand between parts of a text. -/
def isSpace (c : Char) : Bool := c == ' ' || c == '\n' || c == '\t' || c == '\r'

/-- The text from the first character that is no blank. -/
def skipSpace (cs : List Char) : List Char := cs.dropWhile isSpace

/-- The number of four hexadecimal digits. -/
def hexQuad : Step Nat
  | a :: b :: c :: d :: rest => (Data.Word.natInBase? 16 [a, b, c, d]).map (·, rest)
  | _ => none

/-- The character that an escape after a backslash stands for, or none if it stands for half of a
surrogate pair. -/
def escaped : Step (Option Char)
  | '"' :: cs => some (some '"', cs)
  | '\\' :: cs => some (some '\\', cs)
  | '/' :: cs => some (some '/', cs)
  | 'b' :: cs => some (some '\x08', cs)
  | 'f' :: cs => some (some '\x0c', cs)
  | 'n' :: cs => some (some '\n', cs)
  | 'r' :: cs => some (some '\r', cs)
  | 't' :: cs => some (some '\t', cs)
  | 'u' :: cs => do
    let (high, rest) ← hexQuad cs
    if 0xd800 ≤ high && high < 0xdc00 then
      match rest with
      | '\\' :: 'u' :: more =>
        match hexQuad more with
        | some (low, rest') =>
          if 0xdc00 ≤ low && low < 0xe000 then
            some (some (Char.ofNat (0x10000 + (high - 0xd800) * 0x400 + (low - 0xdc00))), rest')
          else some (none, rest)
        | none => some (none, rest)
      | _ => some (none, rest)
    else if 0xdc00 ≤ high && high < 0xe000 then some (none, rest)
    else some (some (Char.ofNat high), rest)
  | _ => none

/-- The characters up to the closing quote, in reverse; none inside if one of them is unreadable. -/
def quotedRest : Nat → Option (List Char) → Step (Option (List Char))
  | 0, _, _ => none
  | fuel + 1, seen, cs =>
    match cs with
    | [] => none
    | '"' :: rest => some (seen, rest)
    | '\\' :: rest => do
      let (c, rest) ← escaped rest
      quotedRest fuel (do return (← c) :: (← seen)) rest
    | c :: rest => if c < ' ' then none else quotedRest fuel (seen.map (c :: ·)) rest

/-- A text after its opening quote. -/
def quoted (cs : List Char) : Option (Datum × List Char) := do
  let (seen, rest) ← quotedRest (cs.length + 1) (some []) cs
  match seen with
  | some chars => return (.text (String.ofList chars.reverse), rest)
  | none => return (.unreadable, rest)

/-- The exponent mark and digits, if there are any: the exponent as a number. -/
def exponent : Step Int
  | c :: cs =>
    if c == 'e' || c == 'E' then
      let (negative, ds) := spanSign cs
      let (digits, rest) := spanDigits ds
      if digits.isEmpty then none
      else
        let n : Int := ofDigits 0 digits
        some (if negative then -n else n, rest)
    else some (0, c :: cs)
  | [] => some (0, [])

/-- Adds digits to a significand as long as it stays below `2 ^ 64`: the significand and how many
digits were added. -/
def takeWord : Nat → Nat → List Char → Nat × Nat
  | m, taken, [] => (m, taken)
  | m, taken, d :: ds =>
    let m' := ofDigits m [d]
    if m' < Bits.words 64 then takeWord m' (taken + 1) ds else (m, taken)

/-- The float of a decimal: of its digits those that fit into 64 bits count, and the significand is
rounded before it is scaled. -/
def floatOfParts (whole fraction : List Char) (exponent : Int) : Option Float :=
  let (m, taken) := takeWord 0 0 whole
  if taken < whole.length then
    -- the digits of the fraction fill up what the whole part left
    let (m', taken') := takeWord m 0 fraction
    scaled m' ((whole.length - taken : Nat) - (taken' : Int) + exponent)
  else
    let (m', taken') := takeWord m 0 fraction
    scaled m' (exponent - taken')

/-- The digits of a number before the point: one zero, or digits that begin with another. -/
def wholeDigits (cs : List Char) : Option (List Char × List Char) :=
  let (digits, rest) := spanDigits cs
  match digits with
  | [] => none
  | ['0'] => some (digits, rest)
  | '0' :: _ => none
  | _ => some (digits, rest)

/-- The point and the digits after it, if there is a point. -/
def fractionDigits : Step (Option (List Char))
  | '.' :: cs =>
    let (digits, rest) := spanDigits cs
    if digits.isEmpty then none else some (some digits, rest)
  | cs => some (none, cs)

/-- The start of an exponent. -/
def startsExponent : List Char → Bool
  | 'e' :: _ => true
  | 'E' :: _ => true
  | _ => false

/-- A number after its sign. Whole numbers of up to 64 bits stay whole; the negative zero does
not. -/
def numberAfterSign (negative : Bool) : Step Datum := fun cs => do
  let (whole, rest) ← wholeDigits cs
  let (fraction, rest) ← fractionDigits rest
  let isFloat := fraction.isSome || startsExponent rest
  let (e, rest) ← exponent rest
  let n := ofDigits 0 whole
  let float := match floatOfParts whole (fraction.getD []) e with
    | some x => Datum.float (if negative then -x else x)
    | none => .unreadable
  if isFloat then return (float, rest)
  else if negative then
    if n = 0 then return (.float (-0.0), rest)
    else if n ≤ Bits.words 63 then return (.int (-n), rest)
    else return (float, rest)
  else if n < Bits.words 64 then return (.int n, rest)
  else return (float, rest)

/-- A literal name. -/
def name (word : String) (d : Datum) : Step Datum := fun cs =>
  let pat := word.toList
  if cs.take pat.length = pat then some (d, cs.drop pat.length) else none

mutual
/-- One value, read with steps for what lies inside it. -/
def datum : Nat → Step Datum
  | 0, _ => none
  | fuel + 1, cs =>
    match skipSpace cs with
    | '{' :: rest =>
      match skipSpace rest with
      | '}' :: rest => some (.record [], rest)
      | rest => (entries fuel rest).map fun (es, rest) => (.record es, rest)
    | '[' :: rest =>
      match skipSpace rest with
      | ']' :: rest => some (.list [], rest)
      | rest => (elements fuel rest).map fun (ds, rest) => (.list ds, rest)
    | '"' :: rest => quoted rest
    | '-' :: rest => numberAfterSign true rest
    | 't' :: rest => name "true" (.bool true) ('t' :: rest)
    | 'f' :: rest => name "false" (.bool false) ('f' :: rest)
    | 'n' :: rest => name "null" .null ('n' :: rest)
    | rest => numberAfterSign false rest

/-- The elements of a list up to its closing bracket; there is at least one. -/
def elements : Nat → Step (List Datum)
  | 0, _ => none
  | fuel + 1, cs => do
    let (d, rest) ← datum fuel cs
    match skipSpace rest with
    | ']' :: rest => return ([d], rest)
    | ',' :: rest =>
      let (ds, rest) ← elements fuel rest
      return (d :: ds, rest)
    | _ => none

/-- The entries of a record up to its closing brace; there is at least one. -/
def entries : Nat → Step (List (Datum × Datum))
  | 0, _ => none
  | fuel + 1, cs =>
    match skipSpace cs with
    | '"' :: rest => do
      let (k, rest) ← quoted rest
      match skipSpace rest with
      | ':' :: rest =>
        let (d, rest) ← datum fuel rest
        match skipSpace rest with
        | '}' :: rest => return ([(k, d)], rest)
        | ',' :: rest =>
          let (es, rest) ← entries fuel rest
          return ((k, d) :: es, rest)
        | _ => none
      | _ => none
    | _ => none
end

/-- The data of a text that holds one value. -/
def readDatum (s : String) : Option Datum :=
  let cs := s.toList
  match datum (2 * cs.length + 2) cs with
  | some (d, rest) => if (skipSpace rest).isEmpty then some d else none
  | none => none

/-- The value of a text. -/
def read (s : String) : Option Json := (readDatum s).bind Datum.json?

/-- The values that stand one after another, at most `fuel` of them. -/
def valuesFrom : Nat → List Char → Option (List Json)
  | 0, cs => if (skipSpace cs).isEmpty then some [] else none
  | fuel + 1, cs =>
    if (skipSpace cs).isEmpty then some []
    else do
      let (d, rest) ← datum (2 * cs.length + 2) cs
      return (← d.json?) :: (← valuesFrom fuel rest)

/-- The values of a text that holds any number of them. -/
def readAll (s : String) : Option (List Json) := valuesFrom s.length s.toList

end WorkflowEngine.Json
