import WorkflowEngine.Data.Datum
import WorkflowEngine.Timestamp
import WorkflowEngine.Toml.Text

/-!
# Numbers and dates of Toml

Digits may be grouped by underscores. Whole numbers have 64 bits and may be written in base sixteen,
eight or two. A date, with or without a time, and a time are values of their own; what is read here
has no use for them, so they are unreadable data.

## Main definitions

* `date`, `time`, `moment`: dates and times
* `number`: a number, date or time
-/

namespace WorkflowEngine.Toml

/-! ### Dates and times -/

/-- A number of so many digits, at most `most`. -/
def digitsOf (length most : Nat) : Step Nat := fun cs =>
  let ds := cs.take length
  if ds.length = length && ds.all Char.isDigit then
    let n := Decimal.ofDigits 0 ds
    if n ≤ most then some (n, cs.drop length) else none
  else none

/-- A character that has to stand. -/
def mark (c : Char) : Step Unit
  | x :: cs => if x == c then some ((), cs) else none
  | [] => none

/-- A date. -/
def date : Step Unit := fun cs => do
  let (year, cs) ← digitsOf 4 9999 cs
  let ((), cs) ← mark '-' cs
  let (month, cs) ← digitsOf 2 12 cs
  let ((), cs) ← mark '-' cs
  let (day, cs) ← digitsOf 2 31 cs
  if 1 ≤ month && 1 ≤ day && day ≤ Timestamp.daysInMonth year month then some ((), cs) else none

/-- The text after a fraction of a second, if there is one. -/
def skipFraction : List Char → List Char
  | '.' :: c :: cs => if c.isDigit then cs.dropWhile Char.isDigit else '.' :: c :: cs
  | cs => cs

/-- A time. -/
def time : Step Unit := fun cs => do
  let (_, cs) ← digitsOf 2 23 cs
  let ((), cs) ← mark ':' cs
  let (_, cs) ← digitsOf 2 59 cs
  let ((), cs) ← mark ':' cs
  let (_, cs) ← digitsOf 2 60 cs
  return ((), skipFraction cs)

/-- An offset after its sign. -/
def offset : Step Unit := fun cs => do
  let (_, cs) ← digitsOf 2 23 cs
  let ((), cs) ← mark ':' cs
  let (_, cs) ← digitsOf 2 59 cs
  return ((), cs)

/-- The text after an offset, if there is one. -/
def skipOffset (cs : List Char) : List Char :=
  match cs with
  | 'Z' :: rest => rest
  | 'z' :: rest => rest
  | '+' :: rest => ((offset rest).map Prod.snd).getD cs
  | '-' :: rest => ((offset rest).map Prod.snd).getD cs
  | _ => cs

/-- The text after the time that follows a date, if there is one. -/
def skipTime (cs : List Char) : List Char :=
  match cs with
  | c :: rest =>
    if c == 'T' || c == 't' || c == ' ' then
      match time rest with
      | some ((), rest) => skipOffset rest
      | none => cs
    else cs
  | [] => []

/-- A date, a time or both. -/
def moment : Step Unit := fun cs =>
  match date cs with
  | some ((), rest) => some ((), skipTime rest)
  | none => time cs

/-! ### Numbers -/

/-- The digits that go on; an underscore may stand between two of them. -/
def digitsFrom (isDigit : Char → Bool) : List Char → List Char × List Char
  | '_' :: c :: cs =>
    if isDigit c then
      let (ds, rest) := digitsFrom isDigit cs
      (c :: ds, rest)
    else ([], '_' :: c :: cs)
  | c :: cs =>
    if isDigit c then
      let (ds, rest) := digitsFrom isDigit cs
      (c :: ds, rest)
    else ([], c :: cs)
  | [] => ([], [])

/-- One or more digits. -/
def digits (isDigit : Char → Bool) : Step (List Char)
  | c :: cs =>
    if isDigit c then
      let (ds, rest) := digitsFrom isDigit cs
      some (c :: ds, rest)
    else none
  | [] => none

/-- A digit of a base. -/
def isDigitOf (base : Nat) (c : Char) : Bool := (Data.Word.hexValue? c).any (· < base)

/-- A whole number of 64 bits. -/
def wholeNumber (n : Int) : Option Datum :=
  if Bits.isSigned 64 n then some (.int n) else none

/-- A number in a base, after the mark of the base. -/
def inBase (base : Nat) : Step Datum := fun cs => do
  let (ds, rest) ← digits (isDigitOf base) cs
  return (← wholeNumber (← Data.Word.natInBase? base ds), rest)

/-- The point and digits of a fraction, if there is one. -/
def fraction : Step (List Char)
  | '.' :: cs => do
    let (ds, rest) ← digits Char.isDigit cs
    return ('.' :: ds, rest)
  | cs => some ([], cs)

/-- The mark, sign and digits of an exponent, if there is one. -/
def exponent : Step (List Char)
  | c :: cs =>
    if c == 'e' || c == 'E' then do
      let (negative, cs) := Decimal.spanSign cs
      let (ds, rest) ← digits Char.isDigit cs
      return ('e' :: (if negative then '-' :: ds else ds), rest)
    else some ([], c :: cs)
  | [] => some ([], [])

/-- A decimal number after its sign. -/
def decimal (negative : Bool) : Step Datum := fun cs => do
  let (whole, rest) ← digits Char.isDigit cs
  if whole.length > 1 && whole.head? == some '0' then none
  else
    let (f, rest) ← fraction rest
    let (e, rest) ← exponent rest
    if f.isEmpty && e.isEmpty then
      let n : Int := Decimal.ofDigits 0 whole
      return (← wholeNumber (if negative then -n else n), rest)
    else
      let x ← Decimal.ofText (whole ++ f ++ e)
      if x.isInf && !negative then none
      else return (.float (if negative then -x else x), rest)

/-- A number after its sign, a word or decimal. -/
def afterSign (negative : Bool) : Step Datum
  | 'i' :: 'n' :: 'f' :: rest => some (.float (if negative then -1.0 / 0.0 else 1.0 / 0.0), rest)
  | 'n' :: 'a' :: 'n' :: rest => some (.float (0.0 / 0.0), rest)
  | cs => decimal negative cs

/-- A number, date or time. -/
def number : Step Datum := fun cs =>
  match moment cs with
  | some ((), rest) => some (.unreadable, rest)
  | none =>
    match cs with
    | '+' :: rest => afterSign false rest
    | '-' :: rest => afterSign true rest
    | '0' :: 'x' :: rest => inBase 16 rest
    | '0' :: 'o' :: rest => inBase 8 rest
    | '0' :: 'b' :: rest => inBase 2 rest
    | cs => afterSign false cs

end WorkflowEngine.Toml
