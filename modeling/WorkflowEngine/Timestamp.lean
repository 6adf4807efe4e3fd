import WorkflowEngine.Text.Blank
import WorkflowEngine.Data.Word

/-!
# Points in time

A point in time counts seconds from the beginning of 1970, without leap seconds; within a leap
second the nanoseconds go on past one billion. The calendar is the Gregorian one, extended to all
years.

## Main definitions

* `Timestamp`: a point in time
* `daysOfDate`, `dateOfDays`: days and dates
* `Timestamp.ofText?`: a point in time from text with a date, a time and an offset
* `Timestamp.text`: the text with offset `Z`, and as many digits of the fraction as are needed
-/

namespace WorkflowEngine

/-- A point in time. -/
structure Timestamp where
  /-- The seconds since the beginning of 1970. -/
  seconds : Int
  /-- The nanoseconds since then. -/
  nanos : Nat
deriving Repr, DecidableEq, Inhabited

namespace Timestamp

/-- The point in time after a number of milliseconds. -/
def addMs (t : Timestamp) (ms : Nat) : Timestamp :=
  let nanos := t.nanos + ms * 1000000
  ⟨t.seconds + nanos / 1000000000, nanos % 1000000000⟩

/-- A calendar date. -/
structure Date where
  year : Int
  month : Nat
  day : Nat
deriving Repr, DecidableEq

/-- The years that February belongs to a longer one of. -/
def isLeapYear (year : Int) : Bool :=
  year % 4 == 0 && (year % 100 != 0 || year % 400 == 0)

/-- The days of a month. -/
def daysInMonth (year : Int) (month : Nat) : Nat :=
  if month == 2 then if isLeapYear year then 29 else 28
  else if [4, 6, 9, 11].contains month then 30
  else 31

/-- The days from the beginning of 1970 to a date. Years are counted from March, so that the leap
day comes last. -/
def daysOfDate (d : Date) : Int :=
  let year := if d.month ≤ 2 then d.year - 1 else d.year
  let month : Int := if d.month ≤ 2 then d.month + 9 else d.month - 3
  let era := year.fdiv 400
  let yearOfEra := year - era * 400
  let dayOfYear := (153 * month + 2).fdiv 5 + d.day - 1
  let dayOfEra := yearOfEra * 365 + yearOfEra.fdiv 4 - yearOfEra.fdiv 100 + dayOfYear
  era * 146097 + dayOfEra - 719468

/-- The date of a number of days from the beginning of 1970. -/
def dateOfDays (days : Int) : Date :=
  let shifted := days + 719468
  let era := shifted.fdiv 146097
  let dayOfEra := shifted - era * 146097
  let yearOfEra :=
    (dayOfEra - dayOfEra.fdiv 1460 + dayOfEra.fdiv 36524 - dayOfEra.fdiv 146096).fdiv 365
  let dayOfYear := dayOfEra - (365 * yearOfEra + yearOfEra.fdiv 4 - yearOfEra.fdiv 100)
  let shiftedMonth := (5 * dayOfYear + 2).fdiv 153
  let day := dayOfYear - (153 * shiftedMonth + 2).fdiv 5 + 1
  let month := if shiftedMonth < 10 then shiftedMonth + 3 else shiftedMonth - 9
  let year := yearOfEra + era * 400 + if month ≤ 2 then 1 else 0
  ⟨year, month.toNat, day.toNat⟩

/-- The order of points in time. -/
def before (a b : Timestamp) : Bool :=
  a.seconds < b.seconds || (a.seconds == b.seconds && a.nanos < b.nanos)

/-! ### Reading -/

/-- A step of reading: what it takes from the front of a text, and the rest. -/
abbrev Step (α : Type) := List Char → Option (α × List Char)

/-- Over blanks. -/
def skipBlanks (cs : List Char) : List Char := cs.dropWhile Text.isBlank

/-- A number of at least one digit and at most `most` of them. -/
def digits (most : Nat) : Step Nat := fun cs =>
  let ds := (cs.take most).takeWhile Char.isDigit
  (Data.Word.natInBase? 10 ds).map (·, cs.drop ds.length)

/-- A part of a date or time that has two digits at most, after blanks. -/
def part : Step Nat := fun cs => digits 2 (skipBlanks cs)

/-- A year: four digits at most, or any number of them after a sign. -/
def year : Step Int := fun cs =>
  match skipBlanks cs with
  | '-' :: rest => (digits rest.length rest).map fun (n, rest) => (-(n : Int), rest)
  | '+' :: rest => (digits rest.length rest).map fun (n, rest) => ((n : Int), rest)
  | rest => (digits 4 rest).map fun (n, rest) => ((n : Int), rest)

/-- A mark after blanks. -/
def mark (c : Char) : Step Unit := fun cs =>
  match skipBlanks cs with
  | x :: rest => if x = c then some ((), rest) else none
  | [] => none

/-- The nanoseconds of a fraction, if there is one. Digits after the ninth do not count. -/
def fraction : Step Nat
  | '.' :: cs => do
    let ds := (cs.take 9).takeWhile Char.isDigit
    let n ← Data.Word.natInBase? 10 ds
    return (n * Nat.pow 10 (9 - ds.length), (cs.drop ds.length).dropWhile Char.isDigit)
  | cs => some (0, cs)

/-- Two digits. -/
def twoDigits : Step Nat
  | a :: b :: rest => if a.isDigit && b.isDigit then (digits 2 [a, b]).map (·.1, rest) else none
  | _ => none

/-- The hours and minutes of an offset in seconds. -/
def offsetAfterSign (negative : Bool) : Step Int := fun cs => do
  let (hours, cs) ← twoDigits cs
  let (minutes, cs) ← twoDigits (cs.dropWhile fun c => c == ':' || Text.isBlank c)
  if 60 ≤ minutes || 24 ≤ hours then none
  else
    let seconds : Int := hours * 3600 + minutes * 60
    return (if negative then -seconds else seconds, cs)

/-- The offset from universal time, in seconds. -/
def offset : Step Int
  | 'Z' :: cs => some (0, cs)
  | 'z' :: cs => some (0, cs)
  | '+' :: cs => offsetAfterSign false cs
  | '-' :: cs => offsetAfterSign true cs
  | '\u2212' :: cs => offsetAfterSign true cs
  | u :: t :: c :: cs =>
    if u.toUpper = 'U' && t.toUpper = 'T' && c.toUpper = 'C' then some (0, cs) else none
  | _ => none

/-- The years that dates may have. -/
def isYear (year : Int) : Bool := -262143 ≤ year && year ≤ 262142

/-- The seconds since 1970 of a date and time, if they exist. -/
def secondsOf? (d : Date) (hour minute second : Nat) : Option Int :=
  if isYear d.year && 1 ≤ d.month && d.month ≤ 12 && 1 ≤ d.day &&
      d.day ≤ daysInMonth d.year d.month && hour < 24 && minute < 60 && second ≤ 60 then
    some (daysOfDate d * 86400 + hour * 3600 + minute * 60 + second)
  else none

/-- A point in time from text with a date, a time and an offset. -/
def ofText? (s : String) : Option Timestamp := do
  let (year, cs) ← year s.toList
  let (_, cs) ← mark '-' cs
  let (month, cs) ← part cs
  let (_, cs) ← mark '-' cs
  let (day, cs) ← part cs
  let cs ← match cs with
    | c :: cs => if c == 'T' || c == 't' || c == ' ' then some cs else none
    | [] => none
  let (hour, cs) ← part cs
  let (_, cs) ← mark ':' cs
  let (minute, cs) ← part cs
  let (_, cs) ← mark ':' cs
  let (second, cs) ← part cs
  let (nanos, cs) ← fraction cs
  let (offset, cs) ← offset (skipBlanks cs)
  if !(skipBlanks cs).isEmpty then none
  else
    -- a leap second is the second before it, prolonged
    let isLeap := second == 60
    let seconds ← secondsOf? ⟨year, month, day⟩ hour minute (if isLeap then 59 else second)
    let seconds := seconds - offset
    if isYear (dateOfDays (seconds.fdiv 86400)).year then
      return ⟨seconds, if isLeap then nanos + 1000000000 else nanos⟩
    else none

/-! ### Writing -/

/-- A number with zeros in front of it up to a width. -/
def padded (width n : Nat) : String :=
  let digits := toString n
  String.ofList (List.replicate (width - digits.length) '0') ++ digits

/-- A year; one that has not four digits has a sign. -/
def yearText (year : Int) : String :=
  if 0 ≤ year && year ≤ 9999 then padded 4 year.toNat
  else (if year < 0 then "-" else "+") ++ padded 4 year.natAbs

/-- The digits of a fraction, in groups of three. -/
def fractionText (nanos : Nat) : String :=
  if nanos == 0 then ""
  else if nanos % 1000000 == 0 then "." ++ padded 3 (nanos / 1000000)
  else if nanos % 1000 == 0 then "." ++ padded 6 (nanos / 1000)
  else "." ++ padded 9 nanos

/-- The text of a point in time, in universal time. -/
def text (t : Timestamp) : String :=
  let date := dateOfDays (t.seconds.fdiv 86400)
  let secondOfDay := (t.seconds.fmod 86400).toNat
  let isLeap := 1000000000 ≤ t.nanos
  let second := secondOfDay % 60 + if isLeap then 1 else 0
  yearText date.year ++ "-" ++ padded 2 date.month ++ "-" ++ padded 2 date.day ++ "T" ++
    padded 2 (secondOfDay / 3600) ++ ":" ++ padded 2 (secondOfDay / 60 % 60) ++ ":" ++
    padded 2 second ++ fractionText (if isLeap then t.nanos - 1000000000 else t.nanos) ++ "Z"

end Timestamp

end WorkflowEngine
