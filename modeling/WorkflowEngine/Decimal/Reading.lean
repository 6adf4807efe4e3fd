/-!
# Reading decimals as floats

Two rules turn a decimal into a float. The exact rule rounds the decimal once, to the nearest
float. The scaled rule rounds the significand first and then multiplies or divides by the float
nearest to the power of ten; it may be off by the last bit.

## Main definitions

* `nearest m e`: the float nearest to `m * 10 ^ e`
* `scaled m e`: the scaled rule, without a value if the decimal is too large
* `ofText cs`: a decimal literal with optional sign, point and exponent
-/

namespace WorkflowEngine.Decimal

/-- The number that a list of decimal digits spells after a number already read. -/
def ofDigits (start : Nat) (cs : List Char) : Nat :=
  cs.foldl (fun n c => 10 * n + (c.toNat - '0'.toNat)) start

/-- The leading digits and the rest. -/
def spanDigits (cs : List Char) : List Char × List Char :=
  (cs.takeWhile Char.isDigit, cs.dropWhile Char.isDigit)

/-- The float nearest to `m * 10 ^ e`; a value above all floats is infinite. -/
def nearest (m : Nat) (e : Int) : Float :=
  if m = 0 then 0.0
  else
    let size := (Nat.log2 m : Int) * 3 / 10 + e
    if 400 < size then 1.0 / 0.0
    else if size < -400 - (Nat.log2 m : Int) then 0.0
    else Float.ofScientific m (e < 0) e.natAbs

/-- The power of ten nearest among the floats. -/
def powerOfTen (n : Nat) : Float := Float.ofScientific 1 false n

/-- Divides by `10 ^ 308` until what is left of the exponent is in range, then divides by the rest
of the power. -/
def scaleDown : Nat → Float → Nat → Float
  | 0, x, _ => x
  | fuel + 1, x, n =>
    if n ≤ 308 then x / powerOfTen n
    else if x == 0.0 then x
    else scaleDown fuel (x / powerOfTen 308) (n - 308)

/-- The significand rounded to a float and then scaled by a power of ten; none if the result would
be infinite. -/
def scaled (m : Nat) (e : Int) : Option Float :=
  let x := Float.ofNat m
  if e < 0 then some (scaleDown 4 x e.natAbs)
  else if e.toNat ≤ 308 then
    let y := x * powerOfTen e.toNat
    if y.isInf then none else some y
  else if x == 0.0 then some x
  else none

/-- An optional sign and the rest. -/
def spanSign : List Char → Bool × List Char
  | '-' :: cs => (true, cs)
  | '+' :: cs => (false, cs)
  | cs => (false, cs)

/-- The exponent that follows a significand: nothing, or a letter, an optional sign and digits. -/
def exponentOfText : List Char → Option Int
  | [] => some 0
  | c :: cs =>
    if c = 'e' || c = 'E' then
      let (negative, ds) := spanSign cs
      if ds.isEmpty || !ds.all Char.isDigit then none
      else
        let n : Int := ofDigits 0 ds
        some (if negative then -n else n)
    else none

/-- The words for values that are not decimals, in lower case. -/
def specialOfText (cs : List Char) : Option Float :=
  match String.ofList (cs.map Char.toLower) with
  | "inf" | "infinity" => some (1.0 / 0.0)
  | "nan" => some (0.0 / 0.0)
  | _ => none

/-- The float nearest to a decimal literal: an optional sign, digits with an optional point among,
before or after them, and an optional exponent; or a word for infinity or for no number. -/
def ofText (text : List Char) : Option Float :=
  let (negative, cs) := spanSign text
  let value :=
    match specialOfText cs with
    | some x => some x
    | none =>
      let (whole, rest) := spanDigits cs
      let (fraction, rest) :=
        match rest with
        | '.' :: more => spanDigits more
        | _ => ([], rest)
      if whole.isEmpty && fraction.isEmpty then none
      else (exponentOfText rest).map fun e =>
        nearest (ofDigits (ofDigits 0 whole) fraction) (e - fraction.length)
  value.map fun x => if negative then -x else x

end WorkflowEngine.Decimal
