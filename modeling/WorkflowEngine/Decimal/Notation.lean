import WorkflowEngine.Decimal.Shortest

/-!
# How a float is written

A float is written with the shortest digits that read back. Which values are written positionally
and how an exponent looks is the choice of the format that writes it, given as a `FloatText`.

## Main definitions

* `FloatText`: the choices of a format
* `FloatText.write`: the text of a float in a format
-/

namespace WorkflowEngine.Decimal

/-- The choices of a format that writes floats. -/
structure FloatText where
  /-- The greatest number of digits before the point of a positional text. -/
  maxWhole : Int
  /-- The greatest number of zeros between the point and the first digit of a positional text. -/
  maxZeros : Int
  /-- What stands before the digits of an exponent that is not negative. -/
  plus : String
  notANumber : String
  infinity : String

/-- The digits as a positional text: `whole` of them stand before the point, and a point is always
there. -/
def positional (digits : List Char) (whole : Int) : List Char :=
  if whole ≤ 0 then ['0', '.'] ++ List.replicate (-whole).toNat '0' ++ digits
  else
    let n := whole.toNat
    if digits.length ≤ n then digits ++ List.replicate (n - digits.length) '0' ++ ['.', '0']
    else digits.take n ++ '.' :: digits.drop n

/-- The digits with one of them before the point and an exponent. -/
def scientific (plus : String) (digits : List Char) (exponent : Int) : List Char :=
  let mark := if exponent < 0 then ['-'] else plus.toList
  let tail := 'e' :: mark ++ Nat.toDigits 10 exponent.natAbs
  match digits with
  | [] => tail
  | [d] => d :: tail
  | d :: ds => d :: '.' :: ds ++ tail

/-- The text of a float in a format. -/
def FloatText.write (f : FloatText) (x : Float) : String :=
  if x.isNaN then f.notANumber
  else
    let body :=
      if x.isInf then f.infinity.toList
      else if x == 0.0 then ['0', '.', '0']
      else
        let d := shortest x
        let digits := d.text
        let whole := d.exponent + digits.length
        if -f.maxZeros ≤ whole && whole ≤ f.maxWhole then positional digits whole
        else scientific f.plus digits (whole - 1)
    String.ofList (if isNegative x then '-' :: body else body)

end WorkflowEngine.Decimal
