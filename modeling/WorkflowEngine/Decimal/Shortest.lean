import WorkflowEngine.Decimal.Binary

/-!
# The shortest decimal that reads back

Of all decimals that round to a given float, the one with the fewest digits; of several with that
many digits, the one nearest to the float, and the even one of two that are equally near.

For `1, 2, … , 17` digits the two neighbours of the value on the grid of decimals with that many
digits are tested in exact arithmetic; the first grid with a hit wins. Seventeen digits always
suffice.

## Main definitions

* `Digits`: a decimal `digits * 10 ^ exponent`
* `shortest x`: the shortest decimal that reads back as the finite, nonzero float `x`
-/

namespace WorkflowEngine.Decimal

/-- The decimal `significand * 10 ^ exponent`. -/
structure Digits where
  significand : Nat
  exponent : Int
deriving Repr, DecidableEq

namespace Digits

/-- The digits of the significand, most significant first. -/
def text (d : Digits) : List Char := Nat.toDigits 10 d.significand

/-- Takes factors of ten out of the significand, at most `fuel` of them. -/
def normalize : Nat → Digits → Digits
  | 0, d => d
  | fuel + 1, d =>
    if d.significand ≠ 0 ∧ d.significand % 10 = 0 then
      normalize fuel ⟨d.significand / 10, d.exponent + 1⟩
    else d

end Digits

/-- The numbers that round to a magnitude, as multiples of a common unit `1 / unit`: between `low`
and `high`, the ends belonging to them if `closed`. -/
structure Interval where
  low : Nat
  value : Nat
  high : Nat
  unit : Nat
  closed : Bool

/-- The interval of the numbers that round to a magnitude. -/
def Interval.of (b : Binary) : Interval :=
  -- in quarters of the last binary place
  let scale := fun n : Nat => if b.exponent < 2 then n else n * Nat.pow 2 (b.exponent - 2).toNat
  { low := scale (4 * b.mantissa - (if b.narrowBelow then 1 else 2))
    value := scale (4 * b.mantissa)
    high := scale (4 * b.mantissa + 2)
    unit := if b.exponent < 2 then Nat.pow 2 (2 - b.exponent).toNat else 1
    closed := b.mantissa % 2 = 0 }

/-- The decimal `n * 10 ^ k` lies in the interval. -/
def Interval.holds (i : Interval) (n : Nat) (k : Int) : Bool :=
  let m := if k < 0 then n * i.unit else n * Nat.pow 10 k.toNat * i.unit
  let grow := if k < 0 then Nat.pow 10 (-k).toNat else 1
  if i.closed then i.low * grow ≤ m && m ≤ i.high * grow else i.low * grow < m && m < i.high * grow

/-- The multiple of `10 ^ k` at or below the interval's value, and the distances to it and to the
next one, in a common unit. -/
def Interval.neighbours (i : Interval) (k : Int) : Nat × Nat × Nat :=
  let num := if k < 0 then i.value * Nat.pow 10 (-k).toNat else i.value
  let den := if k < 0 then i.unit else i.unit * Nat.pow 10 k.toNat
  let n := num / den
  (n, num - n * den, (n + 1) * den - num)

/-- The decimal on the grid of multiples of `10 ^ k` that lies in the interval, the nearer one of
two, the even one of two equally near. -/
def Interval.onGrid (i : Interval) (k : Int) : Option Nat :=
  let (n, below, above) := i.neighbours k
  let fits := fun n => n != 0 && i.holds n k
  match fits n, fits (n + 1) with
  | true, true =>
    some (if below < above then n else if above < below then n + 1 else n + n % 2)
  | true, false => some n
  | false, true => some (n + 1)
  | false, false => none

/-- The power of ten of the leading digit of `value / unit`, searched downwards from `k`. -/
def Interval.leading (i : Interval) : Nat → Int → Int
  | 0, k => k
  | fuel + 1, k =>
    let reached :=
      if k < 0 then i.unit ≤ i.value * Nat.pow 10 (-k).toNat
      else i.unit * Nat.pow 10 k.toNat ≤ i.value
    if reached then k else Interval.leading i fuel (k - 1)

/-- The first of the grids with `further`, `further + 1`, … digits after the leading one that holds
a hit. -/
def Interval.firstHit (i : Interval) (leading : Int) : Nat → Nat → Digits
  | 0, further => ⟨(i.neighbours (leading - further)).1, leading - further⟩
  | fuel + 1, further =>
    match i.onGrid (leading - further) with
    | some n => ⟨n, leading - further⟩
    | none => Interval.firstHit i leading fuel (further + 1)

/-- A power of ten at or above the leading digit of a magnitude below `2 ^ bits`, near to it. -/
def leadingBound (bits : Int) : Int := (bits * 30103) / 100000 + 1

/-- The shortest decimal that reads back as the finite, nonzero float `x`, without its sign. -/
def shortest (x : Float) : Digits :=
  let b := Binary.ofFloat x
  let i := Interval.of b
  let leading := i.leading 4 (leadingBound (b.exponent + (Nat.log2 b.mantissa : Int) + 1))
  (i.firstHit leading 17 0).normalize 20

end WorkflowEngine.Decimal
