/-!
# Floats as binary fractions

A finite float is a whole number times a power of two. This module takes a float apart into these
two and states the interval of numbers that round to it.

## Main definitions

* `Binary`: a magnitude `mantissa * 2 ^ exponent`
* `Binary.ofFloat x`: the magnitude of a finite float
* `remainder x y`: the rest of the division of `x` by `y` with the sign of `x`, exact
-/

namespace WorkflowEngine.Decimal

/-- The magnitude `mantissa * 2 ^ exponent`. -/
structure Binary where
  mantissa : Nat
  exponent : Int
  /-- The float below is only half as far away as the float above. -/
  narrowBelow : Bool
deriving Repr, DecidableEq

/-- The sign bit is set; it is set for the negative zero too. -/
def isNegative (x : Float) : Bool := x.toBits >>> 63 == 1

/-- The magnitude of a finite float. -/
def Binary.ofFloat (x : Float) : Binary :=
  let bits := x.toBits
  let field := ((bits >>> 52) &&& 0x7ff).toNat
  let fraction := (bits &&& 0xfffffffffffff).toNat
  if field = 0 then ⟨fraction, -1074, false⟩
  else ⟨fraction + 0x10000000000000, (field : Int) - 1075, fraction = 0 && 1 < field⟩

/-- Takes factors of two out of a number, at most `fuel` of them. -/
def removeTwos : Nat → Nat → Int → Nat × Int
  | 0, m, e => (m, e)
  | fuel + 1, m, e => if m % 2 = 0 then removeTwos fuel (m / 2) (e + 1) else (m, e)

/-- The rest of the division of `x` by `y`, truncated toward zero: it has the sign of `x` and is
exact. Division by zero, by a value that is no number or of an infinity has none. -/
def remainder (x y : Float) : Float :=
  if x.isNaN || y.isNaN || x.isInf || y == 0.0 then 0.0 / 0.0
  else if y.isInf then x
  else
    let a := Binary.ofFloat x
    let b := Binary.ofFloat y
    let e := min a.exponent b.exponent
    let scaled := fun m : Binary => m.mantissa * Nat.pow 2 (m.exponent - e).toNat
    let rest := scaled a % scaled b
    let magnitude :=
      if rest = 0 then 0.0
      else
        let (m, k) := removeTwos (Nat.log2 rest) rest e
        (Float.ofNat m).scaleB k
    if isNegative x then -magnitude else magnitude

end WorkflowEngine.Decimal
