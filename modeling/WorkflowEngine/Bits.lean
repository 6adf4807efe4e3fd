/-!
# Words of bits

Counts, seconds and whole numbers are kept in words of 32, 64 or 128 bits. What fits into none of
them is refused, or becomes a float.

## Main definitions

* `Bits.words`: how many words of so many bits there are
* `Bits.isSigned`, `Bits.isWord`: the whole numbers that a word holds
-/

namespace WorkflowEngine.Bits

/-- How many words of `n` bits there are: the least number that is too great for one. -/
def words (n : Nat) : Nat := Nat.pow 2 n

/-- A word of `n` bits holds the number with its sign. -/
def isSigned (n : Nat) (i : Int) : Bool :=
  Int.negOfNat (words (n - 1)) ≤ i && i < Int.ofNat (words (n - 1))

/-- A word of `n` bits holds the number, with its sign or without one. -/
def isWord (n : Nat) (i : Int) : Bool :=
  Int.negOfNat (words (n - 1)) ≤ i && i < Int.ofNat (words n)

end WorkflowEngine.Bits
