import Mathlib.Algebra.Group.Nat.Defs
import Mathlib.Data.List.Induction
import WorkflowEngine.Data.Word

/-!
# Numbers as digits

A number is read back from its digits in any base up to sixteen, whatever zeros stand before them.

## Main definitions

* `Word.withDigit`: a number with another digit after it
* `Word.spelled`: the number that digits spell, which is zero if there are none

## Main results

* `Word.natInBase?_lt`: as many digits spell numbers below a power of the base
* `Word.natInBase?_zeros_toDigits`: a number is read back from its digits after zeros
-/

namespace WorkflowEngine.Data.Word

/-- A number with another digit after it. -/
def withDigit (base : Nat) (n : Option Nat) (c : Char) : Option Nat := do
  let v ← n
  let d ← hexValue? c
  if d < base then some (v * base + d) else none

/-- The number that digits spell in a base, which is zero if there are none. -/
def spelled (base : Nat) (cs : List Char) : Option Nat := cs.foldl (withDigit base) (some 0)

theorem natInBase?_eq_spelled {cs : List Char} (base : Nat) (h : cs ≠ []) :
    natInBase? base cs = spelled base cs := by
  rw [natInBase?, if_neg (by simpa using h)]
  rfl

theorem hexValue?_digitChar {d : Nat} (h : d < 16) : hexValue? (Nat.digitChar d) = some d :=
  (by decide : ∀ d : Fin 16, hexValue? (Nat.digitChar d) = some d.val) ⟨d, h⟩

theorem withDigit_digitChar {base d : Nat} (hd : d < base) (hbase : base ≤ 16) (n : Nat) :
    withDigit base (some n) (Nat.digitChar d) = some (n * base + d) := by
  simp [withDigit, hexValue?_digitChar (Nat.lt_of_lt_of_le hd hbase), hd]

theorem spelled_concat {base n d : Nat} {cs : List Char} (h : spelled base cs = some n)
    (hd : d < base) (hbase : base ≤ 16) :
    spelled base (cs ++ [Nat.digitChar d]) = some (n * base + d) := by
  unfold spelled at h ⊢
  rw [List.foldl_append, h]
  exact withDigit_digitChar hd hbase n

theorem spelled_toDigits {base : Nat} (hone : 1 < base) (hbase : base ≤ 16) (n : Nat) :
    spelled base (Nat.toDigits base n) = some n := by
  induction n using Nat.strongRecOn with
  | ind n ih =>
    rw [Nat.toDigits_eq_if hone]
    split
    next h =>
      have hd : spelled base ([] ++ [Nat.digitChar n]) = some (0 * base + n) :=
        spelled_concat rfl h hbase
      simpa using hd
    next h =>
      have hlt : n / base < n := Nat.div_lt_self (by omega) hone
      rw [spelled_concat (ih _ hlt) (Nat.mod_lt n (by omega)) hbase, Nat.mul_comm,
        Nat.div_add_mod]

theorem spelled_zeros {base : Nat} (h : 0 < base) (k : Nat) (cs : List Char) :
    spelled base (List.replicate k '0' ++ cs) = spelled base cs := by
  have hzero : hexValue? '0' = some 0 := rfl
  induction k with
  | zero => rfl
  | succ k ih =>
    rw [← ih]
    simp [spelled, withDigit, List.replicate_succ, hzero, h]

theorem exists_of_mem_toDigits {base n : Nat} (hone : 1 < base) {c : Char}
    (h : c ∈ Nat.toDigits base n) : ∃ d < base, c = Nat.digitChar d := by
  induction n using Nat.strongRecOn with
  | ind n ih =>
    rw [Nat.toDigits_eq_if hone] at h
    split at h
    next hn => exact ⟨n, hn, List.mem_singleton.mp h⟩
    next hn =>
      rcases List.mem_append.mp h with h | h
      · exact ih _ (Nat.div_lt_self (by omega) hone) h
      · exact ⟨n % base, Nat.mod_lt n (by omega), List.mem_singleton.mp h⟩

/-- As many digits spell numbers below a power of the base. -/
theorem spelled_lt {base n : Nat} {cs : List Char} (h : spelled base cs = some n) :
    n < base ^ cs.length := by
  induction cs using List.reverseRecOn generalizing n with
  | nil =>
    cases h
    exact Nat.one_pos
  | append_singleton cs c ih =>
    rw [spelled, List.foldl_append] at h
    obtain ⟨v, hv, h⟩ := Option.bind_eq_some_iff.mp h
    obtain ⟨d, -, h⟩ := Option.bind_eq_some_iff.mp h
    split at h
    next hd =>
      cases h
      have hle : (v + 1) * base ≤ base ^ cs.length * base := Nat.mul_le_mul_right base (ih hv)
      rw [List.length_append, List.length_singleton, Nat.pow_succ]
      rw [Nat.succ_mul] at hle
      omega
    next => cases h

theorem natInBase?_lt {base n : Nat} {cs : List Char} (h : natInBase? base cs = some n) :
    n < base ^ cs.length := by
  by_cases hne : cs = []
  · subst hne
    cases h
  · rw [natInBase?_eq_spelled base hne] at h
    exact spelled_lt h

/-- **A number is read back from its digits, whatever zeros stand before them.** -/
theorem natInBase?_zeros_toDigits {base : Nat} (hone : 1 < base) (hbase : base ≤ 16) (k n : Nat) :
    natInBase? base (List.replicate k '0' ++ Nat.toDigits base n) = some n := by
  have hne : List.replicate k '0' ++ Nat.toDigits base n ≠ [] := by simp [Nat.toDigits_ne_nil]
  rw [natInBase?_eq_spelled base hne, spelled_zeros (by omega), spelled_toDigits hone hbase]

end WorkflowEngine.Data.Word
