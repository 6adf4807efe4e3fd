import WorkflowEngine.Proofs.Data.Calendar
import WorkflowEngine.Proofs.Data.Digits

/-!
# Points in time as texts

A point in time is written with as many digits as its fields have, so that a reader who takes at
most that many stops where the field ends. A leap second is written as second 60, and second 60 is
read as a leap second.

## Main definitions

* `Timestamp.IsProper`: what reading makes of a text

## Main results

* `Timestamp.isProper_of_ofText?`: what is read is proper
* `Timestamp.ofText?_text`: a proper point in time is read back from its text
-/

namespace WorkflowEngine.Timestamp

open Data

/-- A point in time that has a text: it lies in a year that dates may have, and what comes after the
last nanosecond of a second is a leap second, which comes at the end of a minute. -/
structure IsProper (t : Timestamp) : Prop where
  year : isYear (dateOfDays (t.seconds.fdiv 86400)).year = true
  nanos_lt : t.nanos < 2000000000
  leap : 1000000000 ≤ t.nanos → t.seconds % 60 = 59

/-! ### Digits -/

theorem isBlank_eq_false_of_isDigit {c : Char} (h : c.isDigit) : Text.isBlank c = false := by
  have hc : 48 ≤ c.toNat ∧ c.toNat ≤ 57 := by
    simpa [Char.isDigit, UInt32.le_iff_toNat_le] using h
  simp [Text.isBlank, Char.le_def, UInt32.le_iff_toNat_le, ← Char.toNat_inj]
  omega

theorem skipBlanks_cons {c : Char} (h : Text.isBlank c = false) (cs : List Char) :
    skipBlanks (c :: cs) = c :: cs := by
  simp [skipBlanks, h]

theorem skipBlanks_append {ds rest : List Char} (hne : ds ≠ []) (hds : ∀ c ∈ ds, c.isDigit) :
    skipBlanks (ds ++ rest) = ds ++ rest := by
  cases ds with
  | nil => exact absurd rfl hne
  | cons d ds =>
    exact skipBlanks_cons (isBlank_eq_false_of_isDigit (hds d (List.mem_cons_self ..))) _

/-- Digits end where no more of them are taken, or where none comes. -/
theorem takeWhile_isDigit_append {ds rest : List Char} {most : Nat} (hds : ∀ c ∈ ds, c.isDigit)
    (hle : ds.length ≤ most) (hstop : ds.length = most ∨ ∀ c ∈ rest.head?, c.isDigit = false) :
    ((ds ++ rest).take most).takeWhile Char.isDigit = ds := by
  rw [List.take_append, List.take_of_length_le hle, List.takeWhile_append_of_pos hds]
  suffices h : ((rest.take (most - ds.length)).takeWhile Char.isDigit) = [] by
    rw [h, List.append_nil]
  rcases hstop with hfull | hhead
  · simp [hfull]
  · cases rest with
    | nil => simp
    | cons c rest =>
      have hc : c.isDigit = false := hhead c rfl
      cases most - ds.length with
      | zero => rfl
      | succ k => simp [hc]

theorem digits_append {ds rest : List Char} {most : Nat} (hds : ∀ c ∈ ds, c.isDigit)
    (hle : ds.length ≤ most) (hstop : ds.length = most ∨ ∀ c ∈ rest.head?, c.isDigit = false) :
    digits most (ds ++ rest) = (Word.natInBase? 10 ds).map (·, rest) := by
  simp only [digits, takeWhile_isDigit_append hds hle hstop, List.drop_left]

/-! ### Numbers of a width -/

theorem toList_padded (width n : Nat) :
    (padded width n).toList =
      List.replicate (width - (Nat.toDigits 10 n).length) '0' ++ Nat.toDigits 10 n := by
  simp [padded, Nat.toString_eq_repr, Nat.toList_repr, ← String.length_toList]

theorem isDigit_of_mem_padded {width n : Nat} {c : Char} (h : c ∈ (padded width n).toList) :
    c.isDigit := by
  rw [toList_padded] at h
  rcases List.mem_append.mp h with h | h
  · rw [(List.mem_replicate.mp h).2]
    rfl
  · exact Nat.isDigit_of_mem_toDigits (by decide) (by decide) h

theorem padded_ne_nil (width n : Nat) : (padded width n).toList ≠ [] := by
  simp [toList_padded, Nat.toDigits_ne_nil]

theorem natInBase?_padded (width n : Nat) :
    Word.natInBase? 10 (padded width n).toList = some n := by
  rw [toList_padded]
  exact Word.natInBase?_zeros_toDigits (by decide) (by decide) _ n

theorem length_padded {width n : Nat} (hwidth : 0 < width) (h : n < 10 ^ width) :
    (padded width n).toList.length = width := by
  have hle := (Nat.length_toDigits_le_iff (by decide) hwidth).mpr h
  rw [toList_padded, List.length_append, List.length_replicate]
  omega

theorem digits_padded {width n : Nat} (hwidth : 0 < width) (h : n < 10 ^ width)
    (rest : List Char) : digits width ((padded width n).toList ++ rest) = some (n, rest) := by
  have hlength := length_padded hwidth h
  rw [digits_append (fun _ => isDigit_of_mem_padded) (Nat.le_of_eq hlength) (.inl hlength),
    natInBase?_padded]
  rfl

theorem part_padded {n : Nat} (h : n < 100) (rest : List Char) :
    part ((padded 2 n).toList ++ rest) = some (n, rest) := by
  rw [part, skipBlanks_append (padded_ne_nil 2 n) fun _ => isDigit_of_mem_padded]
  exact digits_padded (by decide) h rest

theorem mark_cons {c : Char} (h : Text.isBlank c = false) (rest : List Char) :
    mark c (c :: rest) = some ((), rest) := by
  simp [mark, skipBlanks_cons h]

/-! ### Years and fractions -/

theorem yearText_of_le {y : Int} (h : 0 ≤ y ∧ y ≤ 9999) : yearText y = padded 4 y.toNat := by
  rw [yearText, if_pos (by simpa using h)]

theorem yearText_of_neg {y : Int} (h : y < 0) : yearText y = "-" ++ padded 4 y.natAbs := by
  have hsmall : ¬ (0 ≤ y ∧ y ≤ 9999) := by omega
  rw [yearText, if_neg (by simpa using hsmall), if_pos h]

theorem yearText_of_gt {y : Int} (h : 9999 < y) : yearText y = "+" ++ padded 4 y.natAbs := by
  have hsmall : ¬ (0 ≤ y ∧ y ≤ 9999) := by omega
  rw [yearText, if_neg (by simpa using hsmall), if_neg (by omega)]

/-- The digits of a year after a sign end with the mark that follows them. -/
theorem digits_signed (n : Nat) (rest : List Char) :
    digits ((padded 4 n).toList ++ '-' :: rest).length ((padded 4 n).toList ++ '-' :: rest) =
      some (n, '-' :: rest) := by
  rw [digits_append (fun _ => isDigit_of_mem_padded) (by simp) (.inr (by simp)),
    natInBase?_padded]
  rfl

theorem year_minus (cs : List Char) :
    year ('-' :: cs) = (digits cs.length cs).map fun (n, rest) => (-(n : Int), rest) := by
  simp only [year, skipBlanks_cons (show Text.isBlank '-' = false by decide)]

theorem year_plus (cs : List Char) :
    year ('+' :: cs) = (digits cs.length cs).map fun (n, rest) => ((n : Int), rest) := by
  simp only [year, skipBlanks_cons (show Text.isBlank '+' = false by decide)]

theorem year_of_isDigit {cs : List Char} (hblank : skipBlanks cs = cs)
    (h : ∀ c ∈ cs.head?, c.isDigit) :
    year cs = (digits 4 cs).map fun (n, rest) => ((n : Int), rest) := by
  unfold year
  rw [hblank]
  split
  · exact absurd (h _ rfl) (by decide)
  · exact absurd (h _ rfl) (by decide)
  · rfl

theorem year_yearText (y : Int) (rest : List Char) :
    year ((yearText y).toList ++ '-' :: rest) = some (y, '-' :: rest) := by
  by_cases hneg : y < 0
  · have habs : -(y.natAbs : Int) = y := by omega
    have hsign : (yearText y).toList = '-' :: (padded 4 y.natAbs).toList := by
      simp [yearText_of_neg hneg]
    rw [hsign, List.cons_append, year_minus, digits_signed]
    exact congrArg (fun y => some (y, '-' :: rest)) habs
  · by_cases hgt : 9999 < y
    · have habs : (y.natAbs : Int) = y := by omega
      have hsign : (yearText y).toList = '+' :: (padded 4 y.natAbs).toList := by
        simp [yearText_of_gt hgt]
      rw [hsign, List.cons_append, year_plus, digits_signed]
      exact congrArg (fun y => some (y, '-' :: rest)) habs
    · have hnat : (y.toNat : Int) = y := by omega
      have hdigits : ∀ c ∈ ((padded 4 y.toNat).toList ++ '-' :: rest).head?, c.isDigit := by
        intro c hc
        cases hds : (padded 4 y.toNat).toList with
        | nil => exact absurd hds (padded_ne_nil 4 _)
        | cons d ds =>
          rw [hds] at hc
          obtain rfl : d = c := Option.mem_some.mp hc
          exact isDigit_of_mem_padded (hds ▸ List.mem_cons_self ..)
      rw [yearText_of_le (by omega), year_of_isDigit
        (skipBlanks_append (padded_ne_nil 4 _) fun _ => isDigit_of_mem_padded) hdigits,
        digits_padded (by decide) (by omega)]
      simp [hnat]

/-- A fraction of `width` digits. -/
theorem fraction_padded {width n : Nat} (hwidth : 0 < width ∧ width ≤ 9) (h : n < 10 ^ width)
    {rest : List Char} (hrest : ∀ c ∈ rest.head?, c.isDigit = false) :
    fraction ('.' :: ((padded width n).toList ++ rest)) = some (n * 10 ^ (9 - width), rest) := by
  have hlength := length_padded hwidth.1 h
  have hstop : rest.dropWhile Char.isDigit = rest := by
    cases rest with
    | nil => rfl
    | cons c rest => simp [hrest c rfl]
  simp only [fraction]
  rw [takeWhile_isDigit_append (fun _ => isDigit_of_mem_padded) (by omega) (.inr hrest),
    natInBase?_padded, List.drop_left, hstop, hlength]
  rfl

theorem fraction_fractionText {nanos : Nat} (h : nanos < 1000000000) (rest : List Char) :
    fraction ((fractionText nanos).toList ++ 'Z' :: rest) = some (nanos, 'Z' :: rest) := by
  have hrest : ∀ c ∈ ('Z' :: rest).head?, c.isDigit = false := by rintro _ ⟨⟩; decide
  have hsome : ∀ {n : Nat}, n = nanos → some (n, 'Z' :: rest) = some (nanos, 'Z' :: rest) := by
    rintro _ rfl
    rfl
  unfold fractionText
  by_cases h0 : nanos = 0
  · subst h0
    rfl
  · rw [if_neg (by simpa using h0)]
    split
    next h6 =>
      have hback : nanos / 1000000 * 1000000 = nanos :=
        Nat.div_mul_cancel (Nat.dvd_of_mod_eq_zero (by simpa using h6))
      rw [String.toList_append]
      exact (fraction_padded (by decide) (by omega) hrest).trans (hsome hback)
    next =>
      split
      next h3 =>
        have hback : nanos / 1000 * 1000 = nanos :=
          Nat.div_mul_cancel (Nat.dvd_of_mod_eq_zero (by simpa using h3))
        rw [String.toList_append]
        exact (fraction_padded (by decide) (by omega) hrest).trans (hsome hback)
      next =>
        rw [String.toList_append]
        exact (fraction_padded (by decide) h hrest).trans (by simp)

/-! ### Whole texts -/

/-- The text of a date and a time. -/
def textOf (d : Date) (hour minute second nanos : Nat) : String :=
  yearText d.year ++ "-" ++ padded 2 d.month ++ "-" ++ padded 2 d.day ++ "T" ++
    padded 2 hour ++ ":" ++ padded 2 minute ++ ":" ++ padded 2 second ++ fractionText nanos ++ "Z"

theorem toList_textOf (d : Date) (hour minute second nanos : Nat) :
    (textOf d hour minute second nanos).toList =
      (yearText d.year).toList ++ '-' :: ((padded 2 d.month).toList ++ '-' ::
        ((padded 2 d.day).toList ++ 'T' :: ((padded 2 hour).toList ++ ':' ::
          ((padded 2 minute).toList ++ ':' :: ((padded 2 second).toList ++
            ((fractionText nanos).toList ++ ['Z'])))))) := by
  simp [textOf]

/-- What the text of a date and a time is read as. -/
theorem ofText?_textOf {d : Date} (hd : d.Exists) {hour minute second nanos : Nat}
    (hhour : hour < 24) (hminute : minute < 60) (hsecond : second ≤ 60)
    (hnanos : nanos < 1000000000) :
    ofText? (textOf d hour minute second nanos) =
      (secondsOf? d hour minute (if second = 60 then 59 else second)).bind fun seconds =>
        if isYear (dateOfDays (seconds.fdiv 86400)).year then
          some ⟨seconds, if second = 60 then nanos + 1000000000 else nanos⟩
        else none := by
  have hmonth := hd.month_le
  have hday : d.day ≤ 31 := by
    refine Nat.le_trans hd.day_le ?_
    unfold daysInMonth
    split
    · split <;> decide
    · split <;> decide
  have hdash : Text.isBlank '-' = false := by decide
  have hcolon : Text.isBlank ':' = false := by decide
  have hz : Text.isBlank 'Z' = false := by decide
  have hoffset : offset ['Z'] = some (0, []) := rfl
  unfold ofText?
  have hbind : ∀ {α β : Type} (a : α) (f : α → Option β), (some a >>= f) = f a := fun _ _ => rfl
  simp only [toList_textOf, year_yearText, hbind, mark_cons hdash,
    mark_cons hcolon, part_padded (show d.month < 100 by omega),
    part_padded (show d.day < 100 by omega), part_padded (show hour < 100 by omega),
    part_padded (show minute < 100 by omega), part_padded (show second < 100 by omega),
    fraction_fractionText hnanos, skipBlanks_cons hz, hoffset]
  simp [skipBlanks]

theorem text_eq_textOf (t : Timestamp) :
    t.text = textOf (dateOfDays (t.seconds.fdiv 86400)) ((t.seconds.fmod 86400).toNat / 3600)
      ((t.seconds.fmod 86400).toNat / 60 % 60)
      ((t.seconds.fmod 86400).toNat % 60 + if 1000000000 ≤ t.nanos then 1 else 0)
      (if 1000000000 ≤ t.nanos then t.nanos - 1000000000 else t.nanos) := rfl

theorem secondsOf?_dateOfDays {days : Int} (hyear : isYear (dateOfDays days).year) {n : Nat}
    (h : n < 86400) :
    secondsOf? (dateOfDays days) (n / 3600) (n / 60 % 60) (n % 60) = some (days * 86400 + n) := by
  have hd := dateOfDays_exists days
  have hhour : n / 3600 < 24 := by omega
  have hminute : n / 60 % 60 < 60 := by omega
  have hsecond : n % 60 ≤ 60 := by omega
  rw [secondsOf?, if_pos, daysOfDate_dateOfDays]
  · simp only [Option.some.injEq]
    omega
  · simp [hyear, hd.one_le_month, hd.month_le, hd.one_le_day, hd.day_le, hhour, hminute, hsecond]

/-- **A proper point in time is read back from its text.** -/
theorem ofText?_text {t : Timestamp} (h : t.IsProper) : ofText? t.text = some t := by
  obtain ⟨seconds, nanos⟩ := t
  obtain ⟨hyear, hnanos, hleap⟩ := h
  dsimp only at hyear hnanos hleap
  have hsum : 86400 * seconds.fdiv 86400 + seconds.fmod 86400 = seconds := Int.mul_fdiv_add_fmod ..
  have hnonneg : 0 ≤ seconds.fmod 86400 := Int.fmod_nonneg_of_pos _ (by decide)
  have hlt : seconds.fmod 86400 < 86400 := Int.fmod_lt_of_pos _ (by decide)
  rw [text_eq_textOf]
  dsimp only
  generalize hn : (seconds.fmod 86400).toNat = n
  have hseconds : seconds.fdiv 86400 * 86400 + n = seconds := by omega
  have hparts := secondsOf?_dateOfDays hyear (show n < 86400 by omega)
  have hexists := dateOfDays_exists (seconds.fdiv 86400)
  by_cases hl : 1000000000 ≤ nanos
  · -- a leap second is written as second 60 of its minute
    have h59 : n % 60 = 59 := by
      have := hleap hl
      omega
    rw [h59] at hparts
    have hback : nanos - 1000000000 + 1000000000 = nanos := by omega
    rw [if_pos hl, if_pos hl, h59, ofText?_textOf hexists (by omega) (by omega) (by omega)
      (by omega), if_pos rfl, hparts, Option.bind_some, hseconds, if_pos hyear, if_pos rfl, hback]
  · have hsecond : ¬ n % 60 = 60 := by omega
    rw [if_neg hl, if_neg hl, Nat.add_zero, ofText?_textOf hexists (by omega) (by omega) (by omega)
      (by omega), if_neg hsecond, hparts, Option.bind_some, hseconds, if_pos hyear, if_neg hsecond]

/-! ### What is read -/

theorem fraction_lt {cs rest : List Char} {n : Nat} (h : fraction cs = some (n, rest)) :
    n < 1000000000 := by
  unfold fraction at h
  split at h
  next cs =>
    obtain ⟨v, hv, h⟩ := Option.bind_eq_some_iff.mp h
    cases h
    have hlt := Word.natInBase?_lt hv
    have hle : ((cs.take 9).takeWhile Char.isDigit).length ≤ 9 :=
      Nat.le_trans (List.takeWhile_sublist _).length_le (List.length_take_le ..)
    have hpow : 10 ^ ((cs.take 9).takeWhile Char.isDigit).length *
        10 ^ (9 - ((cs.take 9).takeWhile Char.isDigit).length) = 1000000000 := by
      rw [← Nat.pow_add, Nat.add_sub_cancel' hle]
    exact hpow ▸ Nat.mul_lt_mul_of_pos_right hlt (Nat.pow_pos (by decide))
  next => cases h; decide

theorem offsetAfterSign_mod {negative : Bool} {cs rest : List Char} {n : Int}
    (h : offsetAfterSign negative cs = some (n, rest)) : n % 60 = 0 := by
  obtain ⟨⟨hours, cs⟩, -, h⟩ := Option.bind_eq_some_iff.mp h
  obtain ⟨⟨minutes, cs⟩, -, h⟩ := Option.bind_eq_some_iff.mp h
  dsimp only at h
  split at h
  · cases h
  · cases h
    split <;> omega

/-- Offsets are whole minutes. -/
theorem offset_mod {cs rest : List Char} {n : Int} (h : offset cs = some (n, rest)) :
    n % 60 = 0 := by
  unfold offset at h
  split at h
  · cases h; rfl
  · cases h; rfl
  · exact offsetAfterSign_mod h
  · exact offsetAfterSign_mod h
  · exact offsetAfterSign_mod h
  · split at h
    · cases h; rfl
    · cases h
  · cases h

theorem secondsOf?_mod {d : Date} {hour minute second : Nat} {n : Int}
    (h : secondsOf? d hour minute second = some n) : n % 60 = second % 60 := by
  unfold secondsOf? at h
  split at h
  · cases h
    omega
  · cases h

/-- **What is read from a text is proper.** -/
theorem isProper_of_ofText? {s : String} {t : Timestamp} (h : ofText? s = some t) :
    t.IsProper := by
  obtain ⟨⟨year, cs⟩, -, h⟩ := Option.bind_eq_some_iff.mp h
  obtain ⟨⟨_, cs⟩, -, h⟩ := Option.bind_eq_some_iff.mp h
  obtain ⟨⟨month, cs⟩, -, h⟩ := Option.bind_eq_some_iff.mp h
  obtain ⟨⟨_, cs⟩, -, h⟩ := Option.bind_eq_some_iff.mp h
  obtain ⟨⟨day, cs⟩, -, h⟩ := Option.bind_eq_some_iff.mp h
  dsimp only at h
  split at h
  next c cs =>
    split at h
    next =>
      obtain ⟨cs, -, h⟩ := Option.bind_eq_some_iff.mp h
      obtain ⟨⟨hour, cs⟩, -, h⟩ := Option.bind_eq_some_iff.mp h
      obtain ⟨⟨_, cs⟩, -, h⟩ := Option.bind_eq_some_iff.mp h
      obtain ⟨⟨minute, cs⟩, -, h⟩ := Option.bind_eq_some_iff.mp h
      obtain ⟨⟨_, cs⟩, -, h⟩ := Option.bind_eq_some_iff.mp h
      obtain ⟨⟨second, cs⟩, -, h⟩ := Option.bind_eq_some_iff.mp h
      obtain ⟨⟨nanos, cs⟩, hnanos, h⟩ := Option.bind_eq_some_iff.mp h
      obtain ⟨⟨shift, cs⟩, hshift, h⟩ := Option.bind_eq_some_iff.mp h
      dsimp only at h
      split at h
      next => cases h
      next =>
        obtain ⟨seconds, hseconds, h⟩ := Option.bind_eq_some_iff.mp h
        have hlt := fraction_lt hnanos
        have hmod := offset_mod hshift
        have hminute := secondsOf?_mod hseconds
        split at h
        next hyear =>
          cases h
          refine ⟨hyear, ?_, ?_⟩
          · dsimp only
            split <;> omega
          · dsimp only
            intro hleap
            split at hleap
            next h60 =>
              rw [if_pos h60] at hminute
              omega
            next => omega
        next => cases h
    next => cases h
  next => cases h

end WorkflowEngine.Timestamp
