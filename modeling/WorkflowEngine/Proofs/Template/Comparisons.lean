import Mathlib.Data.List.Infix
import WorkflowEngine.Proofs.Template.Formula

/-!
# Strict comparisons

The strict comparisons of an expression are spelled loosely by replacing text, wherever they stand.
A text without strict comparisons stays as it is, and any other one gets shorter. Where no strict
comparison is next to another sign of equality, none is left or comes about, so that spelling them
loosely once more changes nothing.

## Main definitions

* `IsStrict op`: a strict comparison
* `loosenAt x cs`: the text with the strict comparison that begins with `x` spelled loosely
* `runLength`, `HasRun`: signs of equality that follow one another, and what stands before them
* `IsIsolated cs`: no strict comparison of a text is next to another sign of equality

## Main results

* `loosenAt_induction`: a replacement goes from left to right
* `loosen_eq_self_iff`: a text stays as it is if it has no strict comparisons
* `isIsolated_iff`: how isolated comparisons are told
* `loosen_loosen`: what becomes of isolated comparisons
-/

namespace WorkflowEngine.Template

open Text

variable {cs : List Char} {c x y : Char} {k : Nat}

/-- The strict comparison that begins with a character. -/
def strict (x : Char) : List Char := [x, '=', '=']

/-- The loose comparison that begins with a character. -/
def loose (x : Char) : List Char := [x, '=']

/-- **A strict comparison**: `===` or `!==`. -/
def IsStrict (op : List Char) : Prop := op = strict '=' ∨ op = strict '!'

theorem strict_ne_nil (x : Char) : strict x ≠ [] := List.cons_ne_nil _ _

/-! ### One replacement -/

/-- The text with the strict comparison that begins with a character spelled loosely. -/
def loosenAt (x : Char) (cs : List Char) : List Char := replaceAll (strict x) (loose x) cs

theorem loosen_eq (cs : List Char) : loosen cs = loosenAt '=' (loosenAt '!' cs) := rfl

@[simp] theorem loosenAt_nil (x : Char) : loosenAt x [] = [] :=
  replaceAll_nil _ _ (strict_ne_nil x)

theorem loosenAt_strict (x : Char) (cs : List Char) :
    loosenAt x (x :: '=' :: '=' :: cs) = x :: '=' :: loosenAt x cs := by
  have hd : dropLeading (strict x) (x :: '=' :: '=' :: cs) = some cs :=
    dropLeading_eq_some_iff.mpr rfl
  rw [loosenAt, replaceAll_cons (strict_ne_nil x), hd]
  rfl

theorem loosenAt_cons (h : ¬strict x <+: c :: cs) : loosenAt x (c :: cs) = c :: loosenAt x cs := by
  have hd : dropLeading (strict x) (c :: cs) = none := by
    refine Option.eq_none_iff_forall_ne_some.mpr fun rest hrest => h ⟨rest, ?_⟩
    exact (dropLeading_eq_some_iff.mp hrest).symm
  rw [loosenAt, replaceAll_cons (strict_ne_nil x), hd]
  rfl

/-- **A replacement goes from left to right**, over the comparisons and the other characters. -/
@[elab_as_elim]
theorem loosenAt_induction {motive : List Char → Prop} (x : Char) (nil : motive [])
    (comparison : ∀ cs, motive cs → motive (x :: '=' :: '=' :: cs))
    (other : ∀ c cs, ¬strict x <+: c :: cs → motive cs → motive (c :: cs)) (cs : List Char) :
    motive cs := by
  induction hn : cs.length using Nat.strong_induction_on generalizing cs with
  | _ n ih =>
    rcases cs with _ | ⟨c, cs⟩
    · exact nil
    · by_cases h : strict x <+: c :: cs
      · obtain ⟨rest, hrest⟩ := h
        have hlength : rest.length < n := by
          rw [← hn, ← hrest, List.length_append]
          exact Nat.lt_add_of_pos_left (Nat.succ_pos 2)
        rw [← hrest]
        exact comparison rest (ih rest.length hlength rest rfl)
      · exact other c cs h (ih cs.length (by rw [← hn]; exact Nat.lt_succ_self _) cs rfl)

/-- Without strict comparisons nothing changes. -/
theorem loosenAt_eq_self (h : ¬strict x <:+: cs) : loosenAt x cs = cs := by
  induction cs using loosenAt_induction x with
  | nil => exact loosenAt_nil x
  | comparison cs _ => exact absurd (List.prefix_append (strict x) cs).isInfix h
  | other c cs hne ih => rw [loosenAt_cons hne, ih fun hin => h (List.infix_cons hin)]

theorem length_loosenAt_le (x : Char) (cs : List Char) : (loosenAt x cs).length ≤ cs.length :=
  length_replaceAll_le (by simp [strict, loose]) cs

/-- A text with strict comparisons gets shorter. -/
theorem length_loosenAt_lt (h : strict x <:+: cs) : (loosenAt x cs).length < cs.length := by
  induction cs using loosenAt_induction x with
  | nil => cases List.eq_nil_of_infix_nil h
  | comparison cs _ =>
    have := length_loosenAt_le x cs
    simp only [loosenAt_strict, List.length_cons]
    omega
  | other c cs hne ih =>
    rw [loosenAt_cons hne]
    exact Nat.succ_lt_succ (ih ((List.infix_cons_iff.mp h).resolve_left hne))

/-- **A text stays as it is** exactly if it has no strict comparisons. -/
theorem loosen_eq_self_iff : loosen cs = cs ↔ ¬∃ op, IsStrict op ∧ op <:+: cs := by
  rw [loosen_eq]
  constructor
  · rintro heq ⟨op, hop, hin⟩
    have hnot : ¬strict '!' <:+: cs := by
      intro hin
      have hlt := length_loosenAt_lt hin
      have hle := length_loosenAt_le '=' (loosenAt '!' cs)
      rw [heq] at hle
      omega
    rw [loosenAt_eq_self hnot] at heq
    rcases hop with rfl | rfl
    · have hlt := length_loosenAt_lt hin
      rw [heq] at hlt
      exact Nat.lt_irrefl _ hlt
    · exact hnot hin
  · intro h
    rw [loosenAt_eq_self (x := '!') fun hin => h ⟨_, .inr rfl, hin⟩,
      loosenAt_eq_self fun hin => h ⟨_, .inl rfl, hin⟩]

/-! ### Runs of signs of equality -/

/-- The number of signs of equality that a text begins with. -/
def runLength : List Char → Nat
  | [] => 0
  | c :: cs => if c = '=' then runLength cs + 1 else 0

/-- **So many signs of equality follow a character**, somewhere in a text. -/
def HasRun (x : Char) (k : Nat) : List Char → Prop
  | [] => False
  | c :: cs => c = x ∧ k ≤ runLength cs ∨ HasRun x k cs

theorem replicate_prefix_iff : List.replicate k '=' <+: cs ↔ k ≤ runLength cs := by
  induction cs generalizing k with
  | nil => simp [runLength]
  | cons c cs ih =>
    cases k with
    | zero => simp
    | succ k =>
      rw [List.replicate_succ, List.cons_prefix_cons, ih, runLength]
      split
      next h => simp [h]
      next h => simp [Ne.symm h]

theorem hasRun_iff : HasRun x k cs ↔ x :: List.replicate k '=' <:+: cs := by
  induction cs with
  | nil => simp [HasRun]
  | cons c cs ih =>
    rw [HasRun, List.infix_cons_iff, List.cons_prefix_cons, replicate_prefix_iff, ih, eq_comm]

theorem strict_prefix_iff : strict x <+: c :: cs ↔ c = x ∧ 2 ≤ runLength cs := by
  rw [← replicate_prefix_iff, eq_comm]
  exact List.cons_prefix_cons

theorem strict_infix_iff : strict x <:+: cs ↔ HasRun x 2 cs :=
  (hasRun_iff (k := 2)).symm

/-- No run gets longer. -/
theorem runLength_loosenAt_le (x : Char) (cs : List Char) :
    runLength (loosenAt x cs) ≤ runLength cs := by
  induction cs using loosenAt_induction x with
  | nil => rw [loosenAt_nil]
  | comparison cs ih =>
    rw [loosenAt_strict]
    simp only [runLength]
    split
    · simp only [if_true]
      omega
    · exact Nat.zero_le _
  | other c cs hne ih =>
    rw [loosenAt_cons hne]
    simp only [runLength]
    split <;> omega

/-- No run comes about. -/
theorem hasRun_of_loosenAt (h : HasRun y k (loosenAt x cs)) : HasRun y k cs := by
  induction cs using loosenAt_induction x with
  | nil => rwa [loosenAt_nil] at h
  | comparison cs ih =>
    have hle := runLength_loosenAt_le x cs
    simp only [loosenAt_strict, HasRun, runLength, if_true] at h ⊢
    rcases h with ⟨hx, hk⟩ | ⟨hy, hk⟩ | h
    · exact .inl ⟨hx, by omega⟩
    · exact .inr (.inl ⟨hy, by omega⟩)
    · exact .inr (.inr (.inr (ih h)))
  | other c cs hne ih =>
    have hle := runLength_loosenAt_le x cs
    rw [loosenAt_cons hne] at h
    exact h.imp (fun ⟨hc, hk⟩ => ⟨hc, hk.trans hle⟩) ih

/-- **No strict comparison is left** if none is followed by another sign of equality. -/
theorem not_hasRun_loosenAt (h : ¬HasRun x 3 cs) : ¬HasRun x 2 (loosenAt x cs) := by
  induction cs using loosenAt_induction x with
  | nil => simp [HasRun]
  | comparison cs ih =>
    have hle := runLength_loosenAt_le x cs
    simp only [loosenAt_strict, HasRun, runLength, if_true, not_or] at h ⊢
    obtain ⟨hfirst, -, -, hrest⟩ := h
    exact ⟨fun ⟨_, hk⟩ => hfirst ⟨trivial, by omega⟩, fun ⟨_, hk⟩ => hfirst ⟨trivial, by omega⟩,
      ih hrest⟩
  | other c cs hne ih =>
    have hle := runLength_loosenAt_le x cs
    rw [loosenAt_cons hne]
    simp only [HasRun, not_or] at h ⊢
    exact ⟨fun ⟨hc, hk⟩ => hne (strict_prefix_iff.mpr ⟨hc, hk.trans hle⟩), ih h.2⟩

/-! ### Isolated comparisons -/

/-- **No strict comparison of a text is next to another sign of equality.** -/
def IsIsolated (cs : List Char) : Prop :=
  ∀ l op r, IsStrict op → cs = l ++ op ++ r → l.getLast? ≠ some '=' ∧ r.head? ≠ some '='

/-- **How isolated comparisons are told**: by three texts that do not occur. -/
theorem isIsolated_iff : IsIsolated cs ↔
    ¬['=', '=', '=', '='] <:+: cs ∧ ¬['!', '=', '=', '='] <:+: cs ∧
      ¬['=', '!', '=', '='] <:+: cs := by
  constructor
  · intro h
    refine ⟨?_, ?_, ?_⟩
    · rintro ⟨l, r, rfl⟩
      exact (h l (strict '=') ('=' :: r) (.inl rfl) (by simp [strict])).2 rfl
    · rintro ⟨l, r, rfl⟩
      exact (h l (strict '!') ('=' :: r) (.inr rfl) (by simp [strict])).2 rfl
    · rintro ⟨l, r, rfl⟩
      exact (h (l ++ ['=']) (strict '!') r (.inr rfl) (by simp [strict])).1 (by simp)
  · rintro ⟨hequal, hnot, hbefore⟩ l op r hop rfl
    constructor
    · intro hl
      obtain ⟨l, rfl⟩ := List.getLast?_eq_some_iff.mp hl
      rcases hop with rfl | rfl
      · exact hequal ⟨l, r, by simp [strict]⟩
      · exact hbefore ⟨l, r, by simp [strict]⟩
    · intro hr
      obtain ⟨r, rfl⟩ := List.head?_eq_some_iff.mp hr
      rcases hop with rfl | rfl
      · exact hequal ⟨l, r, by simp [strict]⟩
      · exact hnot ⟨l, r, by simp [strict]⟩

instance (cs : List Char) : Decidable (IsIsolated cs) := decidable_of_iff _ isIsolated_iff.symm

/-- **Isolated comparisons are spelled loosely at once**: doing it again changes nothing. -/
theorem loosen_loosen (h : IsIsolated cs) : loosen (loosen cs) = loosen cs := by
  obtain ⟨hequal, hnot, -⟩ := isIsolated_iff.mp h
  have hequal : ¬HasRun '=' 3 cs := fun hrun => hequal (hasRun_iff.mp hrun)
  have hnot : ¬HasRun '!' 3 cs := fun hrun => hnot (hasRun_iff.mp hrun)
  refine loosen_eq_self_iff.mpr ?_
  rintro ⟨op, rfl | rfl, hin⟩
  · have hrun := strict_infix_iff.mp hin
    exact not_hasRun_loosenAt (fun hrun => hequal (hasRun_of_loosenAt hrun)) hrun
  · exact not_hasRun_loosenAt hnot (hasRun_of_loosenAt (strict_infix_iff.mp hin))

end WorkflowEngine.Template
