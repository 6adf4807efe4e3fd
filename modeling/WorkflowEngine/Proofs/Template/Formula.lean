import WorkflowEngine.Proofs.Template.Texts

/-!
# The structure of expressions

Before an expression is taken apart its strict comparisons are spelled loosely and the blanks around
it are dropped. What is neither a blank nor part of a comparison stays where it is, so the parts of
a text between such characters can be prepared one by one.

## Main results

* `Text.replaceAll_append_cons`: a character that is not replaced divides a replacement
* `Text.exists_eq_append_trimmed`, `Text.trimmed_append_blanks`: what trimming drops
* `Template.loosen_append_cons`, `Template.loosen_append_append`: characters that are not compared
  with divide a text
* `Template.prepare_trimmed`: the blanks around an expression do not matter
* `Formula.ofChars_of_operand`: what is an operand
-/

namespace WorkflowEngine

namespace Text

variable {pat new l r cs : List Char} {c : Char}

/-! ### Replacements -/

theorem dropLeading_append_cons (h : c ∉ pat) :
    dropLeading pat (l ++ c :: r) = (dropLeading pat l).map (· ++ c :: r) := by
  induction pat generalizing l with
  | nil => rfl
  | cons p ps ih =>
    obtain ⟨hp, hps⟩ := List.ne_and_not_mem_of_not_mem_cons h
    cases l with
    | nil => exact if_neg hp.symm
    | cons x l =>
      rw [List.cons_append, dropLeading, dropLeading]
      split
      · exact ih hps
      · rfl

theorem replaceAll_of_none (h : breakAt pat cs = none) : replaceAll pat new cs = cs := by
  rw [replaceAll]
  split
  · rfl
  · split
    · rfl
    next hb => cases h.symm.trans hb

theorem replaceAll_of_some {before rest : List Char} (hpat : pat ≠ [])
    (h : breakAt pat cs = some (before, rest)) :
    replaceAll pat new cs = before ++ new ++ replaceAll pat new rest := by
  rw [replaceAll, if_neg (by simpa using hpat)]
  split
  next hb => cases h.symm.trans hb
  next hb =>
    cases h.symm.trans hb
    rfl

/-- A replacement takes one character after the other. -/
theorem replaceAll_cons (hpat : pat ≠ []) (c : Char) (cs : List Char) :
    replaceAll pat new (c :: cs) =
      (dropLeading pat (c :: cs)).elim (c :: replaceAll pat new cs) fun rest =>
        new ++ replaceAll pat new rest := by
  cases hd : dropLeading pat (c :: cs) with
  | some rest =>
    have hb : breakAt pat (c :: cs) = some ([], rest) := by rw [breakAt, hd]
    exact replaceAll_of_some hpat hb
  | none =>
    cases hcs : breakAt pat cs with
    | none =>
      have hb : breakAt pat (c :: cs) = none := by rw [breakAt, hd, hcs]; rfl
      rw [replaceAll_of_none hb, replaceAll_of_none hcs]
      rfl
    | some x =>
      obtain ⟨before, rest⟩ := x
      have hb : breakAt pat (c :: cs) = some (c :: before, rest) := by rw [breakAt, hd, hcs]; rfl
      rw [replaceAll_of_some hpat hb, replaceAll_of_some hpat hcs]
      rfl

@[simp] theorem replaceAll_nil (pat new : List Char) (hpat : pat ≠ []) :
    replaceAll pat new [] = [] := by
  obtain ⟨p, ps, rfl⟩ := List.exists_cons_of_ne_nil hpat
  exact replaceAll_of_none rfl

theorem dropLeading_cons_of_not_mem (hpat : pat ≠ []) (h : c ∉ pat) (r : List Char) :
    dropLeading pat (c :: r) = none := by
  obtain ⟨p, ps, rfl⟩ := List.exists_cons_of_ne_nil hpat
  exact if_neg (List.ne_of_not_mem_cons h).symm

/-- A character that is not replaced divides a replacement. -/
theorem replaceAll_append_cons (hpat : pat ≠ []) (h : c ∉ pat) (l r : List Char) :
    replaceAll pat new (l ++ c :: r) = replaceAll pat new l ++ c :: replaceAll pat new r := by
  -- Induction on what stands before the character.
  induction hn : l.length using Nat.strong_induction_on generalizing l with
  | _ n ih =>
    cases l with
    | nil =>
      rw [List.nil_append, replaceAll_cons hpat, dropLeading_cons_of_not_mem hpat h,
        replaceAll_nil _ _ hpat]
      rfl
    | cons x l =>
      have hlength : l.length < n := by rw [← hn]; exact Nat.lt_succ_self _
      rw [List.cons_append, replaceAll_cons hpat, replaceAll_cons hpat, ← List.cons_append,
        dropLeading_append_cons h]
      cases hd : dropLeading pat (x :: l) with
      | none => exact congrArg (x :: ·) (ih _ hlength l rfl)
      | some rest =>
        have hrest := length_dropLeading hd
        have hpos := List.length_pos_of_ne_nil hpat
        have hlt : rest.length < n := by rw [← hn]; omega
        simp only [Option.map_some, Option.elim_some, ih _ hlt rest rfl, List.append_assoc]

/-- What is replaced adds no characters but its own. -/
theorem mem_of_mem_replaceAll {pat new : List Char} (hpat : pat ≠ [])
    (hc : c ∈ replaceAll pat new cs) (hnew : c ∉ new) : c ∈ cs := by
  induction hn : cs.length using Nat.strong_induction_on generalizing cs with
  | _ n ih =>
    cases cs with
    | nil => rwa [replaceAll_nil _ _ hpat] at hc
    | cons x cs =>
      rw [replaceAll_cons hpat] at hc
      cases hd : dropLeading pat (x :: cs) with
      | some more =>
        rw [hd] at hc
        have hlength := length_dropLeading hd
        have hpos := List.length_pos_of_ne_nil hpat
        have hmore := ih more.length (by rw [← hn]; omega)
          ((List.mem_append.mp hc).resolve_left hnew) rfl
        rw [dropLeading_eq_some_iff.mp hd]
        exact List.mem_append_right _ hmore
      | none =>
        rw [hd] at hc
        rcases List.mem_cons.mp hc with rfl | hc
        · exact List.mem_cons_self
        · have hlt : cs.length < n := by rw [← hn]; exact Nat.lt_succ_self _
          exact List.mem_cons_of_mem _ (ih cs.length hlt hc rfl)

/-! ### Blanks -/

theorem trimmed_cons_of_isBlank (h : isBlank c = true) (cs : List Char) :
    trimmed (c :: cs) = trimmed cs := by
  rw [trimmed, trimmed, trimStart, List.dropWhile_cons_of_pos h]
  rfl

theorem trimmed_append_of_isBlank (h : isBlank c = true) (cs : List Char) :
    trimmed (cs ++ [c]) = trimmed cs := by
  have hend (x : List Char) : trimEnd (x ++ [c]) = trimEnd x :=
    List.rdropWhile_concat_pos isBlank x c h
  rw [trimmed, trimmed, trimStart, trimStart, List.dropWhile_append]
  split
  next hcs => rw [List.isEmpty_iff.mp hcs, List.dropWhile_cons_of_pos h]; rfl
  next => rw [hend]

/-- Blanks on both sides are dropped. -/
theorem trimmed_append_blanks (hl : ∀ c ∈ l, isBlank c = true) (hr : ∀ c ∈ r, isBlank c = true)
    (cs : List Char) : trimmed (l ++ cs ++ r) = trimmed cs := by
  have hleft : trimmed (l ++ cs) = trimmed cs := by
    induction l with
    | nil => rfl
    | cons c l ih =>
      rw [List.cons_append, trimmed_cons_of_isBlank (hl c (List.mem_cons_self ..)),
        ih fun c hc => hl c (List.mem_cons_of_mem _ hc)]
  induction r using List.reverseRecOn with
  | nil => rw [List.append_nil, hleft]
  | append_singleton r c ih =>
    rw [← List.append_assoc, trimmed_append_of_isBlank (hr c (by simp)),
      ih fun c hc => hr c (List.mem_append_left _ hc)]

/-- **What trimming drops** are blanks on both sides. -/
theorem exists_eq_append_trimmed (cs : List Char) :
    ∃ l r, (∀ c ∈ l, isBlank c = true) ∧ (∀ c ∈ r, isBlank c = true) ∧
      cs = l ++ trimmed cs ++ r := by
  have hend : trimmed cs ++ (trimStart cs).rtakeWhile isBlank = trimStart cs :=
    List.rdropWhile_append_rtakeWhile
  refine ⟨cs.takeWhile isBlank, (trimStart cs).rtakeWhile isBlank, fun c => List.mem_takeWhile_imp,
    fun c => List.mem_rtakeWhile_imp, ?_⟩
  rw [List.append_assoc, hend]
  exact List.takeWhile_append_dropWhile.symm

end Text

namespace Template

open Text

/-- A character that is not compared with divides a text. -/
theorem loosen_append_cons {c : Char} (hb : c ≠ '!') (he : c ≠ '=') (l r : List Char) :
    loosen (l ++ c :: r) = loosen l ++ c :: loosen r := by
  rw [loosen, replaceAll_append_cons (by simp) (by simp [hb, he]),
    replaceAll_append_cons (by simp) (by simp [he])]
  rfl

@[simp] theorem loosen_nil : loosen [] = [] := by simp [loosen]

/-- Characters that are not compared with divide a text. -/
theorem loosen_append_append {m : List Char} (hne : m ≠ []) (hm : ∀ c ∈ m, c ≠ '!' ∧ c ≠ '=')
    (l r : List Char) : loosen (l ++ m ++ r) = loosen l ++ m ++ loosen r := by
  induction m generalizing l with
  | nil => exact absurd rfl hne
  | cons c m ih =>
    obtain ⟨hb, he⟩ := hm c List.mem_cons_self
    rw [List.append_assoc, List.cons_append, loosen_append_cons hb he]
    cases m with
    | nil => simp
    | cons d m =>
      have hrest := ih (List.cons_ne_nil _ _) (fun c hc => hm c (List.mem_cons_of_mem _ hc)) []
      rw [List.nil_append, loosen_nil, List.nil_append] at hrest
      rw [hrest]
      simp

/-- Blanks are not compared with. -/
theorem ne_of_isBlank {c : Char} (h : isBlank c = true) : c ≠ '!' ∧ c ≠ '=' := by
  constructor <;> (rintro rfl; revert h; decide)

/-- Spelling comparisons loosely adds no characters but those of comparisons. -/
theorem mem_of_mem_loosen_or (hc : c ∈ loosen cs) : c ∈ cs ∨ c = '!' ∨ c = '=' := by
  by_cases hmark : c = '!' ∨ c = '='
  · exact .inr hmark
  · rw [not_or] at hmark
    exact .inl (mem_of_mem_replaceAll (by simp)
      (mem_of_mem_replaceAll (by simp) hc (by simp [hmark])) (by simp [hmark]))

/-- The blanks of a text are no others where comparisons are spelled loosely. -/
theorem mem_of_mem_loosen (hc : c ∈ loosen cs) (hblank : isBlank c = true) : c ∈ cs := by
  obtain ⟨hb, he⟩ := ne_of_isBlank hblank
  exact (mem_of_mem_loosen_or hc).resolve_right (not_or.mpr ⟨hb, he⟩)

/-- Blanks stay where they are. -/
theorem loosen_append_blanks {l r : List Char} (hl : ∀ c ∈ l, isBlank c = true)
    (hr : ∀ c ∈ r, isBlank c = true) (cs : List Char) :
    loosen (l ++ cs ++ r) = l ++ loosen cs ++ r := by
  have hright (cs : List Char) : loosen (cs ++ r) = loosen cs ++ r := by
    induction r generalizing cs with
    | nil => rw [List.append_nil, List.append_nil]
    | cons c r ih =>
      obtain ⟨hb, he⟩ := ne_of_isBlank (hr c (List.mem_cons_self ..))
      have hr' := ih fun c hc => hr c (List.mem_cons_of_mem _ hc)
      rw [loosen_append_cons hb he, ← List.nil_append r, hr', loosen_nil]
  induction l with
  | nil => exact hright cs
  | cons c l ih =>
    obtain ⟨hb, he⟩ := ne_of_isBlank (hl c (List.mem_cons_self ..))
    have hl' := ih fun c hc => hl c (List.mem_cons_of_mem _ hc)
    have hc := loosen_append_cons hb he [] (l ++ cs ++ r)
    rw [hl', loosen_nil] at hc
    exact hc

/-- **The blanks around an expression do not matter.** -/
@[simp] theorem prepare_trimmed (cs : List Char) : prepare (trimmed cs) = prepare cs := by
  obtain ⟨l, r, hl, hr, hcs⟩ := exists_eq_append_trimmed cs
  conv_rhs => rw [hcs, prepare, loosen_append_blanks hl hr, trimmed_append_blanks hl hr]
  rfl

/-! ### Formulas -/

/-- **The structure of an expression** is that of what it is prepared to. -/
theorem Formula.ofChars_eq (cs : List Char) :
    Formula.ofChars cs =
      if (prepare cs).isEmpty then .nothing
      else
        match splitChoice (annotate (prepare cs)) with
        | some (condition, whenTrue, whenFalse) =>
          .choice (.ofChars condition) (.ofChars whenTrue) (.ofChars whenFalse)
        | none =>
          if 1 < (splitAlternatives (annotate (prepare cs))).length then
            .firstTrue ((splitAlternatives (annotate (prepare cs))).map .ofChars)
          else .operand (String.ofList (prepare cs)) := by
  rw [Formula.ofChars]
  split
  · rfl
  · split
    next h => rw [h]
    next h =>
      rw [h]
      simp only [List.map_attach_eq_pmap, List.pmap_eq_map, dite_eq_ite]

/-- The structure of an expression depends on what it is prepared to. -/
theorem Formula.ofChars_congr {cs' : List Char} (h : prepare cs = prepare cs') :
    Formula.ofChars cs = Formula.ofChars cs' := by
  rw [Formula.ofChars_eq, Formula.ofChars_eq, h]

/-- The blanks around an expression are no part of its structure. -/
theorem Formula.ofChars_trimmed (cs : List Char) :
    Formula.ofChars (trimmed cs) = Formula.ofChars cs :=
  Formula.ofChars_congr (prepare_trimmed cs)

/-- **What is an operand**: a text that is neither a choice nor a chain. -/
theorem Formula.ofChars_of_operand {cs p : List Char} (hcs : prepare cs = p) (hp : p ≠ [])
    (hchoice : splitChoice (annotate p) = none)
    (hchain : (splitAlternatives (annotate p)).length = 1) :
    Formula.ofChars cs = .operand (String.ofList p) := by
  rw [Formula.ofChars_eq, hcs, if_neg (by simpa using hp), hchoice, hchain]
  rfl

/-- What an operand is to the engine. -/
theorem Formula.eq_of_ofChars_eq_operand {text : String} (h : Formula.ofChars cs = .operand text) :
    text = String.ofList (prepare cs) := by
  rw [Formula.ofChars_eq] at h
  split at h
  · cases h
  · split at h
    · cases h
    · split at h
      · cases h
      · exact (Formula.operand.inj h).symm

/-- What is a choice. -/
theorem Formula.ofChars_of_choice {p condition whenTrue whenFalse : List Char}
    (hcs : prepare cs = p) (hp : p ≠ [])
    (hchoice : splitChoice (annotate p) = some (condition, whenTrue, whenFalse)) :
    Formula.ofChars cs = .choice (.ofChars condition) (.ofChars whenTrue) (.ofChars whenFalse) := by
  rw [Formula.ofChars_eq, hcs, if_neg (by simpa using hp), hchoice]

theorem Formula.eval_operand (engine : Expr.Engine) (context : Json) (text : String) :
    (Formula.operand text).eval engine context =
      (engine text context).mapError (.operand text) := by
  rw [Formula.eval]
  cases engine text context <;> rfl

end Template

end WorkflowEngine
