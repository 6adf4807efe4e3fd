import WorkflowEngine.Proofs.Template.Brackets
import WorkflowEngine.Proofs.Template.Comparisons

/-!
# What stands outside quotes and brackets

A text is scanned from left to right, and what a character counts for depends on the quotes and
brackets that are open before it. After a balanced text none is open, so what follows it is scanned
as by itself. Blanks at the ends of a text and the way its comparisons are spelled have no effect on
how it is taken apart.

## Main definitions

* `advance`, `stateAfter`: the quotes and brackets that are open after a character, after a text
* `marks cs`: the question marks and colons of a text outside quotes and brackets
* `nests waiting ms`: every question mark has a colon of its own

## Main results

* `annotate_append`: what follows a balanced text is scanned as by itself
* `marks_loosen`: spelling comparisons loosely leaves question marks and colons where they are
* `splitChoice_append`: where a choice is taken apart
* `alternativesFrom_append_bars`: where a chain is taken apart
* `splitChoice_blanks`, `map_trimmed_splitAlternatives_blanks`: blanks at the ends have no effect
-/

namespace WorkflowEngine.Template

open Text

variable {q : Quoting} {depth n : Nat} {cs l r : List Char} {ps rs rest : List Placed}

/-! ### Scanning -/

/-- **The quotes and brackets that are open after a character.** -/
def advance : Quoting × Int → Char → Quoting × Int
  | (.escaped q, depth), _ => (.inside q, depth)
  | (.inside q, depth), c =>
    (if c = '\\' then .escaped q else if c = q then .outside else .inside q, depth)
  | (.outside, depth), c =>
    if c = '\'' || c = '"' then (.inside c, depth)
    else if c = '(' || c = '[' || c = '{' then (.outside, depth + 1)
    else if c = ')' || c = ']' || c = '}' then (.outside, depth - 1)
    else (.outside, depth)

/-- The quotes and brackets that are open after a text. -/
def stateAfter (s : Quoting × Int) (cs : List Char) : Quoting × Int := cs.foldl advance s

/-- A character is scanned, and then the rest. -/
theorem exists_annotateFrom_cons (s : Quoting × Int) (c : Char) : ∃ b, ∀ cs,
    annotateFrom s.1 s.2 (c :: cs) =
      (c, b) :: annotateFrom (advance s c).1 (advance s c).2 cs := by
  obtain ⟨q | q | q, depth⟩ := s
  · simp only [annotateFrom, advance]
    split
    · exact ⟨_, fun _ => rfl⟩
    · split
      · exact ⟨_, fun _ => rfl⟩
      · split <;> exact ⟨_, fun _ => rfl⟩
  · exact ⟨_, fun _ => rfl⟩
  · exact ⟨_, fun _ => rfl⟩

/-- **What follows a text** is scanned in the state after it. -/
theorem annotateFrom_append (s : Quoting × Int) (l r : List Char) :
    annotateFrom s.1 s.2 (l ++ r) =
      annotateFrom s.1 s.2 l ++ annotateFrom (stateAfter s l).1 (stateAfter s l).2 r := by
  induction l generalizing s with
  | nil =>
    rw [annotateFrom]
    rfl
  | cons c l ih =>
    obtain ⟨b, hb⟩ := exists_annotateFrom_cons s c
    rw [List.cons_append, hb, hb, ih]
    rfl

/-- After a balanced text no quote and no bracket is open. -/
theorem stateAfter_of_balanced (h : isBalancedFrom q depth cs = true) :
    stateAfter (q, depth) cs = (.outside, 0) := by
  induction cs generalizing q depth with
  | nil =>
    cases q with
    | outside =>
      obtain rfl : depth = 0 := by simpa [isBalancedFrom] using h
      rfl
    | inside | escaped => cases h
  | cons c cs ih =>
    rw [stateAfter, List.foldl_cons, ← stateAfter]
    cases q with
    | escaped q => exact ih h
    | inside q => exact ih h
    | outside =>
      rw [isBalancedFrom] at h
      rw [advance]
      split
      next hc => exact ih (by rwa [if_pos hc] at h)
      next hc =>
        rw [if_neg hc] at h
        split
        next ho => exact ih (by rwa [if_pos ho] at h)
        next ho =>
          rw [if_neg ho] at h
          split
          next hclose =>
            rw [if_pos hclose, Bool.and_eq_true, bne_iff_ne] at h
            have hdepth : (depth : Int) - 1 = ((depth - 1 : Nat) : Int) := by omega
            rw [hdepth, ih h.2]
          next hclose => exact ih (by rwa [if_neg hclose] at h)

/-- **What follows a balanced text** is scanned as by itself. -/
theorem annotate_append (h : isBalancedFrom .outside 0 l = true) (r : List Char) :
    annotate (l ++ r) = annotate l ++ annotate r := by
  have happend := annotateFrom_append (.outside, 0) l r
  have hstate : stateAfter (.outside, 0) l = (.outside, 0) := stateAfter_of_balanced h
  rwa [hstate] at happend

theorem isInert_of_isBlank {c : Char} (h : isBlank c = true) : IsInert c := by
  simp only [IsInert, List.mem_cons, List.not_mem_nil, or_false, not_or]
  refine ⟨?_, ?_, ?_, ?_, ?_, ?_, ?_, ?_, ?_, ?_⟩ <;> (rintro rfl; exact absurd h (by decide))

/-- Blanks around a text are scanned beside it. -/
theorem exists_annotate_blanks (hl : ∀ c ∈ l, isBlank c = true) (hr : ∀ c ∈ r, isBlank c = true)
    (cs : List Char) : ∃ ps rs : List Placed, annotate (l ++ cs ++ r) = ps ++ annotate cs ++ rs ∧
      ps.map Prod.fst = l ∧ rs.map Prod.fst = r ∧
      (∀ p ∈ ps, isBlank p.1 = true) ∧ ∀ p ∈ rs, isBlank p.1 = true := by
  have hbefore := annotateFrom_append_inert (fun c hc => isInert_of_isBlank (hl c hc)) 0 (cs ++ r)
  have hafter := annotateFrom_append (.outside, 0) cs r
  rw [hafter, ← List.append_assoc, ← List.append_assoc] at hbefore
  have hfst (s : Quoting × Int) : (annotateFrom s.1 s.2 r).map Prod.fst = r :=
    map_fst_annotateFrom s.1 s.2 r
  refine ⟨_, _, hbefore, by simp [Function.comp_def], hfst _, ?_, fun p hp => hr p.1 ?_⟩
  · simpa using hl
  · rw [← hfst]
    exact List.mem_map_of_mem hp

/-! ### Question marks and colons -/

/-- A question mark or a colon that counts. -/
def isMark (p : Placed) : Bool := p = ('?', true) || p = (':', true)

/-- The question marks and colons that count. -/
def marksOf (ps : List Placed) : List Char := (ps.filter isMark).map Prod.fst

/-- **The question marks and colons of a text** outside quotes and brackets, in their order. -/
def marks (cs : List Char) : List Char := marksOf (annotate cs)

/-- **Every question mark has a colon of its own** that follows it, and every colon has such a
question mark, after a number of question marks that wait for their colons. -/
def nests : Nat → List Char → Bool
  | waiting, [] => waiting == 0
  | waiting, m :: ms =>
    if m = '?' then nests (waiting + 1) ms
    else if m = ':' then waiting != 0 && nests (waiting - 1) ms
    else nests waiting ms

theorem marksOf_append (ps rs : List Placed) : marksOf (ps ++ rs) = marksOf ps ++ marksOf rs := by
  rw [marksOf, List.filter_append, List.map_append]
  rfl

theorem marksOf_cons_of_isMark {p : Placed} (h : isMark p = true) (ps : List Placed) :
    marksOf (p :: ps) = p.1 :: marksOf ps := by
  rw [marksOf, List.filter_cons_of_pos h, List.map_cons]
  rfl

theorem marksOf_cons_of_not {p : Placed} (h : ¬isMark p = true) (ps : List Placed) :
    marksOf (p :: ps) = marksOf ps := by
  rw [marksOf, List.filter_cons_of_neg h]
  rfl

theorem marksOf_blanks (h : ∀ p ∈ rs, isBlank p.1 = true) : marksOf rs = [] := by
  have hnone : rs.filter isMark = [] := by
    refine List.filter_eq_nil_iff.mpr fun p hp hmark => ?_
    have hblank := h p hp
    simp only [isMark, Bool.or_eq_true, decide_eq_true_eq] at hmark
    rcases hmark with rfl | rfl <;> exact absurd hblank (by decide)
  rw [marksOf, hnone]
  rfl

/-- A second sign of equality has no effect after another character of a comparison. -/
theorem advance_equal {x : Char} (hx : x = '=' ∨ x = '!') (s : Quoting × Int) :
    advance (advance (advance s x) '=') '=' = advance (advance s x) '=' := by
  obtain ⟨q | q | q, depth⟩ := s
  · rcases hx with rfl | rfl <;> rfl
  · rcases hx with rfl | rfl <;> simp only [advance] <;> grind [advance]
  · simp only [advance]
    grind [advance]

/-- A replacement leaves question marks and colons where they are. -/
theorem marksOf_annotateFrom_loosenAt {x : Char} (hx : x = '=' ∨ x = '!') (cs : List Char)
    (s : Quoting × Int) :
    marksOf (annotateFrom s.1 s.2 (loosenAt x cs)) = marksOf (annotateFrom s.1 s.2 cs) := by
  have hstep {c : Char} (hc : c = '=' ∨ c = '!') (s : Quoting × Int) (cs : List Char) :
      marksOf (annotateFrom s.1 s.2 (c :: cs)) =
        marksOf (annotateFrom (advance s c).1 (advance s c).2 cs) := by
    obtain ⟨b, hb⟩ := exists_annotateFrom_cons s c
    rw [hb, marksOf_cons_of_not]
    -- what is compared with is no mark
    rcases hc with rfl | rfl <;> simp [isMark]
  induction cs using loosenAt_induction x generalizing s with
  | nil => rw [loosenAt_nil]
  | comparison cs ih =>
    rw [loosenAt_strict, hstep hx, hstep hx, hstep (.inl rfl), hstep (.inl rfl), hstep (.inl rfl),
      advance_equal hx, ih]
  | other c cs hne ih =>
    obtain ⟨b, hb⟩ := exists_annotateFrom_cons s c
    rw [loosenAt_cons hne, hb, hb, ← List.singleton_append, marksOf_append, ih, ← marksOf_append]
    rfl

/-- **Spelling comparisons loosely** leaves question marks and colons where they are. -/
theorem marks_loosen (cs : List Char) : marks (loosen cs) = marks cs :=
  (marksOf_annotateFrom_loosenAt (.inl rfl) _ (.outside, 0)).trans
    (marksOf_annotateFrom_loosenAt (.inr rfl) cs (.outside, 0))

/-! ### Choices -/

/-- Without a question mark before it, the rest is taken apart. -/
theorem breakAtQuestion_append (h : '?' ∉ marksOf ps) (rest : List Placed) :
    breakAtQuestion (ps ++ rest) =
      (breakAtQuestion rest).map fun (before, after) => (ps.map Prod.fst ++ before, after) := by
  induction ps with
  | nil => cases h : breakAtQuestion rest <;> simp [h]
  | cons p ps ih =>
    rw [← List.singleton_append, marksOf_append, List.mem_append, not_or] at h
    have hp : p ≠ ('?', true) := by
      rintro rfl
      exact h.1 List.mem_cons_self
    rw [List.cons_append, breakAtQuestion, if_neg hp, ih h.2]
    cases breakAtQuestion rest <;> rfl

theorem breakAtQuestion_append_right (h : '?' ∉ marksOf rs) (ps : List Placed) :
    breakAtQuestion (ps ++ rs) =
      (breakAtQuestion ps).map fun (before, after) => (before, after ++ rs) := by
  induction ps with
  | nil =>
    have hnone := breakAtQuestion_append h []
    rw [List.append_nil] at hnone
    rw [List.nil_append, hnone]
    rfl
  | cons p ps ih =>
    rw [List.cons_append, breakAtQuestion, breakAtQuestion, ih]
    split
    · rfl
    · cases breakAtQuestion ps <;> rfl

/-- **Where question marks and colons nest**, the next colon is one that matches. -/
theorem breakAtColon_append (h : nests n (marksOf ps) = true) (rest : List Placed) :
    breakAtColon n (ps ++ (':', true) :: rest) = some (ps.map Prod.fst, rest.map Prod.fst) := by
  induction ps generalizing n with
  | nil =>
    obtain rfl : n = 0 := by simpa [nests, marksOf] using h
    rfl
  | cons p ps ih =>
    rw [List.cons_append, breakAtColon]
    by_cases hquestion : p = ('?', true)
    · subst hquestion
      rw [marksOf_cons_of_isMark rfl, nests, if_pos rfl] at h
      simp [ih h]
    · by_cases hcolon : p = (':', true)
      · subst hcolon
        rw [marksOf_cons_of_isMark rfl, nests, if_neg (by decide), if_pos rfl, Bool.and_eq_true,
          bne_iff_ne] at h
        simp [h.1, ih h.2]
      · rw [marksOf_cons_of_not (by simp [isMark, hquestion, hcolon])] at h
        simp [hquestion, hcolon, ih h]

theorem breakAtColon_append_right (h : marksOf rs = []) (n : Nat) (ps : List Placed) :
    breakAtColon n (ps ++ rs) =
      (breakAtColon n ps).map fun (before, after) => (before, after ++ rs.map Prod.fst) := by
  induction ps generalizing n with
  | nil =>
    rw [List.nil_append]
    induction rs with
    | nil => rfl
    | cons p rs ih =>
      by_cases hmark : isMark p = true
      · cases (marksOf_cons_of_isMark hmark rs).symm.trans h
      · rw [marksOf_cons_of_not hmark] at h
        simp only [isMark, Bool.or_eq_true, decide_eq_true_eq, not_or] at hmark
        have ih := ih h
        simp_all [breakAtColon]
  | cons p ps ih =>
    rw [List.cons_append, breakAtColon, breakAtColon]
    split
    · simp
    · simp only [ih, Option.map_map]
      rfl

/-- **Where a choice is taken apart**: at the first question mark, and at the colon after what
nests. -/
theorem splitChoice_append (hps : '?' ∉ marksOf ps) (hrs : nests 0 (marksOf rs) = true)
    (rest : List Placed) :
    splitChoice (ps ++ ('?', true) :: (rs ++ (':', true) :: rest)) =
      some (ps.map Prod.fst, rs.map Prod.fst, rest.map Prod.fst) := by
  have hquestion : breakAtQuestion (('?', true) :: (rs ++ (':', true) :: rest)) =
      some ([], rs ++ (':', true) :: rest) := rfl
  rw [splitChoice, breakAtQuestion_append hps, hquestion]
  simp [breakAtColon_append hrs]

theorem splitChoice_of_no_question (h : '?' ∉ marksOf ps) : splitChoice ps = none := by
  have hnone := breakAtQuestion_append h []
  rw [List.append_nil] at hnone
  rw [splitChoice, hnone]
  rfl

/-- **Blanks at the ends** stay with the condition and the second alternative. -/
theorem splitChoice_blanks (hl : ∀ p ∈ ps, isBlank p.1 = true) (hr : ∀ p ∈ rs, isBlank p.1 = true)
    (inner : List Placed) :
    splitChoice (ps ++ inner ++ rs) = (splitChoice inner).map fun (c, t, f) =>
      (ps.map Prod.fst ++ c, t, f ++ rs.map Prod.fst) := by
  have hps : '?' ∉ marksOf ps := by simp [marksOf_blanks hl]
  have hrs : '?' ∉ marksOf rs := by simp [marksOf_blanks hr]
  rw [splitChoice, splitChoice, List.append_assoc, breakAtQuestion_append hps,
    breakAtQuestion_append_right hrs]
  cases breakAtQuestion inner with
  | none => rfl
  | some x =>
    simp only [Option.map_some, Option.bind_eq_bind, Option.bind_some,
      breakAtColon_append_right (marksOf_blanks hr)]
    cases breakAtColon 0 x.2 <;> rfl

/-! ### Chains -/

/-- What is no bar belongs to the alternative that has begun. -/
theorem alternativesFrom_cons {p : Placed} (hp : p ≠ ('|', true)) (seen : List Char)
    (ps : List Placed) : alternativesFrom seen (p :: ps) = alternativesFrom (p.1 :: seen) ps := by
  cases ps with
  | nil => rfl
  | cons p' ps => rw [alternativesFrom, if_neg (by simp [hp])]

/-- **Where a chain is taken apart**: at two bars after another character. -/
theorem alternativesFrom_append_bars {p : Placed} (hp : p ≠ ('|', true)) (seen : List Char)
    (ps rest : List Placed) :
    alternativesFrom seen (ps ++ p :: ('|', true) :: ('|', true) :: rest) =
      alternativesFrom seen (ps ++ [p]) ++ alternativesFrom [] rest := by
  fun_induction alternativesFrom seen ps with
  | case1 seen => simp [alternativesFrom_cons hp, alternativesFrom]
  | case2 seen p' => simp [alternativesFrom, hp]
  | case3 seen p' p'' ps hbars ih =>
    simp only [List.cons_append, alternativesFrom, hbars, if_true, ih]
  | case4 seen p' p'' ps hbars ih =>
    simp only [List.cons_append] at ih
    simp only [List.cons_append, alternativesFrom, hbars, ih]
    rfl

/-- A chain of one alternative is that alternative. -/
theorem eq_singleton_of_length_alternativesFrom {seen : List Char}
    (h : (alternativesFrom seen ps).length = 1) :
    alternativesFrom seen ps = [seen.reverse ++ ps.map Prod.fst] := by
  fun_induction alternativesFrom seen ps with
  | case1 => simp
  | case2 => simp
  | case3 seen p p' ps hbars =>
    have hpos := List.length_pos_of_ne_nil (alternativesFrom_ne_nil [] ps)
    rw [List.length_cons] at h
    omega
  | case4 seen p p' ps hbars ih =>
    rw [ih h]
    simp

theorem ne_bar_of_isBlank {p : Placed} (h : isBlank p.1 = true) : p ≠ ('|', true) := by
  rintro rfl
  exact absurd h (by decide)

/-- A blank before the first alternative is trimmed. -/
theorem map_trimmed_alternativesFrom_concat {c : Char} (hc : isBlank c = true) (seen : List Char)
    (ps : List Placed) :
    (alternativesFrom (seen ++ [c]) ps).map trimmed = (alternativesFrom seen ps).map trimmed := by
  have hfirst (cs : List Char) : trimmed ((cs ++ [c]).reverse) = trimmed cs.reverse := by
    rw [List.reverse_append]
    exact trimmed_cons_of_isBlank hc cs.reverse
  fun_induction alternativesFrom seen ps with
  | case1 seen => exact congrArg (fun t => [t]) (hfirst seen)
  | case2 seen p => exact congrArg (fun t => [t]) (hfirst (p.1 :: seen))
  | case3 seen p p' ps hbars =>
    rw [alternativesFrom, if_pos hbars, List.map_cons, List.map_cons, hfirst]
  | case4 seen p p' ps hbars ih =>
    rw [alternativesFrom, if_neg hbars]
    exact ih

/-- A blank after the last alternative is trimmed. -/
theorem map_trimmed_alternativesFrom_append {p : Placed} (hp : isBlank p.1 = true)
    (seen : List Char) (ps : List Placed) :
    (alternativesFrom seen (ps ++ [p])).map trimmed = (alternativesFrom seen ps).map trimmed := by
  have hlast (cs : List Char) : trimmed ((p.1 :: cs).reverse) = trimmed cs.reverse := by
    rw [List.reverse_cons]
    exact trimmed_append_of_isBlank hp cs.reverse
  fun_induction alternativesFrom seen ps with
  | case1 seen => exact congrArg (fun t => [t]) (hlast seen)
  | case2 seen p' =>
    have hbars : ¬(p' = ('|', true) && p = ('|', true)) = true := by simp [ne_bar_of_isBlank hp]
    rw [List.singleton_append, alternativesFrom, if_neg hbars, alternativesFrom]
    exact congrArg (fun t => [t]) (hlast (p'.1 :: seen))
  | case3 seen p' p'' ps hbars ih =>
    simp only [List.cons_append, alternativesFrom, hbars, if_true, List.map_cons, ih]
  | case4 seen p' p'' ps hbars ih =>
    simp only [List.cons_append] at ih
    simp only [List.cons_append, alternativesFrom, hbars]
    exact ih

/-- **Blanks at the ends** of a chain are trimmed with its alternatives. -/
theorem map_trimmed_splitAlternatives_blanks (hl : ∀ p ∈ ps, isBlank p.1 = true)
    (hr : ∀ p ∈ rs, isBlank p.1 = true) (inner : List Placed) :
    (splitAlternatives (ps ++ inner ++ rs)).map trimmed =
      (splitAlternatives inner).map trimmed := by
  have hright : (splitAlternatives (ps ++ inner ++ rs)).map trimmed =
      (splitAlternatives (ps ++ inner)).map trimmed := by
    induction rs using List.reverseRecOn with
    | nil => rw [List.append_nil]
    | append_singleton rs p ih =>
      rw [← ih fun p hp => hr p (List.mem_append_left _ hp), ← List.append_assoc]
      exact map_trimmed_alternativesFrom_append (hr p (by simp)) [] _
  rw [hright]
  clear hright
  induction ps with
  | nil => rfl
  | cons p ps ih =>
    have hp := hl p List.mem_cons_self
    rw [← ih (fun p hp => hl p (List.mem_cons_of_mem _ hp)), splitAlternatives, List.cons_append,
      alternativesFrom_cons (ne_bar_of_isBlank hp)]
    exact map_trimmed_alternativesFrom_concat hp [] (ps ++ inner)

end WorkflowEngine.Template
