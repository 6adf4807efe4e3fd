import WorkflowEngine.Proofs.Expr.Grammar
import WorkflowEngine.Proofs.Expr.Scanning
import WorkflowEngine.Proofs.Template.Comparisons

/-!
# Brackets and quotes

In a balanced text every quote and every bracket is closed. Nothing of such a text stands outside
brackets once it stands in parentheses, and the brackets among its tokens are closed as well.

## Main definitions

* `isBalancedFrom`, `IsBalanced`: quotes and brackets are closed
* `IsQuiet ps`: no question mark and no bar stands outside quotes and brackets

## Main results

* `isBalancedFrom_loosen`: spelling comparisons loosely leaves a text balanced
* `annotateFrom_append_of_balanced`: within parentheses nothing stands outside
* `foldlM_tokens_of_balanced`: the brackets among the tokens are closed
* `isQuiet_of_tokens`: a question mark and a bar are tokens of their own
-/

namespace WorkflowEngine.Template

open Text Expr.Token

/-- **All quotes and brackets are closed** that are open before some characters or opened in them,
and no others are closed. A backslash within quotes protects the next character. -/
def isBalancedFrom : Quoting → Nat → List Char → Bool
  | .outside, depth, [] => depth == 0
  | .escaped _, _, [] => false
  | .inside _, _, [] => false
  | .escaped q, depth, _ :: cs => isBalancedFrom (.inside q) depth cs
  | .inside q, depth, c :: cs =>
    let next :=
      if c = '\\' then Quoting.escaped q else if c = q then .outside else .inside q
    isBalancedFrom next depth cs
  | .outside, depth, c :: cs =>
    if c = '\'' || c = '"' then isBalancedFrom (.inside c) depth cs
    else if c = '(' || c = '[' || c = '{' then isBalancedFrom .outside (depth + 1) cs
    else if c = ')' || c = ']' || c = '}' then depth != 0 && isBalancedFrom .outside (depth - 1) cs
    else isBalancedFrom .outside depth cs

/-- **A text has balanced quotes and brackets.** -/
def IsBalanced (t : String) : Prop := isBalancedFrom .outside 0 t.toList = true

instance (t : String) : Decidable (IsBalanced t) :=
  inferInstanceAs (Decidable (isBalancedFrom .outside 0 t.toList = true))

variable {cs r : List Char} {q : Quoting} {depth : Nat} {c : Char}

/-! ### Spelling comparisons loosely -/

/-- A replacement leaves a text balanced. -/
theorem isBalancedFrom_loosenAt {x : Char} (hx : x = '=' ∨ x = '!') (cs : List Char) (q : Quoting)
    (depth : Nat) : isBalancedFrom q depth (loosenAt x cs) = isBalancedFrom q depth cs := by
  induction cs using loosenAt_induction x generalizing q depth with
  | nil => rw [loosenAt_nil]
  | comparison cs ih =>
    rw [loosenAt_strict]
    -- within quotes, what matters is which of the characters closes them
    cases q with
    | outside => rcases hx with rfl | rfl <;> simp [isBalancedFrom, ih]
    | escaped quote =>
      rcases eq_or_ne '=' quote with rfl | hequal
      · simp [isBalancedFrom, ih]
      · simp [isBalancedFrom, ih, hequal]
    | inside quote =>
      have hslash : x ≠ '\\' := by rcases hx with rfl | rfl <;> decide
      rcases eq_or_ne x quote with rfl | hquote
      · simp [isBalancedFrom, ih, hslash]
      · rcases eq_or_ne '=' quote with rfl | hequal
        · simp [isBalancedFrom, ih, hslash, hquote]
        · simp [isBalancedFrom, ih, hslash, hquote, hequal]
  | other c cs hne ih =>
    rw [loosenAt_cons hne]
    cases q <;> simp only [isBalancedFrom, ih]

/-- **Spelling comparisons loosely** leaves a text balanced. -/
theorem isBalancedFrom_loosen (cs : List Char) (q : Quoting) (depth : Nat) :
    isBalancedFrom q depth (loosen cs) = isBalancedFrom q depth cs := by
  rw [loosen_eq, isBalancedFrom_loosenAt (.inl rfl), isBalancedFrom_loosenAt (.inr rfl)]

/-! ### Parentheses around a text -/

/-- **Within parentheses nothing stands outside.** -/
theorem annotateFrom_append_of_balanced (h : isBalancedFrom q depth cs = true) (r : List Char) :
    annotateFrom q (depth + 1) (cs ++ r) =
      cs.map (·, false) ++ annotateFrom .outside 1 r := by
  induction cs generalizing q depth with
  | nil =>
    cases q with
    | outside =>
      obtain rfl : depth = 0 := by simpa [isBalancedFrom] using h
      rfl
    | inside | escaped => cases h
  | cons c cs ih =>
    cases q with
    | escaped q => rw [List.cons_append, annotateFrom, ih h]; rfl
    | inside q => rw [List.cons_append, annotateFrom, ih h]; rfl
    | outside =>
      rw [isBalancedFrom] at h
      rw [List.cons_append, annotateFrom, List.map_cons, List.cons_append]
      split
      next hc =>
        rw [if_pos hc] at h
        rw [ih h]
      next hc =>
        rw [if_neg hc] at h
        split
        next ho =>
          rw [if_pos ho] at h
          rw [← ih h]
          rfl
        next ho =>
          rw [if_neg ho] at h
          split
          next hclose =>
            rw [if_pos hclose, Bool.and_eq_true, bne_iff_ne] at h
            have hdepth : (depth : Int) + 1 - 1 = ((depth - 1 : Nat) : Int) + 1 := by omega
            rw [hdepth, ih h.2]
          next hclose =>
            rw [if_neg hclose] at h
            have hne : ¬(depth : Int) + 1 = 0 := by omega
            rw [ih h, decide_eq_false hne]

/-- Nothing of a text in parentheses stands outside, and what follows stands where it stands by
itself. -/
theorem annotate_group (h : isBalancedFrom .outside 0 cs = true) (r : List Char) :
    annotate ('(' :: (cs ++ ')' :: r)) = ('(' :: cs ++ [')']).map (·, false) ++ annotate r := by
  have hinner := annotateFrom_append_of_balanced h (')' :: r)
  rw [annotate, annotateFrom]
  change ('(', false) :: annotateFrom .outside ((0 : Nat) + 1) (cs ++ ')' :: r) = _
  rw [hinner]
  simp [annotateFrom, annotate]

/-! ### Tokens of a balanced text -/

/-- A character that is no quote, no bracket, no question mark and no bar. -/
def IsInert (c : Char) : Prop := c ∉ ['\'', '"', '(', '[', '{', ')', ']', '}', '?', '|']

theorem isInert_of_isSpace (h : isSpace c = true) : IsInert c := by
  rcases isSpace_cases h with rfl | rfl | rfl | rfl | rfl | rfl <;> (unfold IsInert; decide)

theorem isInert_of_isWordChar (h : IsWordChar c) : IsInert c := by
  simp only [IsInert, List.mem_cons, List.not_mem_nil, or_false, not_or]
  refine ⟨?_, ?_, ?_, ?_, ?_, ?_, ?_, ?_, ?_, ?_⟩ <;>
    (rintro rfl; exact absurd h (by unfold IsWordChar; decide))

theorem isBalancedFrom_append_inert {l : List Char} (hl : ∀ c ∈ l, IsInert c) (r : List Char) :
    isBalancedFrom .outside depth (l ++ r) = isBalancedFrom .outside depth r := by
  induction l with
  | nil => rfl
  | cons c l ih =>
    have hc := hl c List.mem_cons_self
    simp only [IsInert, List.mem_cons, List.not_mem_nil, or_false, not_or] at hc
    rw [← ih fun c hc => hl c (List.mem_cons_of_mem _ hc)]
    simp [isBalancedFrom, hc]

theorem isBalancedFrom_of_closes {quote : Char} (h : Closes quote r cs) (hq : IsQuote quote) :
    isBalancedFrom (.inside quote) depth cs = isBalancedFrom .outside depth r := by
  induction h with
  | close => rw [isBalancedFrom, if_neg hq.ne_slash, if_pos rfl]
  | escape _ ih => rw [isBalancedFrom, if_pos rfl, isBalancedFrom, ih]
  | other hslash hne _ ih => rw [isBalancedFrom, if_neg hslash, if_neg hne, ih]

/-- A token leaves the rest balanced. -/
theorem isBalancedFrom_next {t : Expr.Token} (ht : next cs = some (t, r))
    (h : isBalancedFrom .outside depth cs = true) :
    ∃ d, Expr.Expression.depthAfter depth t = some d ∧ isBalancedFrom .outside d r = true := by
  rcases next_cases ht with ⟨taken, rfl, -, hchars, hword⟩ | ⟨q, body, s, hq, rfl, hs, rfl⟩ | hsign
  · rw [isBalancedFrom_append_inert fun c hc => isInert_of_isWordChar (hchars c hc)] at h
    refine ⟨depth, ?_, h⟩
    rcases hword with ⟨x, rfl⟩ | ⟨w, rfl⟩
    · rfl
    · unfold ofWord
      repeat' split
      all_goals rfl
  · refine ⟨depth, rfl, ?_⟩
    rw [← isBalancedFrom_of_closes hs hq]
    rcases hq with rfl | rfl <;> exact h
  · unfold ofSign at hsign
    split at hsign
    all_goals
      first
        | cases hsign; done
        | cases hsign; exact ⟨_, rfl, h⟩
        | -- a closing bracket
          cases hsign
          obtain ⟨hdepth, hrest⟩ := Bool.and_eq_true_iff.mp h
          exact ⟨depth - 1, if_neg (bne_iff_ne.mp hdepth), hrest⟩

/-- **The brackets among the tokens are closed** if they are closed in the text. -/
theorem foldlM_tokens_of_balanced {ts : List Expr.Token}
    (h : isBalancedFrom .outside depth cs = true) (hts : tokens cs = some ts) :
    ts.foldlM Expr.Expression.depthAfter depth = some 0 := by
  induction hn : cs.length using Nat.strong_induction_on generalizing cs depth ts with
  | _ n ih =>
    have hblanks : ∀ c ∈ cs.takeWhile isSpace, IsInert c := fun c hc =>
      isInert_of_isSpace (List.mem_takeWhile_imp hc)
    rw [← List.takeWhile_append_dropWhile (p := isSpace) (l := cs),
      isBalancedFrom_append_inert hblanks] at h
    rw [tokens_eq] at hts
    have hle := length_dropWhile_isSpace_le cs
    cases hcs : cs.dropWhile isSpace with
    | nil =>
      rw [hcs] at h hts
      cases hts
      exact congrArg some (by simpa [isBalancedFrom] using h)
    | cons c rest =>
      rw [hcs] at h hts hle
      obtain ⟨⟨t, r⟩, ht, hts⟩ := Option.bind_eq_some_iff.mp hts
      obtain ⟨us, hus, rfl⟩ := Option.map_eq_some_iff.mp hts
      obtain ⟨d, hd, hr⟩ := isBalancedFrom_next ht h
      have hlength := length_next ht
      rw [List.foldlM_cons, hd]
      exact ih r.length (by omega) hr hus rfl

/-! ### Question marks and bars -/

/-- **No question mark and no bar** stands outside quotes and brackets. -/
def IsQuiet (ps : List Placed) : Prop := ∀ p ∈ ps, p ≠ ('?', true) ∧ p ≠ ('|', true)

theorem IsQuiet.append {ps ps' : List Placed} (h : IsQuiet ps) (h' : IsQuiet ps') :
    IsQuiet (ps ++ ps') := by
  intro p hp
  exact (List.mem_append.mp hp).elim (h p) (h' p)

theorem isQuiet_map_false (cs : List Char) : IsQuiet (cs.map (·, false)) := by
  intro p hp
  obtain ⟨c, -, rfl⟩ := List.mem_map.mp hp
  exact ⟨by simp, by simp⟩

theorem breakAtQuestion_of_isQuiet {ps : List Placed} (h : IsQuiet ps) :
    breakAtQuestion ps = none := by
  induction ps with
  | nil => rfl
  | cons p ps ih =>
    rw [breakAtQuestion, if_neg (h p List.mem_cons_self).1,
      ih fun p hp => h p (List.mem_cons_of_mem _ hp)]
    rfl

/-- Without an outer question mark there is no choice. -/
theorem splitChoice_of_isQuiet {ps : List Placed} (h : IsQuiet ps) : splitChoice ps = none := by
  rw [splitChoice, breakAtQuestion_of_isQuiet h]
  rfl

/-- Without an outer bar there is no chain. -/
theorem length_splitAlternatives_of_isQuiet {ps : List Placed} (h : IsQuiet ps) :
    (splitAlternatives ps).length = 1 := by
  rw [splitAlternatives]
  generalize ([] : List Char) = seen
  fun_induction alternativesFrom seen ps with
  | case1 | case2 => rfl
  | case3 seen p q ps hpq _ =>
    simp only [Bool.and_eq_true, decide_eq_true_eq] at hpq
    exact absurd hpq.1 (h p List.mem_cons_self).2
  | case4 seen p q ps _ ih => exact ih fun p hp => h p (List.mem_cons_of_mem _ hp)

/-- A token that is neither a question mark nor made of bars. -/
def IsQuietToken (t : Expr.Token) : Prop :=
  t ≠ .mark .question ∧ t ≠ .mark .pipe ∧ t ≠ .op .or

theorem annotateFrom_append_inert {l : List Char} (hl : ∀ c ∈ l, IsInert c) (depth : Int)
    (r : List Char) :
    annotateFrom .outside depth (l ++ r) =
      l.map (·, decide (depth = 0)) ++ annotateFrom .outside depth r := by
  induction l with
  | nil => rfl
  | cons c l ih =>
    have hc := hl c List.mem_cons_self
    simp only [IsInert, List.mem_cons, List.not_mem_nil, or_false, not_or] at hc
    have ih := ih fun c hc => hl c (List.mem_cons_of_mem _ hc)
    simp [annotateFrom, hc, ih]

theorem isQuiet_map_inert {l : List Char} (hl : ∀ c ∈ l, IsInert c) (b : Bool) :
    IsQuiet (l.map (·, b)) := by
  intro p hp
  obtain ⟨c, hc, rfl⟩ := List.mem_map.mp hp
  constructor <;>
    (rintro heq; exact hl c hc (by rw [(Prod.mk.inj heq).1]; simp))

theorem annotateFrom_of_closes {quote : Char} (h : Closes quote r cs) (hq : IsQuote quote)
    (depth : Int) : ∃ taken : List Char, annotateFrom (.inside quote) depth cs =
      taken.map (·, false) ++ annotateFrom .outside depth r := by
  induction h with
  | close =>
    refine ⟨[quote], ?_⟩
    rw [annotateFrom, if_neg hq.ne_slash, if_pos rfl]
    rfl
  | escape _ ih =>
    obtain ⟨taken, htaken⟩ := ih
    refine ⟨'\\' :: quote :: taken, ?_⟩
    rw [annotateFrom, if_pos rfl, annotateFrom, htaken]
    rfl
  | @other c cs hslash hne _ ih =>
    obtain ⟨taken, htaken⟩ := ih
    refine ⟨c :: taken, ?_⟩
    rw [annotateFrom, if_neg hslash, if_neg hne, htaken]
    rfl

/-- From a depth on, no question mark and no bar stands outside before the rest. -/
def QuietUpTo (r cs : List Char) (depth : Int) : Prop :=
  ∃ ps d, annotateFrom .outside depth cs = ps ++ annotateFrom .outside d r ∧ IsQuiet ps

namespace QuietUpTo

theorem refl (r : List Char) (depth : Int) : QuietUpTo r r depth :=
  ⟨[], depth, rfl, fun _ hp => absurd hp List.not_mem_nil⟩

theorem cons (hc : c ∉ ['\'', '"', '?', '|']) (h : ∀ depth, QuietUpTo r cs depth) (depth : Int) :
    QuietUpTo r (c :: cs) depth := by
  simp only [List.mem_cons, List.not_mem_nil, or_false, not_or] at hc
  obtain ⟨b, d, heq⟩ : ∃ b d, annotateFrom .outside depth (c :: cs) =
      (c, b) :: annotateFrom .outside d cs := by
    rw [annotateFrom, if_neg (by simp [hc])]
    split
    · exact ⟨_, _, rfl⟩
    · split
      · exact ⟨_, _, rfl⟩
      · exact ⟨_, _, rfl⟩
  obtain ⟨ps, d', hps, hquiet⟩ := h d
  have hfirst : IsQuiet [(c, b)] := by
    intro p hp
    obtain rfl := List.mem_singleton.mp hp
    exact ⟨fun h => hc.2.2.1 (Prod.mk.inj h).1, fun h => hc.2.2.2 (Prod.mk.inj h).1⟩
  exact ⟨(c, b) :: ps, d', by rw [heq, hps]; rfl, hfirst.append hquiet⟩

end QuietUpTo

/-- A token that is neither a question mark nor made of bars has none outside. -/
theorem annotateFrom_next {t : Expr.Token} (ht : next cs = some (t, r)) (hquiet : IsQuietToken t)
    (depth : Int) : QuietUpTo r cs depth := by
  rcases next_cases ht with ⟨taken, rfl, -, hchars, -⟩ | ⟨q, body, s, hq, rfl, hs, rfl⟩ | hsign
  · have hinert : ∀ c ∈ taken, IsInert c := fun c hc => isInert_of_isWordChar (hchars c hc)
    exact ⟨_, depth, annotateFrom_append_inert hinert depth r, isQuiet_map_inert hinert _⟩
  · obtain ⟨taken, htaken⟩ := annotateFrom_of_closes hs hq depth
    refine ⟨(q :: taken).map (·, false), depth, ?_, isQuiet_map_false _⟩
    rw [List.map_cons, List.cons_append, ← htaken]
    rcases hq with rfl | rfl <;> rfl
  · obtain ⟨hquestion, hpipe, hor⟩ := hquiet
    unfold ofSign at hsign
    split at hsign
    all_goals
      first
        | cases hsign; done
        | cases hsign; exact absurd rfl hquestion
        | cases hsign; exact absurd rfl hpipe
        | cases hsign; exact absurd rfl hor
        | cases hsign; exact .cons (by decide) (.refl _) depth
        | cases hsign; exact .cons (by decide) (.cons (by decide) (.refl _)) depth

/-- **A question mark and a bar are tokens of their own**: where there are no such tokens, none
stands outside quotes and brackets. -/
theorem isQuiet_of_tokens {ts : List Expr.Token} (hts : tokens cs = some ts)
    (hquiet : ∀ t ∈ ts, IsQuietToken t) (depth : Int) :
    IsQuiet (annotateFrom .outside depth cs) := by
  induction hn : cs.length using Nat.strong_induction_on generalizing cs depth ts with
  | _ n ih =>
    have hblanks : ∀ c ∈ cs.takeWhile isSpace, IsInert c := fun c hc =>
      isInert_of_isSpace (List.mem_takeWhile_imp hc)
    rw [← List.takeWhile_append_dropWhile (p := isSpace) (l := cs),
      annotateFrom_append_inert hblanks]
    refine (isQuiet_map_inert hblanks _).append ?_
    rw [tokens_eq] at hts
    have hle := length_dropWhile_isSpace_le cs
    cases hcs : cs.dropWhile isSpace with
    | nil => exact fun p hp => absurd hp List.not_mem_nil
    | cons c rest =>
      rw [hcs] at hts hle
      obtain ⟨⟨t, r⟩, ht, hts⟩ := Option.bind_eq_some_iff.mp hts
      obtain ⟨us, hus, rfl⟩ := Option.map_eq_some_iff.mp hts
      obtain ⟨ps, d, heq, hps⟩ := annotateFrom_next ht (hquiet t List.mem_cons_self) depth
      have hlength := length_next ht
      rw [heq]
      exact hps.append
        (ih r.length (by omega) hus (fun t ht => hquiet t (List.mem_cons_of_mem _ ht)) d rfl)

end WorkflowEngine.Template
