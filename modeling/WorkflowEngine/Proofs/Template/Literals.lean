import WorkflowEngine.Proofs.Template.Grouping

/-!
# Texts within quotes

An expression that is a single text within quotes goes to the engine as a whole, whatever the text
holds. But strict comparisons have been spelled loosely before, within quotes as well as outside, so
the value is the text itself only if no strict comparison occurs in it.

## Main definitions

* `untilClosing`: a text up to the quote that closes it
* `literals`: the texts within quotes of an expression
* `quoted q s`: the text `s` within quotes

## Main results

* `literals_loosen`: what spelling comparisons loosely does within quotes
* `evaluateExpression_quoted`: the value of a text within quotes
* `literal_value`: which texts within quotes are their own values
-/

namespace WorkflowEngine.Template

open Text Expr.Token

variable {q : Char} {cs rest body : List Char}

/-! ### Literals -/

/-- A text up to the quote that closes it, and the rest; none if it is not closed. The flag says
whether the first character is protected by a backslash. -/
def untilClosing (q : Char) : Bool → List Char → Option (List Char × List Char)
  | _, [] => none
  | true, c :: cs => (untilClosing q false cs).map fun (body, rest) => (c :: body, rest)
  | false, c :: cs =>
    if c = q then some ([], cs)
    else (untilClosing q (c = '\\') cs).map fun (body, rest) => (c :: body, rest)

theorem untilClosing_cons (q : Char) (escaped : Bool) (c : Char) (cs : List Char) :
    untilClosing q escaped (c :: cs) =
      if escaped = false ∧ c = q then some ([], cs)
      else (untilClosing q (!escaped && c = '\\') cs).map fun (body, rest) =>
        (c :: body, rest) := by
  cases escaped with
  | true => simp [untilClosing]
  | false => simp [untilClosing]

theorem eq_of_untilClosing {escaped : Bool} (h : untilClosing q escaped cs = some (body, rest)) :
    cs = body ++ q :: rest := by
  induction cs generalizing escaped body with
  | nil => simp [untilClosing] at h
  | cons c cs ih =>
    rw [untilClosing_cons] at h
    split at h
    next hc =>
      cases h
      rw [hc.2, List.nil_append]
    next =>
      obtain ⟨⟨b, r⟩, hb, h⟩ := Option.map_eq_some_iff.mp h
      cases h
      rw [ih hb, List.cons_append]

/-- **The texts within quotes** of an expression in their order, as far as quotes are closed. -/
def literals (cs : List Char) : List (List Char) :=
  match _h : cs.dropWhile fun c => !(c = '\'' || c = '"') with
  | [] => []
  | q :: rest =>
    match _hr : untilClosing q false rest with
    | none => []
    | some (body, rest) => body :: literals rest
termination_by cs.length
decreasing_by
  have hle := length_dropWhile_le (fun c => !(c = '\'' || c = '"')) cs
  have hlength := congrArg List.length (eq_of_untilClosing ‹untilClosing _ _ _ = _›)
  rw [‹cs.dropWhile _ = _›] at hle
  simp only [List.length_append, List.length_cons] at hle hlength
  omega

theorem literals_of_no_quotes (h : ∀ c ∈ cs, ¬IsQuote c) : literals cs = [] := by
  have hdrop : (cs.dropWhile fun c => !(c = '\'' || c = '"')) = [] := by
    refine List.dropWhile_eq_nil_iff.mpr fun c hc => ?_
    simpa [IsQuote] using h c hc
  rw [literals]
  split
  · rfl
  next hq => cases hdrop.symm.trans hq

/-- The texts within quotes after the first quote, and the one that it opens. -/
theorem literals_append_quote {plain : List Char} (h : ∀ c ∈ plain, ¬IsQuote c) (hq : IsQuote q)
    (cs : List Char) :
    literals (plain ++ q :: cs) =
      (untilClosing q false cs).elim [] fun (body, rest) => body :: literals rest := by
  have hdrop : ((plain ++ q :: cs).dropWhile fun c => !(c = '\'' || c = '"')) = q :: cs := by
    have hplain : plain.dropWhile (fun c => !(c = '\'' || c = '"')) = [] := by
      refine List.dropWhile_eq_nil_iff.mpr fun c hc => ?_
      simpa [IsQuote] using h c hc
    rw [List.dropWhile_append, hplain, List.dropWhile_cons_of_neg]
    · rfl
    · rcases hq with rfl | rfl <;> decide
  rw [literals]
  split
  next hnil => cases hdrop.symm.trans hnil
  next heq =>
    cases hdrop.symm.trans heq
    split
    next hnone => rw [hnone]; rfl
    next hsome => rw [hsome]; rfl

/-- A text has no quotes, or there are none before the first one. -/
theorem exists_quote (cs : List Char) : (∀ c ∈ cs, ¬IsQuote c) ∨
    ∃ plain q rest, cs = plain ++ q :: rest ∧ IsQuote q ∧ ∀ c ∈ plain, ¬IsQuote c := by
  induction cs with
  | nil => exact .inl fun _ hc => absurd hc List.not_mem_nil
  | cons c cs ih =>
    by_cases hc : IsQuote c
    · exact .inr ⟨[], c, cs, rfl, hc, fun _ h => absurd h List.not_mem_nil⟩
    · rcases ih with h | ⟨plain, q, rest, rfl, hq, h⟩
      · exact .inl (List.forall_mem_cons.mpr ⟨hc, h⟩)
      · exact .inr ⟨c :: plain, q, rest, rfl, hq, List.forall_mem_cons.mpr ⟨hc, h⟩⟩

/-! ### Comparisons within quotes -/

/-- A replacement leaves quotes where they are, and takes place within them too. -/
theorem untilClosing_loosenAt {x : Char} (hx : x = '=' ∨ x = '!') (hq : IsQuote q) (escaped : Bool)
    (cs : List Char) :
    untilClosing q escaped (loosenAt x cs) =
      (untilClosing q escaped cs).map fun (body, rest) => (loosenAt x body, loosenAt x rest) := by
  induction cs using loosenAt_induction x generalizing escaped with
  | nil =>
    rw [loosenAt_nil]
    rfl
  | comparison cs ih =>
    -- none of the characters of a comparison closes a text or protects the next one
    have hchars : x ≠ q ∧ '=' ≠ q ∧ x ≠ '\\' := by
      rcases hx with rfl | rfl <;> rcases hq with rfl | rfl <;> decide
    simp [loosenAt_strict, untilClosing_cons, hchars, ih, Function.comp_def]
  | other c cs hne ih =>
    rw [loosenAt_cons hne, untilClosing_cons, untilClosing_cons]
    split
    · simp only [Option.map_some, loosenAt_nil]
    · rw [ih]
      simp only [Option.map_map, Function.comp_def]
      refine Option.map_congr fun ⟨body, rest⟩ hbody => ?_
      -- what is no comparison in the whole text is none in the part up to the closing quote
      have hnot : ¬strict x <+: c :: body := by
        rintro ⟨tail, htail⟩
        refine hne ⟨tail ++ q :: rest, ?_⟩
        rw [eq_of_untilClosing hbody, ← List.append_assoc, htail, List.cons_append]
      rw [loosenAt_cons hnot]

/-- **Spelling comparisons loosely** leaves quotes where they are, and is done within them too. -/
theorem untilClosing_loosen (hq : IsQuote q) (escaped : Bool) (cs : List Char) :
    untilClosing q escaped (loosen cs) =
      (untilClosing q escaped cs).map fun (body, rest) => (loosen body, loosen rest) := by
  simp only [loosen_eq, untilClosing_loosenAt (.inl rfl) hq, untilClosing_loosenAt (.inr rfl) hq,
    Option.map_map, Function.comp_def]

/-- **What spelling comparisons loosely does within quotes**: the texts there are the same as before
with their comparisons spelled loosely. -/
theorem literals_loosen (cs : List Char) : literals (loosen cs) = (literals cs).map loosen := by
  have hnoQuotes {l : List Char} (h : ∀ c ∈ l, ¬IsQuote c) : ∀ c ∈ loosen l, ¬IsQuote c := by
    intro c hc
    rcases mem_of_mem_loosen_or hc with hc | rfl | rfl
    · exact h c hc
    · unfold IsQuote
      decide
    · unfold IsQuote
      decide
  -- Induction on the text: what follows a closing quote is shorter.
  induction hn : cs.length using Nat.strong_induction_on generalizing cs with
  | _ n ih =>
    rcases exists_quote cs with h | ⟨plain, q, rest, rfl, hq, h⟩
    · rw [literals_of_no_quotes h, literals_of_no_quotes (hnoQuotes h)]
      rfl
    · have hdivided : loosen (plain ++ q :: rest) = loosen plain ++ q :: loosen rest := by
        rcases hq with rfl | rfl <;> exact loosen_append_cons (by decide) (by decide) _ _
      rw [hdivided, literals_append_quote (hnoQuotes h) hq, literals_append_quote h hq,
        untilClosing_loosen hq]
      cases hbody : untilClosing q false rest with
      | none => rfl
      | some x =>
        obtain ⟨body, tail⟩ := x
        have hlength : tail.length < n := by
          rw [← hn, eq_of_untilClosing hbody]
          simp only [List.length_append, List.length_cons]
          omega
        exact congrArg (loosen body :: ·) (ih tail.length hlength tail rfl)

/-! ### Values of texts within quotes -/

/-- A text within quotes. -/
def quoted (q : Char) (s : String) : String := String.ofList (q :: (s.toList ++ [q]))

/-- A text within quotes stays within them. -/
theorem prepare_quoted (hq : IsQuote q) (cs : List Char) :
    prepare (q :: (cs ++ [q])) = q :: (loosen cs ++ [q]) := by
  have hne : q ≠ '!' ∧ q ≠ '=' ∧ isBlank q = false := by
    rcases hq with rfl | rfl <;> decide
  have hopen := loosen_append_cons hne.1 hne.2.1 [] (cs ++ [q])
  have hclose := loosen_append_cons hne.1 hne.2.1 cs []
  rw [List.nil_append, loosen_nil, List.nil_append] at hopen
  rw [loosen_nil] at hclose
  rw [prepare, hopen, hclose, trimmed, trimStart, List.dropWhile_cons_of_neg (by simp [hne.2.2]),
    ← List.cons_append, trimEnd_append_cons hne.2.2]
  rfl

/-- **The value of a text within quotes** is that text with its comparisons spelled loosely. -/
theorem evaluateExpression_quoted {engine : Expr.Engine} (hread : engine.ReadsQuoted) {s : String}
    {context : Json} (hq : IsQuote q)
    (hs : ∀ c ∈ s.toList, c.toNat < 128 ∧ c ≠ q ∧ c ≠ '\\') (hc : context.isObj = true) :
    evaluateExpression engine (quoted q s) context = .ok (.str (loosened s)) := by
  have hloosen : ∀ c ∈ loosen s.toList, c.toNat < 128 ∧ c ≠ q ∧ c ≠ '\\' := by
    intro c hc
    rcases mem_of_mem_loosen_or hc with hc | rfl | rfl
    · exact hs c hc
    · rcases hq with rfl | rfl <;> decide
    · rcases hq with rfl | rfl <;> decide
  -- nothing of what stands within quotes is outside
  have hquiet : IsQuiet (annotate (q :: (loosen s.toList ++ [q]))) := by
    have huntil := untilQuote_append_quote hq (fun c hc => (hloosen c hc).2) []
    obtain ⟨taken, htaken⟩ := annotateFrom_of_closes (closes_of_untilQuote huntil hq) hq 0
    have hopen : annotate (q :: (loosen s.toList ++ [q])) =
        (q, false) :: annotateFrom (.inside q) 0 (loosen s.toList ++ [q]) := by
      rcases hq with rfl | rfl <;> rfl
    rw [hopen, htaken]
    exact (isQuiet_map_false [q]).append
      ((isQuiet_map_false taken).append fun _ hp => absurd hp List.not_mem_nil)
  have hformula : Formula.ofChars (q :: (s.toList ++ [q])) =
      .operand (String.ofList (q :: (loosen s.toList ++ [q]))) :=
    Formula.ofChars_of_operand (prepare_quoted hq s.toList) (List.cons_ne_nil _ _)
      (splitChoice_of_isQuiet hquiet) (length_splitAlternatives_of_isQuiet hquiet)
  rw [evaluateExpression_of_isObj hc, quoted, String.toList_ofList, expressionValue, hformula,
    Formula.eval_operand, hread _ _ _ hq hloosen]
  rfl

/-- **Which texts within quotes are their own values.** The value of a text within quotes is that
text with its strict comparisons spelled loosely, and so the text itself exactly if it has none. It
is the same for the texts within the quotes of any expression: none of them is changed before the
evaluation exactly if none has a strict comparison. All this holds for any engine that reads texts
within quotes as they are. -/
theorem literal_value {engine : Expr.Engine} (hread : engine.ReadsQuoted) {s : String}
    {context : Json} (hq : IsQuote q)
    (hs : ∀ c ∈ s.toList, c.toNat < 128 ∧ c ≠ q ∧ c ≠ '\\') (hc : context.isObj = true) :
    evaluateExpression engine (quoted q s) context = .ok (.str (loosened s)) ∧
    (evaluateExpression engine (quoted q s) context = .ok (.str s) ↔
      ¬∃ op, IsStrict op ∧ op <:+: s.toList) ∧
    ∀ e : List Char, literals (loosen e) = (literals e).map loosen ∧
      (literals (loosen e) = literals e ↔
        ∀ l ∈ literals e, ¬∃ op, IsStrict op ∧ op <:+: l) := by
  have hvalue := evaluateExpression_quoted hread hq hs hc
  refine ⟨hvalue, ?_, fun e => ⟨literals_loosen e, ?_⟩⟩
  · rw [hvalue, ← loosen_eq_self_iff, Except.ok.injEq, Json.str.injEq, loosened,
      ← String.toList_inj, String.toList_ofList]
  · have hsame : (literals e).map loosen = (literals e).map id ↔
        ∀ l ∈ literals e, loosen l = id l := List.map_inj_left
    simpa only [literals_loosen, ← loosen_eq_self_iff, List.map_id, id_eq] using hsame

/-- A text that looks like a condition is its own value. -/
theorem literal_value_condition :
    evaluateExpression Expr.engine "'a || (b ? c'" (.obj []) = .ok (.str "a || (b ? c") := by
  have hs : ∀ c ∈ "a || (b ? c".toList, c.toNat < 128 ∧ c ≠ '\'' ∧ c ≠ '\\' := by simp
  have hstrict : ¬∃ op, IsStrict op ∧ op <:+: "a || (b ? c".toList := by
    rintro ⟨op, rfl | rfl, h⟩ <;> exact absurd h (by decide)
  exact (literal_value Expr.readsQuoted_engine (.inl rfl) hs rfl).2.1.mpr hstrict

/-- A text with a strict comparison is not its own value. -/
theorem strict_literal_changes :
    (∀ c ∈ "a === b".toList, c.toNat < 128 ∧ ¬IsQuote c ∧ c ≠ '\\') ∧
    evaluateExpression Expr.engine "'a === b'" (.obj []) = .ok (.str "a == b") := by
  have hs : ∀ c ∈ "a === b".toList, c.toNat < 128 ∧ c ≠ '\'' ∧ c ≠ '\\' := by simp
  have hloosened : loosened "a === b" = "a == b" := by cbv
  have hvalue : evaluateExpression Expr.engine (quoted '\'' "a === b") (.obj []) =
      .ok (.str (loosened "a === b")) :=
    evaluateExpression_quoted Expr.readsQuoted_engine (.inl rfl) hs rfl
  rw [hloosened] at hvalue
  exact ⟨by simp [IsQuote], hvalue⟩

end WorkflowEngine.Template
