import WorkflowEngine.Proofs.Template.Condition
import WorkflowEngine.Proofs.Template.Literals

/-!
# A single placeholder

A template that is a single placeholder has the value of its expression, whatever the expression, as
long as two closing braces do not follow one another in it. A placeholder ends at the first two of
them, be they brackets of the expression or part of a text within quotes. What is left of the
expression then is text, and the value of the template the text of its segments.

## Main definitions

* `inPlaceholder e`: a template that is meant to be a single placeholder

## Main results

* `Text.breakAt_append_cons`: a character that does not occur in a pattern divides a search
* `ofChars?_append_closing`: a text with a closing at its end has segments
* `ofChars?_inPlaceholder`, `isMixed_inPlaceholder`: the segments of a single placeholder
* `placeholder_value`: which placeholders have the value of their expression
-/

namespace WorkflowEngine

namespace Text

variable {pat l r : List Char} {c : Char}

/-- **A character that does not occur in a pattern divides a search**: the pattern is found before
it or else after it. -/
theorem breakAt_append_cons (hpat : pat ≠ []) (h : c ∉ pat) (l r : List Char) :
    breakAt pat (l ++ c :: r) =
      match breakAt pat l with
      | some (before, rest) => some (before, rest ++ c :: r)
      | none => (breakAt pat r).map fun (before, rest) => (l ++ c :: before, rest) := by
  induction l with
  | nil =>
    obtain ⟨p, ps, rfl⟩ := List.exists_cons_of_ne_nil hpat
    have hp : p ≠ c := (List.ne_of_not_mem_cons h).symm
    simp [breakAt, dropLeading, hp]
  | cons x l ih =>
    rw [List.cons_append, breakAt, breakAt, ← List.cons_append, dropLeading_append_cons h]
    cases dropLeading pat (x :: l) with
    | some rest => rfl
    | none =>
      rw [Option.map_none, ih]
      cases breakAt pat l with
      | some found => rfl
      | none => cases breakAt pat r <;> rfl

end Text

namespace Template

open Text

variable {engine : Expr.Engine} {context : Json} {cs before after body rest : List Char}

/-! ### Segments -/

/-- A text without placeholders is a segment. -/
theorem Segment.ofChars?_of_none (h : breakAt opening cs = none) :
    Segment.ofChars? cs = some (literalSegment cs) := by
  rw [Segment.ofChars?]
  split
  · rfl
  next hb => cases h.symm.trans hb

/-- **A placeholder is followed by the segments of what follows it.** -/
theorem Segment.ofChars?_of_some (ho : breakAt opening cs = some (before, after))
    (hc : breakAt closing after = some (body, rest)) :
    Segment.ofChars? cs = (Segment.ofChars? rest).map fun segments =>
      literalSegment before ++ .placeholder (trimmed body) :: segments := by
  rw [Segment.ofChars?]
  split
  next hb => cases ho.symm.trans hb
  next hb =>
    cases ho.symm.trans hb
    split
    next hb => cases hc.symm.trans hb
    next hb =>
      cases hc.symm.trans hb
      rfl

/-- A text that is not empty has segments, if it has any. -/
theorem Segment.ofChars?_ne_nil (h : cs ≠ []) : Segment.ofChars? cs ≠ some [] := by
  rw [Segment.ofChars?]
  split
  · simpa [literalSegment] using h
  · split
    · exact Option.some_ne_none _ |>.symm
    · simp

/-- What begins a placeholder is found before a closing at the end, or not at all. -/
theorem breakAt_opening_append (cs : List Char) :
    breakAt opening (cs ++ ' ' :: closing) =
      (breakAt opening cs).map fun (before, after) => (before, after ++ ' ' :: closing) := by
  rw [breakAt_append_cons (by decide) (by decide)]
  cases breakAt opening cs <;> rfl

/-- A closing at the end is the first one if there is none before. -/
theorem breakAt_closing_append (cs : List Char) :
    breakAt closing (cs ++ ' ' :: closing) =
      match breakAt closing cs with
      | some (body, rest) => some (body, rest ++ ' ' :: closing)
      | none => some (cs ++ [' '], []) := by
  rw [breakAt_append_cons (by decide) (by decide)]
  rfl

/-- **A text with a closing at its end has segments**: no placeholder of it is without an end. -/
theorem ofChars?_append_closing (cs : List Char) :
    ∃ segments, Segment.ofChars? (cs ++ ' ' :: closing) = some segments := by
  -- Induction on the text: what follows a placeholder is shorter, and has the same end.
  induction hn : cs.length using Nat.strong_induction_on generalizing cs with
  | _ n ih =>
    cases ho : breakAt opening cs with
    | none => exact ⟨_, Segment.ofChars?_of_none (by rw [breakAt_opening_append, ho]; rfl)⟩
    | some found =>
      obtain ⟨before, after⟩ := found
      have hopening : breakAt opening (cs ++ ' ' :: closing) =
          some (before, after ++ ' ' :: closing) := by rw [breakAt_opening_append, ho]; rfl
      have hclosing := breakAt_closing_append after
      have hlength := length_breakAt ho
      cases hc : breakAt closing after with
      | none =>
        rw [hc] at hclosing
        rw [Segment.ofChars?_of_some hopening hclosing, Segment.ofChars?_of_none rfl]
        exact ⟨_, rfl⟩
      | some found =>
        obtain ⟨body, rest⟩ := found
        rw [hc] at hclosing
        have hrest := length_breakAt hc
        simp only [opening, closing, List.length_cons, List.length_nil] at hlength hrest
        obtain ⟨segments, hsegments⟩ := ih rest.length (by omega) rest rfl
        rw [Segment.ofChars?_of_some hopening hclosing, hsegments]
        exact ⟨_, rfl⟩

/-! ### A single placeholder -/

/-- **An expression as the only placeholder of a template.** -/
def inPlaceholder (e : String) : String := "\x7b\x7b " ++ e ++ " \x7d\x7d"

theorem toList_inPlaceholder (e : String) :
    (inPlaceholder e).toList = opening ++ (' ' :: (e.toList ++ ' ' :: closing)) := by
  simp [inPlaceholder, opening, closing]

/-- There are no blanks around it. -/
theorem trimmed_inPlaceholder (e : String) :
    trimmed (inPlaceholder e).toList = (inPlaceholder e).toList := by
  have hstart (cs : List Char) : trimStart (opening ++ cs) = opening ++ cs := rfl
  have hend (cs : List Char) : trimEnd (cs ++ closing) = cs ++ closing :=
    (trimEnd_append_cons (c := '\x7d') (by decide) cs ['\x7d']).trans rfl
  have htext : (inPlaceholder e).toList = opening ++ (' ' :: (e.toList ++ [' '])) ++ closing := by
    rw [toList_inPlaceholder]
    simp
  rw [trimmed, toList_inPlaceholder, hstart, ← toList_inPlaceholder, htext, hend]

/-- The placeholder begins at once. -/
theorem breakAt_opening_inPlaceholder (e : String) :
    breakAt opening (inPlaceholder e).toList = some ([], ' ' :: (e.toList ++ ' ' :: closing)) := by
  rw [toList_inPlaceholder]
  rfl

theorem hasPlaceholder_inPlaceholder (e : String) :
    hasPlaceholder (inPlaceholder e).toList = true := by
  rw [hasPlaceholder, holds, breakAt_opening_inPlaceholder]
  rfl

/-- Blanks before an expression do not matter to where a placeholder ends. -/
theorem breakAt_closing_cons (cs : List Char) :
    breakAt closing (' ' :: cs) =
      (breakAt closing cs).map fun (body, rest) => (' ' :: body, rest) :=
  breakAt_append_cons (by decide) (by decide) [] cs

/-- **The segments of a single placeholder**: its expression, up to the first closing in it and with
the segments of what follows that, if there is any. -/
theorem ofChars?_inPlaceholder (e : String) :
    Segment.ofChars? (inPlaceholder e).toList =
      match breakAt closing e.toList with
      | some (body, rest) => (Segment.ofChars? (rest ++ ' ' :: closing)).map fun segments =>
          .placeholder (trimmed body) :: segments
      | none => some [.placeholder (trimmed e.toList)] := by
  have hopening := breakAt_opening_inPlaceholder e
  have hclosing := breakAt_closing_cons (e.toList ++ ' ' :: closing)
  rw [breakAt_closing_append] at hclosing
  cases h : breakAt closing e.toList with
  | some found =>
    rw [h] at hclosing
    rw [Segment.ofChars?_of_some hopening hclosing, trimmed_cons_of_isBlank rfl]
    rfl
  | none =>
    rw [h] at hclosing
    rw [Segment.ofChars?_of_some hopening hclosing, trimmed_cons_of_isBlank rfl,
      trimmed_append_of_isBlank rfl, Segment.ofChars?_of_none rfl]
    rfl

/-- **With a closing in its expression** a placeholder is a template of several segments. -/
theorem isMixed_inPlaceholder {e : String} (h : breakAt closing e.toList = some (body, rest)) :
    ∃ segments, Segment.ofChars? (rest ++ ' ' :: closing) = some segments ∧
      IsMixed (inPlaceholder e) (.placeholder (trimmed body) :: segments) := by
  obtain ⟨segments, hsegments⟩ := ofChars?_append_closing rest
  refine ⟨segments, hsegments, ?_, ?_, ?_⟩
  · rw [trimmed_inPlaceholder, hasPlaceholder_inPlaceholder]
  · rw [trimmed_inPlaceholder, ofChars?_inPlaceholder, h]
    dsimp only
    rw [hsegments]
    rfl
  · intro body' heq
    obtain ⟨-, rfl⟩ := List.cons.inj heq
    exact Segment.ofChars?_ne_nil (by simp) hsegments

/-- **Without a closing in its expression** a placeholder has the value of its expression. -/
theorem evaluate_inPlaceholder {e : String} (h : breakAt closing e.toList = none) :
    evaluate engine (inPlaceholder e) context = evaluateExpression engine e context ∧
      evaluateCondition engine (inPlaceholder e) context =
        (evaluateExpression engine e context).map Json.truth := by
  have hsegments : segmentsOf (inPlaceholder e).toList = .ok [.placeholder (trimmed e.toList)] := by
    rw [segmentsOf, ofChars?_inPlaceholder, h]
  unfold evaluate evaluateCondition evaluateExpression inObject
  simp only [trimmed_inPlaceholder, hasPlaceholder_inPlaceholder, hsegments, if_true, bind,
    Except.bind, expressionValue_trimmed, true_and]
  split
  · cases expressionValue engine e.toList context <;> rfl
  · rfl

/-- A placeholder with an operand is a question to the engine. -/
theorem evaluate_inPlaceholder_of_operand {e : String} (hc : context.isObj = true)
    (he : Formula.ofChars e.toList = .operand e) (h : breakAt closing e.toList = none) :
    evaluate engine (inPlaceholder e) context = (engine e context).mapError (.operand e) := by
  rw [(evaluate_inPlaceholder h).1, evaluateExpression_of_isObj hc, expressionValue, he,
    Formula.eval_operand]

/-- **Which placeholders have the value of their expression.** As long as two closing braces do not
follow one another in an expression, the value of a placeholder is that of the expression, or fails
as it does, and decides a condition by its truth. Otherwise the placeholder ends at the first two of
them: what is evaluated is the part before them, and the value of the template is the text of
several segments. -/
theorem placeholder_value (engine : Expr.Engine) {context : Json} (hc : context.isObj = true)
    (e : String) :
    (¬closing <:+: e.toList →
      evaluate engine (inPlaceholder e) context = evaluateExpression engine e context ∧
      evaluateCondition engine (inPlaceholder e) context =
        (evaluateExpression engine e context).map Json.truth) ∧
    (closing <:+: e.toList → ∃ body rest segments,
      breakAt closing e.toList = some (body, rest) ∧
      Segment.ofChars? (rest ++ ' ' :: closing) = some segments ∧
      evaluate engine (inPlaceholder e) context =
        (segmentTexts engine context (.placeholder (trimmed body) :: segments)).map .str ∧
      evaluateCondition engine (inPlaceholder e) context =
        match evaluateExpression engine (inlinedText (.placeholder (trimmed body) :: segments))
          context with
        | .ok v => .ok v.truth
        | .error _ => (segmentTexts engine context
            (.placeholder (trimmed body) :: segments)).map Text.truth) := by
  constructor
  · intro h
    refine evaluate_inPlaceholder (Option.not_isSome_iff_eq_none.mp ?_)
    exact fun hsome => h (holds_iff.mp hsome)
  · intro h
    obtain ⟨⟨body, rest⟩, hbreak⟩ := Option.isSome_iff_exists.mp (holds_iff.mpr h)
    obtain ⟨segments, hsegments, hmixed⟩ := isMixed_inPlaceholder hbreak
    exact ⟨body, rest, segments, hbreak, hsegments, hmixed.evaluate_eq hc,
      hmixed.evaluateCondition_eq hc⟩

/-- A text within quotes may hold braces, and what begins a placeholder. -/
theorem placeholder_value_braces :
    evaluate Expr.engine "\x7b\x7b '\x7b\x7b \x7d' \x7d\x7d" (.obj []) =
      .ok (.str "\x7b\x7b \x7d") ∧
    evaluateCondition Expr.engine "\x7b\x7b '\x7b\x7b \x7d' \x7d\x7d" (.obj []) = .ok true := by
  have hs : ∀ c ∈ "\x7b\x7b \x7d".toList, c.toNat < 128 ∧ c ≠ '\'' ∧ c ≠ '\\' := by simp
  have hloosened : loosened "\x7b\x7b \x7d" = "\x7b\x7b \x7d" := by cbv
  have hvalue : evaluateExpression Expr.engine (quoted '\'' "\x7b\x7b \x7d") (.obj []) =
      .ok (.str "\x7b\x7b \x7d") := by
    rw [evaluateExpression_quoted Expr.readsQuoted_engine (.inl rfl) hs rfl, hloosened]
  have hc : (Json.obj []).isObj = true := rfl
  obtain ⟨htemplate, hcondition⟩ :=
    (placeholder_value Expr.engine hc (quoted '\'' "\x7b\x7b \x7d")).1 (by decide)
  rw [hvalue] at htemplate hcondition
  exact ⟨htemplate, hcondition.trans (congrArg Except.ok (by decide +kernel))⟩

/-- The tokens of an object in an object that are not closed. -/
def opened : List Expr.Token :=
  [.mark .openBrace, .name "k", .mark .colon, .mark .openBrace, .name "j", .mark .colon, .text "v"]

/-- The braces that close an object in an object end its placeholder. -/
theorem nested_object_ends_placeholder :
    evaluateExpression Expr.engine "\x7bk: \x7bj: 'v'\x7d\x7d" (.obj []) =
      .ok (.obj [("k", .obj [("j", .str "v")])]) ∧
    evaluate Expr.engine "\x7b\x7b \x7bk: \x7bj: 'v'\x7d\x7d \x7d\x7d" (.obj []) =
      .error (.operand "\x7bk: \x7bj: 'v'" .malformed) := by
  have hwhole : Formula.ofChars "\x7bk: \x7bj: 'v'\x7d\x7d".toList =
      .operand "\x7bk: \x7bj: 'v'\x7d\x7d" :=
    Formula.ofChars_of_operand (p := "\x7bk: \x7bj: 'v'\x7d\x7d".toList) (by cbv) (by decide) rfl
      rfl
  have hpart : Formula.ofChars "\x7bk: \x7bj: 'v'".toList = .operand "\x7bk: \x7bj: 'v'" :=
    Formula.ofChars_of_operand (p := "\x7bk: \x7bj: 'v'".toList) (by cbv) (by decide) rfl rfl
  have hclosed : Expr.Token.scan "\x7bk: \x7bj: 'v'\x7d\x7d" =
      some (opened ++ [.mark .closeBrace, .mark .closeBrace]) := rfl
  have hobject : Expr.engine "\x7bk: \x7bj: 'v'\x7d\x7d" (.obj []) =
      .ok (.obj [("k", .obj [("j", .str "v")])]) :=
    Expr.engine_of_tokens (e := .object [("k", .object [("j", .text "v")])]) hclosed (by cbv) rfl
  have hmalformed : Expr.engine "\x7bk: \x7bj: 'v'" (.obj []) = .error .malformed := by
    have hscan : Expr.Token.scan "\x7bk: \x7bj: 'v'" = some opened := rfl
    have hopened : Expr.Expression.ofTokens? opened = none := by cbv
    rw [Expr.engine, Expr.Expression.read, hscan, Option.bind_some, hopened]
  have hmixed : IsMixed "\x7b\x7b \x7bk: \x7bj: 'v'\x7d\x7d \x7d\x7d"
      [.placeholder "\x7bk: \x7bj: 'v'".toList, .literal " \x7d\x7d".toList] :=
    { hasPlaceholder := by decide +kernel
      ofChars? := by cbv
      several := by simp }
  constructor
  · rw [evaluateExpression_of_isObj rfl, expressionValue, hwhole, Formula.eval_operand, hobject]
    rfl
  · rw [hmixed.evaluate_eq rfl, segmentTexts, segmentText, expressionValue, hpart,
      Formula.eval_operand, hmalformed]
    rfl

end Template

end WorkflowEngine
