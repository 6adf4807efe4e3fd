import WorkflowEngine.Proofs.Template.Engine

/-!
# Conditions with placeholders

A condition in which placeholders stand beside other text is evaluated as one expression. Where that
fails, whatever the reason, the rendered text decides instead, so that the condition fails only if
one of its placeholders fails by itself.

## Main definitions

* `IsMixed t segments`: a template of several segments
* `inlinedText`: the expression that the placeholders are parts of
* `IsValid`: all operands of an expression can be read

## Main results

* `exists_segmentTexts_iff`: a template can be rendered if each placeholder can be evaluated
* `IsMixed.evaluate_eq`, `IsMixed.evaluateCondition_eq`: the value of a template of several
  segments, and its truth as a condition
* `evaluateCondition_of_plain`: the truth of a condition without placeholders
* `condition_falls_back`: when the rendered text decides
-/

namespace WorkflowEngine.Template

/-- **A template of several segments**: some placeholders, and more than a single one. -/
structure IsMixed (t : String) (segments : List Segment) : Prop where
  hasPlaceholder : hasPlaceholder (Text.trimmed t.toList) = true
  ofChars? : Segment.ofChars? (Text.trimmed t.toList) = some segments
  several : ∀ body, segments ≠ [.placeholder body]

/-- The expression that the placeholders are parts of. -/
def inlinedText (segments : List Segment) : String := String.ofList (inlined segments)

/-- **All operands of an expression can be read.** -/
def IsValid (t : String) : Prop :=
  ∀ text ∈ expressionTexts t.toList, (Expr.Expression.read text).isSome = true

variable {engine : Expr.Engine} {context : Json}

/-! ### Rendering -/

theorem exists_segmentTexts_cons {s : Segment} {segments : List Segment} :
    (∃ text, segmentTexts engine context (s :: segments) = .ok text) ↔
      (∃ text, segmentText engine context s = .ok text) ∧
        ∃ text, segmentTexts engine context segments = .ok text := by
  rw [segmentTexts]
  cases segmentText engine context s with
  | error e => simp [bind, Except.bind]
  | ok text =>
    cases segmentTexts engine context segments <;> simp [bind, Except.bind, pure, Except.pure]

theorem exists_segmentText_placeholder {body : List Char} :
    (∃ text, segmentText engine context (.placeholder body) = .ok text) ↔
      ∃ v, expressionValue engine body context = .ok v := by
  rw [segmentText]
  cases expressionValue engine body context <;> simp [Except.map]

/-- **A template can be rendered** if each of its placeholders can be evaluated. -/
theorem exists_segmentTexts_iff {segments : List Segment} :
    (∃ text, segmentTexts engine context segments = .ok text) ↔
      ∀ body, .placeholder body ∈ segments → ∃ v, expressionValue engine body context = .ok v := by
  induction segments with
  | nil => exact ⟨fun _ _ h => absurd h List.not_mem_nil, fun _ => ⟨_, rfl⟩⟩
  | cons s segments ih =>
    rw [exists_segmentTexts_cons, ih]
    cases s with
    | literal cs => simp [segmentText]
    | placeholder body => simp [exists_segmentText_placeholder]

theorem exists_error_iff {α : Type} {r : Except EvalError α} :
    (∃ e, r = .error e) ↔ ¬∃ a, r = .ok a := by
  cases r <;> simp

/-- A template cannot be rendered if one of its placeholders cannot be evaluated. -/
theorem exists_error_segmentTexts_iff {segments : List Segment} :
    (∃ e, segmentTexts engine context segments = .error e) ↔
      ∃ body, .placeholder body ∈ segments ∧
        ∃ e, expressionValue engine body context = .error e := by
  simp only [exists_error_iff, exists_segmentTexts_iff, not_forall, exists_prop]

/-! ### Conditions -/

theorem evaluateExpression_of_isObj (hc : context.isObj = true) (t : String) :
    evaluateExpression engine t context = expressionValue engine t.toList context := by
  rw [evaluateExpression, inObject, if_pos hc]

/-- The blanks around an expression do not matter to its value. -/
theorem expressionValue_trimmed (cs : List Char) :
    expressionValue engine (Text.trimmed cs) context = expressionValue engine cs context :=
  congrArg (Formula.eval engine context) (Formula.ofChars_trimmed cs)

/-- A condition without placeholders is an expression. -/
theorem evaluateCondition_of_plain {t : String} (ht : hasPlaceholder t.toList = false) :
    evaluateCondition engine t context = (evaluateExpression engine t context).map Json.truth := by
  have htrimmed : hasPlaceholder (Text.trimmed t.toList) = false :=
    Bool.eq_false_iff.mpr fun h => Bool.eq_false_iff.mp ht (hasPlaceholder_of_trimmed h)
  unfold evaluateCondition evaluateExpression inObject
  split
  · simp only [htrimmed, expressionValue_trimmed]
    cases expressionValue engine t.toList context <;> rfl
  · rfl

namespace IsMixed

variable {t : String} {segments : List Segment} (h : IsMixed t segments)
  (hc : context.isObj = true)

include h hc

/-- **The value of a template of several segments** is their text. -/
theorem evaluate_eq : evaluate engine t context =
    (segmentTexts engine context segments).map .str := by
  have hsegments : segmentsOf (Text.trimmed t.toList) = .ok segments := by
    rw [segmentsOf, h.ofChars?]
  unfold evaluate inObject
  simp only [hc, h.hasPlaceholder, hsegments, if_true, bind, Except.bind]
  split
  next body => exact absurd rfl (h.several body)
  next => cases segmentTexts engine context segments <;> rfl

theorem render_eq : render engine (String.ofList (Text.trimmed t.toList)) context =
    segmentTexts engine context segments := by
  have htrimmed : IsMixed (String.ofList (Text.trimmed t.toList)) segments :=
    { hasPlaceholder := by rw [String.toList_ofList, trimmed_trimmed, h.hasPlaceholder]
      ofChars? := by rw [String.toList_ofList, trimmed_trimmed, h.ofChars?]
      several := h.several }
  rw [render, htrimmed.evaluate_eq hc]
  cases segmentTexts engine context segments <;> rfl

/-- **The truth of a condition with placeholders** is that of the expression that they are parts of,
or of the rendered text. -/
theorem evaluateCondition_eq :
    evaluateCondition engine t context =
      match evaluateExpression engine (inlinedText segments) context with
      | .ok v => .ok v.truth
      | .error _ => (segmentTexts engine context segments).map Text.truth := by
  have hsegments : segmentsOf (Text.trimmed t.toList) = .ok segments := by
    rw [segmentsOf, h.ofChars?]
  rw [evaluateExpression_of_isObj hc, inlinedText, String.toList_ofList]
  unfold evaluateCondition inObject
  simp only [hc, h.hasPlaceholder, hsegments, if_true, bind, Except.bind, h.render_eq hc]
  split
  next body => exact absurd rfl (h.several body)
  next =>
    cases expressionValue engine (inlined segments) context with
    | ok v => rfl
    | error e => cases segmentTexts engine context segments <;> rfl

end IsMixed

/-- Why the evaluation of a formula fails: the engine cannot evaluate one of its operands. -/
theorem Formula.exists_of_eval_error {e : EvalError} : ∀ {f : Formula},
    f.eval engine context = .error e →
      ∃ text fault, e = .operand text fault ∧ text ∈ f.operands ∧
        engine text context = .error fault
  | .nothing, h => nomatch h
  | .firstTrue _, h => nomatch h
  | .operand text, h => by
    rw [Formula.eval] at h
    cases hv : engine text context with
    | ok v => rw [hv] at h; cases h
    | error fault =>
      rw [hv] at h
      cases h
      exact ⟨text, fault, rfl, List.mem_singleton_self text, hv⟩
  | .choice c t f, h => by
    have hmem {text : String} (hm : text ∈ c.operands ∨ text ∈ t.operands ∨ text ∈ f.operands) :
        text ∈ (Formula.choice c t f).operands := by
      simpa [Formula.operands] using hm
    rw [Formula.eval] at h
    cases hc : c.eval engine context with
    | error e' =>
      rw [hc] at h
      cases h
      obtain ⟨text, fault, he, hm, hf⟩ := Formula.exists_of_eval_error hc
      exact ⟨text, fault, he, hmem (.inl hm), hf⟩
    | ok v =>
      simp only [hc, bind, Except.bind] at h
      split at h
      · obtain ⟨text, fault, he, hm, hf⟩ := Formula.exists_of_eval_error h
        exact ⟨text, fault, he, hmem (.inr (.inl hm)), hf⟩
      · obtain ⟨text, fault, he, hm, hf⟩ := Formula.exists_of_eval_error h
        exact ⟨text, fault, he, hmem (.inr (.inr hm)), hf⟩

/-- An expression whose operands can be read fails only for a reason that lies in the values. -/
theorem IsValid.exists_fault {t : String} {e : EvalError} (ht : IsValid t)
    (hknows : engine.KnowsExpressions) (hc : context.isObj = true)
    (h : evaluateExpression engine t context = .error e) :
    ∃ text fault, e = .operand text fault ∧ fault ≠ .malformed := by
  rw [evaluateExpression_of_isObj hc] at h
  obtain ⟨text, fault, rfl, hm, hf⟩ := Formula.exists_of_eval_error h
  refine ⟨text, fault, rfl, ?_⟩
  rintro rfl
  exact hknows text context (ht text hm) hf

/-- **When the rendered text decides.** A condition with placeholders in it has the truth of the
expression that they are parts of, wherever that has a value. Wherever it fails, whether it cannot
be read or the values do not fit, the rendered text decides; so the condition fails only if one of
its placeholders fails by itself, and it agrees with the expression only if it fails in the same
way. This holds for any engine; that an expression which can be read fails by its values only holds
for those that know expressions. -/
theorem condition_falls_back {engine : Expr.Engine} {t : String} {segments : List Segment}
    {context : Json} (h : IsMixed t segments) (hc : context.isObj = true) :
    (∀ v, evaluateExpression engine (inlinedText segments) context = .ok v →
      evaluateCondition engine t context = .ok v.truth) ∧
    (∀ e, evaluateExpression engine (inlinedText segments) context = .error e →
      (engine.KnowsExpressions → IsValid (inlinedText segments) →
        ∃ text fault, e = .operand text fault ∧ fault ≠ .malformed) ∧
      evaluateCondition engine t context =
        (segmentTexts engine context segments).map Text.truth ∧
      ((∃ e', evaluateCondition engine t context = .error e') ↔
        ∃ body, .placeholder body ∈ segments ∧
          ∃ e', evaluateExpression engine (String.ofList body) context = .error e')) ∧
    (hasPlaceholder (inlined segments) = false →
      (evaluateCondition engine t context =
          evaluateCondition engine (inlinedText segments) context ↔
        (∃ v, evaluateExpression engine (inlinedText segments) context = .ok v) ∨
          ∃ e, evaluateExpression engine (inlinedText segments) context = .error e ∧
            segmentTexts engine context segments = .error e)) := by
  have heq : evaluateCondition engine t context = _ := h.evaluateCondition_eq hc
  refine ⟨fun v hv => by rw [heq, hv],
    fun e he => ⟨fun hknows hvalid => hvalid.exists_fault hknows hc he, ?_, ?_⟩, fun hplain => ?_⟩
  · rw [heq, he]
  · simp only [evaluateExpression_of_isObj hc, String.toList_ofList]
    rw [← exists_error_segmentTexts_iff, heq, he]
    cases segmentTexts engine context segments <;> simp [Except.map]
  · have hinlined : evaluateCondition engine (inlinedText segments) context =
        (evaluateExpression engine (inlinedText segments) context).map Json.truth :=
      evaluateCondition_of_plain (by rwa [inlinedText, String.toList_ofList])
    rw [heq, hinlined]
    cases evaluateExpression engine (inlinedText segments) context with
    | ok v => simp [Except.map]
    | error e => cases segmentTexts engine context segments <;> simp [Except.map, eq_comm]

/-- A comparison with a value that may be absent. -/
def comparison : String := "\x7b\x7b a \x7d\x7d < 3"

/-- The segments of the comparison. -/
def comparisonSegments : List Segment := [.placeholder ['a'], .literal [' ', '<', ' ', '3']]

/-- A context in which the value is absent. -/
def absent : Json := .obj [("a", .null)]

theorem isMixed_comparison : IsMixed comparison comparisonSegments where
  hasPlaceholder := by decide +kernel
  ofChars? := by cbv
  several := by simp [comparisonSegments]

theorem ofChars_comparison :
    Formula.ofChars (inlined comparisonSegments) = .operand "(a) < 3" := by
  have hprepare : prepare (inlined comparisonSegments) = ['(', 'a', ')', ' ', '<', ' ', '3'] := by
    cbv
  exact Formula.ofChars_of_operand hprepare (List.cons_ne_nil _ _) rfl rfl

theorem read_comparison : ∃ x,
    Expr.Expression.read "(a) < 3" = some (.binary .less (.name "a") (.number x)) := by
  have hscan : ∃ x, Expr.Token.scan "(a) < 3" = some [.mark .openParen, .name "a",
      .mark .closeParen, .op .less, .number x] := ⟨_, rfl⟩
  obtain ⟨x, hx⟩ := hscan
  exact ⟨x, by rw [Expr.Expression.read, hx]; rfl⟩

theorem isValid_comparison : IsValid (inlinedText comparisonSegments) := by
  intro text ht
  rw [expressionTexts, inlinedText, String.toList_ofList, ofChars_comparison] at ht
  obtain rfl : text = "(a) < 3" := List.mem_singleton.mp ht
  obtain ⟨x, hx⟩ := read_comparison
  rw [hx]
  rfl

/-- What is absent cannot be compared. -/
theorem evaluateExpression_comparison : ∃ fault,
    evaluateExpression Expr.engine (inlinedText comparisonSegments) absent =
      .error (.operand "(a) < 3" fault) := by
  obtain ⟨x, hx⟩ := read_comparison
  rw [evaluateExpression_of_isObj rfl, inlinedText, String.toList_ofList, expressionValue,
    ofChars_comparison, Formula.eval, Expr.engine, hx]
  exact ⟨_, rfl⟩

/-- What is absent leaves no text. -/
theorem segmentTexts_comparison :
    segmentTexts Expr.engine absent comparisonSegments = .ok " < 3" := by
  have hname : Formula.ofChars ['a'] = .operand "a" := by
    have hprepare : prepare ['a'] = ['a'] := by cbv
    exact Formula.ofChars_of_operand hprepare (List.cons_ne_nil _ _) rfl rfl
  have hvalue : expressionValue Expr.engine ['a'] absent = .ok .null := by
    rw [expressionValue, hname]
    rfl
  rw [comparisonSegments, segmentTexts, segmentText, hvalue]
  rfl

/-- A comparison that fails is true, since its rendered text is. -/
theorem condition_falls_back_comparison :
    (∃ fault, evaluateExpression Expr.engine (inlinedText comparisonSegments) absent =
      .error (.operand "(a) < 3" fault) ∧ fault ≠ .malformed) ∧
    evaluateCondition Expr.engine comparison absent = .ok true := by
  obtain ⟨fault, he⟩ := evaluateExpression_comparison
  obtain ⟨hvalid, htext, -⟩ := (condition_falls_back isMixed_comparison rfl).2.1 _ he
  obtain ⟨text, fault', heq, hne⟩ := hvalid Expr.knowsExpressions_engine isValid_comparison
  cases heq
  refine ⟨⟨fault, he, hne⟩, ?_⟩
  rw [htext, segmentTexts_comparison]
  exact congrArg Except.ok (by decide +kernel)

/-- A condition that fails where its placeholders are written out is true. -/
theorem failing_comparison_is_true : ∃ segments, IsMixed comparison segments ∧
    IsValid (inlinedText segments) ∧
    (∃ e, evaluateCondition Expr.engine (inlinedText segments) absent = .error e) ∧
    evaluateCondition Expr.engine comparison absent = .ok true := by
  obtain ⟨fault, he⟩ := evaluateExpression_comparison
  refine ⟨_, isMixed_comparison, isValid_comparison, ⟨.operand "(a) < 3" fault, ?_⟩, ?_⟩
  · rw [evaluateCondition_of_plain (by decide +kernel), he]
    rfl
  · rw [isMixed_comparison.evaluateCondition_eq rfl, he, segmentTexts_comparison]
    exact congrArg Except.ok (by decide +kernel)

end WorkflowEngine.Template
