import Mathlib.Data.List.DropRight
import WorkflowEngine.Template.Evaluation

/-!
# Texts that are evaluated

What is handed to the engine are parts of a template or an expression as it is written. Values from
the context are put into the result, and never into what is evaluated: a template has a finite list
of texts, and its value in a context depends on the engine by nothing but what that makes of these
texts.

## Main definitions

* `Expr.Engine.Agree`: two engines make the same of some texts in a context
* `Template.texts`: the texts of a template or an expression that may be handed to the engine
* `Template.textsOf`: those of several templates

## Main results

* `Formula.eval_congr`: the value of a formula depends on its operands
* `evaluate_congr`, `render_congr`, `evaluateCondition_congr`, `evaluateExpression_congr`: what is
  made of a template depends on its texts
* `evaluate_of_plain`: a text without placeholders is its own value
-/

namespace WorkflowEngine

/-- **Two engines make the same of some texts** in a context. -/
def Expr.Engine.Agree (engine engine' : Expr.Engine) (texts : List String) (context : Json) :
    Prop :=
  ∀ text ∈ texts, engine text context = engine' text context

theorem Expr.Engine.Agree.mono {engine engine' : Expr.Engine} {texts texts' : List String}
    {context : Json} (h : engine.Agree engine' texts context) (hs : texts' ⊆ texts) :
    engine.Agree engine' texts' context :=
  fun text ht => h text (hs ht)

/-! ### Occurrences -/

namespace Text

theorem dropLeading_eq_some_iff {pat cs rest : List Char} :
    dropLeading pat cs = some rest ↔ cs = pat ++ rest := by
  induction pat generalizing cs with
  | nil => simp [dropLeading, eq_comm]
  | cons p ps ih =>
    cases cs with
    | nil => simp [dropLeading]
    | cons c cs =>
      rw [dropLeading]
      split
      next h => simp [ih, h]
      next h => simp [Ne.symm h]

/-- **A text occurs in another one** if that is the text with something around it. -/
theorem holds_iff {pat cs : List Char} : holds pat cs = true ↔ pat <:+: cs := by
  have hbegins (cs : List Char) : (dropLeading pat cs).isSome = true ↔ pat <+: cs := by
    simp only [Option.isSome_iff_exists, dropLeading_eq_some_iff, List.prefix_iff_eq_append]
    constructor
    · rintro ⟨rest, rfl⟩
      simp
    · exact fun h => ⟨_, h.symm⟩
  unfold holds
  induction cs with
  | nil => rw [breakAt, Option.isSome_map, hbegins, List.prefix_nil, List.infix_nil]
  | cons c cs ih =>
    rw [breakAt, List.infix_cons_iff, ← hbegins]
    cases dropLeading pat (c :: cs) <;> simp [ih]

end Text

namespace Template

/-- The texts of an expression. -/
def expressionTexts (cs : List Char) : List String := (Formula.ofChars cs).operands

/-- The texts of a segment. -/
def Segment.texts : Segment → List String
  | .literal _ => []
  | .placeholder body => expressionTexts body

/-- The texts of the segments of a template, by themselves and as parts of one expression. -/
def segmentsTexts (segments : List Segment) : List String :=
  segments.flatMap Segment.texts ++ expressionTexts (inlined segments)

/-- **The texts of a template or an expression** that may be handed to the engine: those of the
expression that it is, and those of its placeholders. -/
def texts (t : String) : List String :=
  expressionTexts t.toList ++ expressionTexts (Text.trimmed t.toList) ++
    ((Segment.ofChars? (Text.trimmed t.toList)).map segmentsTexts).getD []

/-- The texts of several templates. -/
def textsOf (templates : List String) : List String := templates.flatMap texts

variable {engine engine' : Expr.Engine} {context : Json}

theorem agree_append {l r : List String} :
    engine.Agree engine' (textsOf (l ++ r)) context ↔
      engine.Agree engine' (textsOf l) context ∧ engine.Agree engine' (textsOf r) context := by
  rw [textsOf, List.flatMap_append]
  exact List.forall_mem_append

/-! ### Blanks -/

/-- A text that was trimmed has no blanks around it. -/
@[simp] theorem trimmed_trimmed (cs : List Char) :
    Text.trimmed (Text.trimmed cs) = Text.trimmed cs := by
  have hend (cs : List Char) : Text.trimEnd cs = cs.rdropWhile Text.isBlank := rfl
  -- what is left at the end begins as what was left at the start
  have hstart : Text.trimStart (Text.trimmed cs) = Text.trimmed cs := by
    refine List.dropWhile_eq_self_iff.mpr fun hpos => ?_
    have hbegins : Text.trimmed cs <+: Text.trimStart cs :=
      List.rdropWhile_prefix Text.isBlank (Text.trimStart cs)
    rw [hbegins.getElem hpos]
    exact List.dropWhile_get_zero_not _ cs (hpos.trans_le hbegins.length_le)
  rw [Text.trimmed, hstart, Text.trimmed, hend, hend, List.rdropWhile_idempotent]

/-- A placeholder is left where the blanks are gone only if there was one before. -/
theorem hasPlaceholder_of_trimmed {cs : List Char}
    (h : hasPlaceholder (Text.trimmed cs) = true) : hasPlaceholder cs = true := by
  have hinfix : Text.trimmed cs <:+: cs :=
    (List.rdropWhile_prefix Text.isBlank _).isInfix.trans (List.dropWhile_suffix _).isInfix
  exact Text.holds_iff.mpr ((Text.holds_iff.mp h).trans hinfix)

/-! ### Formulas -/

mutual
/-- **The value of a formula depends on its operands.** -/
theorem Formula.eval_congr : ∀ f : Formula, engine.Agree engine' f.operands context →
    f.eval engine context = f.eval engine' context
  | .nothing, _ => rfl
  | .choice c t f, h => by
    have hc := Formula.eval_congr c (h.mono (by simp [Formula.operands]))
    have ht := Formula.eval_congr t (h.mono (by simp [Formula.operands]))
    have hf := Formula.eval_congr f (h.mono (by simp [Formula.operands]))
    rw [Formula.eval, Formula.eval, hc, ht, hf]
  | .firstTrue alternatives, h => by
    rw [Formula.eval, Formula.eval, firstTrue_congr alternatives .null h]
  | .operand text, h => by
    rw [Formula.eval, Formula.eval, h text (List.mem_singleton_self text)]

theorem firstTrue_congr : ∀ (fs : List Formula) (last : Json),
    engine.Agree engine' (operandsOfAll fs) context →
      firstTrue engine context last fs = firstTrue engine' context last fs
  | [], _, _ => rfl
  | f :: fs, last, h => by
    have hf := Formula.eval_congr f (h.mono (by simp [operandsOfAll]))
    have hfs (v : Json) := firstTrue_congr fs v (h.mono (by simp [operandsOfAll]))
    simp only [firstTrue, hf, hfs]
end

/-- The value of an expression depends on its texts. -/
theorem expressionValue_congr {cs : List Char}
    (h : engine.Agree engine' (expressionTexts cs) context) :
    expressionValue engine cs context = expressionValue engine' cs context :=
  Formula.eval_congr _ h

/-! ### Templates -/

theorem segmentText_congr {s : Segment} (h : engine.Agree engine' s.texts context) :
    segmentText engine context s = segmentText engine' context s := by
  cases s with
  | literal => rfl
  | placeholder body => rw [segmentText, segmentText, expressionValue_congr h]

theorem segmentTexts_congr {segments : List Segment}
    (h : engine.Agree engine' (segments.flatMap Segment.texts) context) :
    segmentTexts engine context segments = segmentTexts engine' context segments := by
  induction segments with
  | nil => rfl
  | cons s segments ih =>
    rw [List.flatMap_cons] at h
    rw [segmentTexts, segmentTexts, ih (h.mono (List.subset_append_right _ _)),
      segmentText_congr (h.mono (List.subset_append_left _ _))]

section

variable {t : String} (h : engine.Agree engine' (texts t) context)

include h

/-- The segments of a template have no other texts than it has itself. -/
theorem agree_segments {segments : List Segment}
    (hs : segmentsOf (Text.trimmed t.toList) = .ok segments) :
    engine.Agree engine' (segments.flatMap Segment.texts) context ∧
      engine.Agree engine' (expressionTexts (inlined segments)) context := by
  have hsegments : Segment.ofChars? (Text.trimmed t.toList) = some segments := by
    unfold segmentsOf at hs
    split at hs
    next segments' h' => rw [h', Except.ok.inj hs]
    next => cases hs
  unfold texts at h
  rw [hsegments] at h
  constructor
  · exact h.mono fun x hx => List.mem_append_right _ (List.mem_append_left _ hx)
  · exact h.mono fun x hx => List.mem_append_right _ (List.mem_append_right _ hx)

/-- **The value of an expression depends on its texts.** -/
theorem evaluateExpression_congr :
    evaluateExpression engine t context = evaluateExpression engine' t context := by
  have hself : engine.Agree engine' (expressionTexts t.toList) context :=
    h.mono fun x hx => List.mem_append_left _ (List.mem_append_left _ hx)
  rw [evaluateExpression, evaluateExpression, expressionValue_congr hself]

/-- **The value of a template depends on its texts.** -/
theorem evaluate_congr : evaluate engine t context = evaluate engine' t context := by
  unfold evaluate
  dsimp only
  split
  · cases hs : segmentsOf (Text.trimmed t.toList) with
    | error e => rfl
    | ok segments =>
      have hsegments := (agree_segments h hs).1
      -- a single placeholder, or any other segments
      simp only [bind, Except.bind]
      split
      next body =>
        have hbody : engine.Agree engine' (expressionTexts body) context := by
          simpa [Segment.texts] using hsegments
        rw [expressionValue_congr hbody]
      next => rw [segmentTexts_congr hsegments]
  · rfl

/-- The text of a template depends on its texts. -/
theorem render_congr : render engine t context = render engine' t context := by
  rw [render, render, evaluate_congr h]

/-- **The truth of a condition depends on its texts.** -/
theorem evaluateCondition_congr :
    evaluateCondition engine t context = evaluateCondition engine' t context := by
  have hrender : render engine (String.ofList (Text.trimmed t.toList)) context =
      render engine' (String.ofList (Text.trimmed t.toList)) context := by
    refine render_congr (h.mono fun x hx => ?_)
    -- nothing changes where the blanks are gone already
    simp only [texts, String.toList_ofList, trimmed_trimmed, List.mem_append, or_self] at hx ⊢
    exact hx.imp_left .inr
  unfold evaluateCondition
  dsimp only
  split
  · cases hs : segmentsOf (Text.trimmed t.toList) with
    | error e => rfl
    | ok segments =>
      obtain ⟨hsegments, hinlined⟩ := agree_segments h hs
      simp only [bind, Except.bind]
      split
      next body =>
        have hbody : engine.Agree engine' (expressionTexts body) context := by
          simpa [Segment.texts] using hsegments
        rw [expressionValue_congr hbody]
      next => rw [expressionValue_congr hinlined, hrender]
  · rw [expressionValue_congr (h.mono fun x hx => ?_)]
    exact List.mem_append_left _ (List.mem_append_right _ hx)

end

/-- A text without placeholders is its own value. -/
theorem evaluate_of_plain {t : String} (engine : Expr.Engine) (hc : context.isObj = true)
    (ht : hasPlaceholder t.toList = false) : evaluate engine t context = .ok (.str t) := by
  have htrimmed : hasPlaceholder (Text.trimmed t.toList) = false :=
    Bool.eq_false_iff.mpr fun h => Bool.eq_false_iff.mp ht (hasPlaceholder_of_trimmed h)
  simp [evaluate, inObject, hc, htrimmed]

end Template

theorem Expr.Engine.Agree.of_mem {engine engine' : Expr.Engine} {templates : List String}
    {context : Json} (h : engine.Agree engine' (Template.textsOf templates) context) {t : String}
    (ht : t ∈ templates) : engine.Agree engine' (Template.texts t) context :=
  h.mono fun _ hx => List.mem_flatMap.mpr ⟨t, ht, hx⟩

end WorkflowEngine
