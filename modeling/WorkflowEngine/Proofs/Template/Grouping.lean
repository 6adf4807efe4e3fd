import WorkflowEngine.Proofs.Template.Condition

/-!
# Expressions in parentheses

Choices and chains are taken apart only where they stand outside brackets, so an expression in
parentheses goes to the engine as a whole. To an engine that skips parentheses its value is hence
that of the expression without them, also where it is compared with something.

## Main definitions

* `grouped e`: the expression `e` in parentheses
* `IsOperand e`: the expression goes to the engine as a whole
* `HasPlainBlanks e`: all blanks of a text are blanks to the engine

## Main results

* `ofChars_group`: an expression that begins with parentheses goes to the engine as a whole
* `evaluateExpression_grouped`: the value of an expression in parentheses
* `value_in_parentheses`: which values parentheses keep, and what a condition compares
-/

namespace WorkflowEngine.Template

open Text Expr.Token

variable {cs rest : List Char} {c : Char} {engine : Expr.Engine} {context : Json}

/-! ### Preparing a text in parentheses -/

theorem trimEnd_append_cons (hc : isBlank c = false) (l r : List Char) :
    trimEnd (l ++ c :: r) = l ++ c :: trimEnd r := by
  have hreverse : (l ++ c :: r).reverse = r.reverse ++ c :: l.reverse := by simp
  rw [trimEnd, hreverse, dropWhile_append_cons hc]
  simp [trimEnd]

/-- The parentheses around a text stay where they are, and what follows is prepared by itself. -/
theorem prepare_group (cs rest : List Char) :
    prepare ('(' :: (cs ++ ')' :: rest)) = '(' :: (loosen cs ++ ')' :: trimEnd (loosen rest)) := by
  have hloosen :
      loosen ('(' :: (cs ++ ')' :: rest)) = '(' :: (loosen cs ++ ')' :: loosen rest) := by
    have hopen := loosen_append_cons (c := '(') (by decide) (by decide) [] (cs ++ ')' :: rest)
    have hclose := loosen_append_cons (c := ')') (by decide) (by decide) cs rest
    rwa [loosen_nil, hclose] at hopen
  rw [prepare, hloosen, trimmed, trimStart, List.dropWhile_cons_of_neg (by decide),
    ← List.cons_append, trimEnd_append_cons (by decide)]
  rfl

/-- **An expression that begins with parentheses** goes to the engine as a whole if what follows
them has no outer question mark and no outer bar. -/
theorem Formula.ofChars_group (h : isBalancedFrom .outside 0 cs = true)
    (hrest : IsQuiet (annotate (trimEnd (loosen rest)))) :
    Formula.ofChars ('(' :: (cs ++ ')' :: rest)) =
      .operand (String.ofList ('(' :: (loosen cs ++ ')' :: trimEnd (loosen rest)))) := by
  have hloosen : isBalancedFrom .outside 0 (loosen cs) = true := by
    rwa [isBalancedFrom_loosen]
  have hquiet : IsQuiet (annotate ('(' :: (loosen cs ++ ')' :: trimEnd (loosen rest)))) := by
    rw [annotate_group hloosen]
    exact (isQuiet_map_false _).append hrest
  exact Formula.ofChars_of_operand (prepare_group cs rest) (List.cons_ne_nil _ _)
    (splitChoice_of_isQuiet hquiet) (length_splitAlternatives_of_isQuiet hquiet)

/-! ### Values -/

/-- The text in parentheses. -/
def grouped (e : String) : String := "(" ++ e ++ ")"

/-- The text with the strict comparisons spelled as the loose ones. -/
def loosened (e : String) : String := String.ofList (loosen e.toList)

@[simp] theorem toList_grouped (e : String) :
    (grouped e).toList = '(' :: (e.toList ++ [')']) := by
  simp [grouped]

/-- **The value of an expression in parentheses** is what the engine makes of the expression. -/
theorem evaluateExpression_grouped (hgroup : engine.SkipsParentheses) {e : String}
    (he : IsBalanced e) (hc : context.isObj = true) :
    evaluateExpression engine (grouped e) context =
      (engine (loosened e) context).mapError (.operand (grouped (loosened e))) := by
  have hloosen : isBalancedFrom .outside 0 (loosen e.toList) = true := by
    rwa [isBalancedFrom_loosen]
  have htrim : trimEnd (loosen []) = [] := by rw [loosen_nil]; rfl
  have htext : String.ofList ('(' :: (loosen e.toList ++ [')'])) = grouped (loosened e) := by
    rw [← String.toList_inj, toList_grouped, loosened, String.toList_ofList, String.toList_ofList]
  rw [evaluateExpression_of_isObj hc, toList_grouped, expressionValue,
    Formula.ofChars_group he (by rw [htrim]; exact fun p hp => absurd hp List.not_mem_nil),
    Formula.eval_operand, htrim, hgroup _ _ hloosen, htext]
  rfl

theorem mapError_eq_ok_iff {α β γ : Type} {f : α → β} {r : Except α γ} {a : γ} :
    r.mapError f = .ok a ↔ r = .ok a := by
  cases r <;> simp [Except.mapError]

/-- **The expression goes to the engine as a whole**: it is not blank, and there is no choice and no
chain in it outside quotes and brackets. -/
def IsOperand (e : String) : Prop := ∃ text, Formula.ofChars e.toList = .operand text

/-- **All blanks of a text are blanks to the engine.** -/
def HasPlainBlanks (e : String) : Prop := ∀ c ∈ e.toList, isBlank c = true → isSpace c = true

instance (e : String) : Decidable (HasPlainBlanks e) :=
  List.decidableBAll (fun c => isBlank c = true → isSpace c = true) e.toList

/-- **Parentheses keep the value of an operand.** -/
theorem evaluateExpression_of_isOperand (hblanks : engine.SkipsBlanks) {e : String}
    (ho : IsOperand e) (hb : HasPlainBlanks e) (hc : context.isObj = true) {v : Json} :
    evaluateExpression engine e context = .ok v ↔ engine (loosened e) context = .ok v := by
  obtain ⟨text, htext⟩ := ho
  rw [evaluateExpression_of_isObj hc, expressionValue, htext, Formula.eval_operand,
    mapError_eq_ok_iff, Formula.eq_of_ofChars_eq_operand htext, prepare,
    hblanks _ _ fun c hc hblank => hb c (mem_of_mem_loosen hc hblank) hblank]
  rfl

/-! ### Comparisons -/

/-- **A text goes on with a comparison**: an operator that compares, and a name or a literal. -/
structure Compares (rest : String) (op : Expr.Operator) (right : Expr.Expression) : Prop where
  level : op.level = 1
  scanned : ∃ t, scan (loosened rest) = some [.op op, t] ∧ Expr.Expression.ofToken? t = some right

/-- An expression in a placeholder, and what follows it. -/
def followed (e rest : String) : List Segment := [.placeholder e.toList, .literal rest.toList]

theorem inlinedText_followed (e rest : String) :
    inlinedText (followed e rest) = grouped e ++ rest := by
  rw [← String.toList_inj, inlinedText, String.toList_ofList, String.toList_append, toList_grouped]
  simp [inlined, followed, inlinedSegment]

namespace Compares

variable {e rest : String} {op : Expr.Operator} {right : Expr.Expression} {v w : Json}
  (h : Compares rest op right)

include h

/-- The blanks at the end of what is compared with do not matter. -/
theorem exists_scan : ∃ t, scan (String.ofList (trimEnd (loosen rest.toList))) = some [.op op, t] ∧
    Expr.Expression.ofToken? t = some right := by
  obtain ⟨t, hscan, ht⟩ := h.scanned
  obtain ⟨hall, hts⟩ := of_scan hscan
  have hall' : (trimEnd (loosen rest.toList)).all (fun c => c.toNat < 128) = true :=
    List.all_eq_true.mpr fun c hc => List.all_eq_true.mp hall c
      ((List.rdropWhile_prefix isBlank _).subset hc)
  exact ⟨t, by rw [scan_ofList, if_pos hall', tokens_trimEnd hall, hts], ht⟩

/-- What is compared with has no outer question mark and no outer bar. -/
theorem isQuiet : IsQuiet (annotate (trimEnd (loosen rest.toList))) := by
  obtain ⟨t, hscan, ht⟩ := h.exists_scan
  refine isQuiet_of_tokens (of_scan hscan).2 (fun u hu => ?_) 0
  rcases List.mem_pair.mp hu with rfl | rfl
  · refine ⟨nofun, nofun, fun hor => ?_⟩
    cases hor
    exact absurd h.level (by decide)
  · refine ⟨?_, ?_, ?_⟩ <;> (rintro rfl; cases ht)

/-- **A comparison compares the value of what stands in parentheses.** -/
theorem evaluateExpression_eq (hgroup : engine.SkipsParentheses) (hcompare : engine.ComparesGroups)
    (he : IsBalanced e) (hc : context.isObj = true)
    (hv : evaluateExpression engine (grouped e) context = .ok v)
    (hw : right.eval context = .ok w) : ∃ text,
    evaluateExpression engine (grouped e ++ rest) context =
      (Expr.apply op v w).mapError (.operand text) := by
  rw [evaluateExpression_grouped hgroup he hc, mapError_eq_ok_iff] at hv
  have htext : (grouped e ++ rest).toList = '(' :: (e.toList ++ ')' :: rest.toList) := by
    simp
  obtain ⟨t, hscan, ht⟩ := h.exists_scan
  rw [evaluateExpression_of_isObj hc, htext, expressionValue, Formula.ofChars_group he h.isQuiet,
    Formula.eval_operand, hcompare _ _ _ _ _ _ _ _ h.level hscan ht hv hw]
  exact ⟨_, rfl⟩

/-- **A condition compares the value of what stands in parentheses.** -/
theorem evaluateCondition_eq (hgroup : engine.SkipsParentheses) (hcompare : engine.ComparesGroups)
    {t : String} (he : IsBalanced e) (hc : context.isObj = true)
    (ht : IsMixed t (followed e rest))
    (hv : evaluateExpression engine (grouped e) context = .ok v)
    (hw : right.eval context = .ok w) : evaluateCondition engine t context =
      match Expr.apply op v w with
      | .ok r => .ok r.truth
      | .error _ => (segmentTexts engine context (followed e rest)).map Text.truth := by
  obtain ⟨text, htext⟩ := h.evaluateExpression_eq hgroup hcompare he hc hv hw
  rw [ht.evaluateCondition_eq hc, inlinedText_followed, htext]
  cases Expr.apply op v w <;> rfl

end Compares

/-- **What parentheses do to a value.** An expression in parentheses has the value that the engine
finds for the expression as a whole. That is the value of the expression wherever it goes to the
engine as a whole anyway; a choice or a chain is read by the rules of the engine instead. In a
condition, what a placeholder is compared with is compared with the value in parentheses. All this
holds for any engine that skips parentheses and blanks and compares what stands in parentheses. -/
theorem value_in_parentheses {engine : Expr.Engine} (hgroup : engine.SkipsParentheses)
    (hblanks : engine.SkipsBlanks) (hcompare : engine.ComparesGroups) {e : String} {context : Json}
    (he : IsBalanced e) (hc : context.isObj = true) :
    (∀ v, evaluateExpression engine (grouped e) context = .ok v ↔
      engine (loosened e) context = .ok v) ∧
    (IsOperand e → HasPlainBlanks e → ∀ v, evaluateExpression engine e context = .ok v ↔
      evaluateExpression engine (grouped e) context = .ok v) ∧
    (∀ t rest op right v w, IsMixed t (followed e rest) → Compares rest op right →
      evaluateExpression engine (grouped e) context = .ok v → right.eval context = .ok w →
        evaluateCondition engine t context =
          match Expr.apply op v w with
          | .ok r => .ok r.truth
          | .error _ => (segmentTexts engine context (followed e rest)).map Text.truth) ∧
    (∀ t rest op right v w, IsMixed t (followed e rest) → Compares rest op right →
      op = .equal ∨ op = .notEqual →
      evaluateExpression engine (grouped e) context = .ok v → right.eval context = .ok w →
        ∃ b, Expr.apply op v w = .ok (.bool b) ∧
          evaluateCondition engine t context = .ok b) := by
  have hgrouped (v : Json) : evaluateExpression engine (grouped e) context = .ok v ↔
      engine (loosened e) context = .ok v := by
    rw [evaluateExpression_grouped hgroup he hc, mapError_eq_ok_iff]
  refine ⟨hgrouped, fun ho hb v => ?_, fun t rest op right v w ht hrest hv hw => ?_,
    fun t rest op right v w ht hrest hop hv hw => ?_⟩
  · rw [hgrouped, evaluateExpression_of_isOperand hblanks ho hb hc]
  · exact hrest.evaluateCondition_eq hgroup hcompare he hc ht hv hw
  · obtain ⟨b, hb⟩ := Expr.exists_apply_of_equality hop v w
    refine ⟨b, hb, ?_⟩
    rw [hrest.evaluateCondition_eq hgroup hcompare he hc ht hv hw, hb]
    rfl

/-- A context with one name. -/
def named : Json := .obj [("a", .str "x")]

theorem compares_text : Compares " == 'x'" .equal (.text "x") where
  level := rfl
  scanned := by
    have hloosened : loosened " == 'x'" = " == 'x'" := by cbv
    exact ⟨_, by rw [hloosened]; rfl, rfl⟩

theorem isMixed_name : IsMixed "\x7b\x7b a \x7d\x7d == 'x'" (followed "a" " == 'x'") where
  hasPlaceholder := by decide +kernel
  ofChars? := by cbv
  several := by simp [followed]

/-- A name keeps its value in parentheses, and that is what is compared. -/
theorem value_in_parentheses_name :
    evaluateExpression Expr.engine "a" named = .ok (.str "x") ∧
    evaluateExpression Expr.engine (grouped "a") named = .ok (.str "x") ∧
    evaluateCondition Expr.engine "\x7b\x7b a \x7d\x7d == 'x'" named = .ok true := by
  have hbalanced : IsBalanced "a" := by decide
  have hc : named.isObj = true := rfl
  obtain ⟨hgrouped, hoperand, hcompared, -⟩ :=
    value_in_parentheses Expr.skipsParentheses_engine Expr.skipsBlanks_engine
      Expr.comparesGroups_engine hbalanced hc
  have hloosened : loosened "a" = "a" := by cbv
  have hvalue : evaluateExpression Expr.engine (grouped "a") named = .ok (.str "x") :=
    (hgrouped _).mpr (by rw [hloosened]; rfl)
  have hname : IsOperand "a" := ⟨"a", Formula.ofChars_of_operand (p := ['a']) (by cbv)
    (List.cons_ne_nil _ _) rfl rfl⟩
  refine ⟨(hoperand hname (by decide) _).mpr hvalue, hvalue, ?_⟩
  rw [hcompared _ _ _ _ _ (.str "x") isMixed_name compares_text hvalue rfl]
  rfl

/-- A choice on a comparison. -/
def choice : String := "'a' == 'a' ? 'x' : 'y'"

/-- A comparison of what is chosen. -/
def comparedChoice : String := "\x7b\x7b 'a' == 'a' ? 'x' : 'y' \x7d\x7d == 'x'"

theorem ofChars_choice : Formula.ofChars choice.toList =
    .choice (.operand "'a' == 'a'") (.operand "'x'") (.operand "'y'") := by
  have hcondition : Formula.ofChars "'a' == 'a' ".toList = .operand "'a' == 'a'" :=
    Formula.ofChars_of_operand (p := "'a' == 'a'".toList) (by cbv) (by decide) rfl rfl
  have hwhenTrue : Formula.ofChars " 'x' ".toList = .operand "'x'" :=
    Formula.ofChars_of_operand (p := "'x'".toList) (by cbv) (by decide) rfl rfl
  have hwhenFalse : Formula.ofChars " 'y'".toList = .operand "'y'" :=
    Formula.ofChars_of_operand (p := "'y'".toList) (by cbv) (by decide) rfl rfl
  have hsplit : splitChoice (annotate choice.toList) =
      some ("'a' == 'a' ".toList, " 'x' ".toList, " 'y'".toList) := rfl
  have hprepare : prepare choice.toList = choice.toList := by cbv
  rw [Formula.ofChars_of_choice hprepare (by decide) hsplit, hcondition, hwhenTrue, hwhenFalse]

theorem evaluateExpression_choice :
    evaluateExpression Expr.engine choice (.obj []) = .ok (.str "x") := by
  have hequals : scan "'a' == 'a'" = some [.text "a", .op .equal, .text "a"] := rfl
  have hcondition : Expr.engine "'a' == 'a'" (.obj []) = .ok (.bool true) :=
    Expr.engine_of_tokens (e := .binary .equal (.text "a") (.text "a")) hequals rfl rfl
  have hquoted : scan "'x'" = some [.text "x"] := rfl
  have hwhenTrue : Expr.engine "'x'" (.obj []) = .ok (.str "x") :=
    Expr.engine_of_tokens (e := .text "x") hquoted rfl rfl
  rw [evaluateExpression_of_isObj rfl, expressionValue, ofChars_choice, Formula.eval,
    Formula.eval_operand, Formula.eval_operand, hcondition, hwhenTrue]
  rfl

/-- To the engine, the choice is the right side of the comparison. -/
theorem engine_choice : Expr.engine (loosened choice) (.obj []) = .ok (.bool false) := by
  have hloosened : loosened choice = choice := by cbv
  have htokens : scan choice = some [.text "a", .op .equal, .text "a", .mark .question,
      .text "x", .mark .colon, .text "y"] := rfl
  rw [hloosened]
  exact Expr.engine_of_tokens htokens
    (e := .binary .equal (.text "a") (.choice (.text "a") (.text "x") (.text "y"))) rfl rfl

/-- Parentheses change the value of a choice on a comparison, and so the truth of a condition. -/
theorem parentheses_change_choice :
    IsBalanced choice ∧
    evaluateExpression Expr.engine choice (.obj []) = .ok (.str "x") ∧
    evaluateExpression Expr.engine (grouped choice) (.obj []) = .ok (.bool false) ∧
    evaluateCondition Expr.engine comparedChoice (.obj []) = .ok false := by
  have hbalanced : IsBalanced choice := by decide
  have hgrouped :
      evaluateExpression Expr.engine (grouped choice) (.obj []) = .ok (.bool false) := by
    rw [evaluateExpression_grouped Expr.skipsParentheses_engine hbalanced rfl, engine_choice]
    rfl
  have hmixed : IsMixed comparedChoice (followed choice " == 'x'") :=
    { hasPlaceholder := by decide +kernel
      ofChars? := by cbv
      several := by simp [followed] }
  refine ⟨hbalanced, evaluateExpression_choice, hgrouped, ?_⟩
  rw [compares_text.evaluateCondition_eq Expr.skipsParentheses_engine Expr.comparesGroups_engine
    hbalanced rfl hmixed hgrouped rfl]
  rfl

end WorkflowEngine.Template
