import WorkflowEngine.Proofs.Template.Condition
import WorkflowEngine.Proofs.Template.Literals
import WorkflowEngine.Proofs.Template.Outer

/-!
# Outer operators

A chain of alternatives and a choice are taken apart at their outer operators, and each part is an
expression of its own. Where the parts are closed and have no outer operator that could be taken for
one of the whole, the value of the whole is put together from the values of the parts. Every part is
shorter than the whole, so that taking apart comes to an end whatever the text.

## Main definitions

* `IsClosed e`: quotes and brackets are closed, and strict comparisons stand by themselves
* `alternatives cs`: the alternatives of an expression; its only one, if it is no chain
* `firstTruthy vs`: the first true value, or else the last one
* `evaluateWithin depth cs`: the value of an expression by a recursion of limited depth

## Main results

* `Formula.ofChars_of_splitChoice`, `Formula.ofChars_of_alternatives`: what is a choice, a chain
* `alternatives_append`: the alternatives of two expressions joined by bars
* `evaluateWithin_eq`: a depth greater than the length of the text is enough
* `operators_compose`: the values of chains and choices
-/

namespace WorkflowEngine.Template

open Text

variable {engine : Expr.Engine} {context last : Json} {cs l r : List Char} {ps rs : List Placed}

/-! ### Parts of an expression -/

theorem Formula.ofChars_blanks (hl : ∀ c ∈ l, isBlank c = true) (hr : ∀ c ∈ r, isBlank c = true)
    (cs : List Char) : Formula.ofChars (l ++ cs ++ r) = Formula.ofChars cs := by
  rw [← Formula.ofChars_trimmed, trimmed_append_blanks hl hr, Formula.ofChars_trimmed]

/-- Isolated comparisons may be spelled loosely before. -/
theorem Formula.ofChars_loosen (h : IsIsolated cs) :
    Formula.ofChars (loosen cs) = Formula.ofChars cs :=
  Formula.ofChars_congr (by rw [prepare, loosen_loosen h]; rfl)

theorem Formula.ofChars_spaced (hl : ∀ c ∈ l, isBlank c = true) (hr : ∀ c ∈ r, isBlank c = true)
    (h : IsIsolated cs) : Formula.ofChars (l ++ loosen cs ++ r) = Formula.ofChars cs := by
  rw [Formula.ofChars_blanks hl hr, Formula.ofChars_loosen h]

/-- What is prepared is scanned as before but for the blanks around it. -/
theorem exists_annotate_loosen (cs : List Char) : ∃ ps rs : List Placed,
    annotate (loosen cs) = ps ++ annotate (prepare cs) ++ rs ∧
      (∀ p ∈ ps, isBlank p.1 = true) ∧ ∀ p ∈ rs, isBlank p.1 = true := by
  obtain ⟨l, r, hl, hr, hcs⟩ := exists_eq_append_trimmed (loosen cs)
  obtain ⟨ps, rs, heq, -, -, hps, hrs⟩ := exists_annotate_blanks hl hr (prepare cs)
  exact ⟨ps, rs, hcs ▸ heq, hps, hrs⟩

/-- **What is a choice**: a text that is taken apart as one where its comparisons are spelled
loosely. -/
theorem Formula.ofChars_of_splitChoice {c t f : List Char}
    (h : splitChoice (annotate (loosen cs)) = some (c, t, f)) :
    Formula.ofChars cs = .choice (.ofChars c) (.ofChars t) (.ofChars f) := by
  obtain ⟨ps, rs, heq, hps, hrs⟩ := exists_annotate_loosen cs
  rw [heq, splitChoice_blanks hps hrs] at h
  obtain ⟨⟨c', t', f'⟩, hsplit, hparts⟩ := Option.map_eq_some_iff.mp h
  cases hparts
  have hne : prepare cs ≠ [] := by
    intro hnil
    rw [hnil] at hsplit
    cases hsplit
  have hc := Formula.ofChars_blanks (r := []) (List.forall_mem_map.mpr hps) (by simp) c'
  have hf := Formula.ofChars_blanks (l := []) (by simp) (List.forall_mem_map.mpr hrs) f'
  rw [List.append_nil] at hc
  rw [Formula.ofChars_of_choice rfl hne hsplit, hc]
  exact congrArg _ hf.symm

/-! ### Alternatives -/

/-- **The alternatives of an expression**; its only one, if it is no chain. -/
def alternatives (cs : List Char) : List Formula :=
  (splitAlternatives (annotate (loosen cs))).map Formula.ofChars

theorem map_ofChars_blanks (hps : ∀ p ∈ ps, isBlank p.1 = true) (hrs : ∀ p ∈ rs, isBlank p.1 = true)
    (inner : List Placed) :
    (splitAlternatives (ps ++ inner ++ rs)).map Formula.ofChars =
      (splitAlternatives inner).map Formula.ofChars := by
  have htrimmed : Formula.ofChars = Formula.ofChars ∘ trimmed :=
    funext fun cs => (Formula.ofChars_trimmed cs).symm
  rw [htrimmed, ← List.map_map, ← List.map_map, map_trimmed_splitAlternatives_blanks hps hrs]

theorem alternatives_eq (cs : List Char) :
    alternatives cs = (splitAlternatives (annotate (prepare cs))).map Formula.ofChars := by
  obtain ⟨ps, rs, heq, hps, hrs⟩ := exists_annotate_loosen cs
  rw [alternatives, heq, map_ofChars_blanks hps hrs]

theorem alternatives_ne_nil (cs : List Char) : alternatives cs ≠ [] :=
  mt List.map_eq_nil_iff.mp (alternativesFrom_ne_nil [] (annotate (loosen cs)))

/-- The question marks and colons are not prepared. -/
theorem marks_prepare (cs : List Char) : marks (prepare cs) = marks cs := by
  obtain ⟨ps, rs, heq, hps, hrs⟩ := exists_annotate_loosen cs
  rw [← marks_loosen cs, marks, marks, heq, marksOf_append, marksOf_append, marksOf_blanks hps,
    marksOf_blanks hrs, List.append_nil]
  rfl

/-- **What is a chain**: a text without an outer question mark that has several alternatives. -/
theorem Formula.ofChars_of_alternatives (hq : '?' ∉ marks cs)
    (hmany : 1 < (alternatives cs).length) : Formula.ofChars cs = .firstTrue (alternatives cs) := by
  rw [alternatives_eq] at hmany ⊢
  rw [List.length_map] at hmany
  have hne : ¬(prepare cs).isEmpty = true := by
    intro hnil
    rw [List.isEmpty_iff.mp hnil] at hmany
    exact absurd hmany (by decide)
  rw [← marks_prepare] at hq
  rw [Formula.ofChars_eq, if_neg hne, splitChoice_of_no_question hq]
  exact if_pos hmany

/-- A text that is no chain is its own alternative. -/
theorem alternatives_of_length (hi : IsIsolated cs) (hone : (alternatives cs).length = 1) :
    alternatives cs = [Formula.ofChars cs] := by
  rw [alternatives, List.length_map] at hone
  rw [alternatives, splitAlternatives, eq_singleton_of_length_alternativesFrom hone,
    map_fst_annotate]
  exact congrArg (fun f => [f]) (Formula.ofChars_loosen hi)

/-! ### Values -/

/-- The value of an evaluation; null if it fails. -/
def orNull : Except EvalError Json → Json
  | .ok v => v
  | .error _ => .null

/-- **The first true value**, or else the last one. -/
def firstTruthy (vs : List Json) : Json := (vs.find? Json.truth).getD (vs.getLastD .null)

theorem firstTrue_cons (f : Formula) (fs : List Formula) :
    firstTrue engine context last (f :: fs) =
      if (orNull (f.eval engine context)).truth then orNull (f.eval engine context)
      else firstTrue engine context (orNull (f.eval engine context)) fs := by
  rw [firstTrue]
  cases f.eval engine context <;> rfl

/-- The value before the first alternative does not matter. -/
theorem firstTrue_of_ne_nil {fs : List Formula} (h : fs ≠ []) (last last' : Json) :
    firstTrue engine context last fs = firstTrue engine context last' fs := by
  obtain ⟨f, fs, rfl⟩ := List.exists_cons_of_ne_nil h
  rw [firstTrue_cons, firstTrue_cons]

theorem firstTrue_append (hlast : last.truth = false) (fs gs : List Formula) :
    firstTrue engine context last (fs ++ gs) =
      if (firstTrue engine context last fs).truth then firstTrue engine context last fs
      else firstTrue engine context (firstTrue engine context last fs) gs := by
  induction fs generalizing last with
  | nil =>
    rw [List.nil_append, firstTrue, hlast]
    rfl
  | cons f fs ih =>
    rw [List.cons_append, firstTrue_cons, firstTrue_cons]
    split
    next htrue => rfl
    next hfalse => exact ih (Bool.not_eq_true _ ▸ hfalse)

/-- **The value of an expression** without an outer question mark is the first true one of its
alternatives, or that of the last of them. -/
theorem orNull_expressionValue (hi : IsIsolated cs) (hq : '?' ∉ marks cs) :
    orNull (expressionValue engine cs context) =
      firstTrue engine context .null (alternatives cs) := by
  have hpos := List.length_pos_of_ne_nil (alternatives_ne_nil cs)
  rcases Nat.lt_or_eq_of_le (Nat.succ_le_of_lt hpos) with hmany | hone
  · rw [expressionValue, Formula.ofChars_of_alternatives hq hmany, Formula.eval]
    rfl
  · rw [alternatives_of_length hi hone.symm, firstTrue_cons, firstTrue, ite_self]
    rfl

/-- **The first true one** of the alternatives of several expressions. -/
theorem firstTrue_flatMap {es : List (List Char)} (hes : ∀ e ∈ es, IsIsolated e ∧ '?' ∉ marks e)
    (hlast : last.truth = false) :
    firstTrue engine context last (es.flatMap alternatives) =
      ((es.map fun e => orNull (expressionValue engine e context)).find? Json.truth).getD
        ((es.map fun e => orNull (expressionValue engine e context)).getLastD last) := by
  induction es generalizing last with
  | nil => rfl
  | cons e es ih =>
    obtain ⟨hi, hq⟩ := hes e List.mem_cons_self
    rw [List.flatMap_cons, firstTrue_append hlast,
      firstTrue_of_ne_nil (alternatives_ne_nil e) last .null, ← orNull_expressionValue hi hq,
      List.map_cons, List.find?_cons, List.getLastD_cons]
    cases hv : (orNull (expressionValue engine e context)).truth with
    | true => simp
    | false => simpa using ih (fun e he => hes e (List.mem_cons_of_mem _ he)) hv

/-! ### Joined expressions -/

/-- **A closed text**: its quotes and brackets are closed, and no strict comparison is next to
another sign of equality. -/
structure IsClosed (e : String) : Prop where
  balanced : IsBalanced e
  isolated : IsIsolated e.toList

instance (e : String) : Decidable (IsClosed e) :=
  decidable_of_iff (IsBalanced e ∧ IsIsolated e.toList)
    ⟨fun h => ⟨h.1, h.2⟩, fun h => ⟨h.balanced, h.isolated⟩⟩

theorem IsClosed.loosen_balanced {e : String} (h : IsClosed e) :
    isBalancedFrom .outside 0 (loosen e.toList) = true :=
  (isBalancedFrom_loosen e.toList .outside 0).trans h.balanced

/-- What stands between two alternatives. -/
def bars : List Char := [' ', '|', '|', ' ']

/-- **The alternatives of two expressions joined by bars** are those of the one and of the other. -/
theorem alternatives_append (hl : isBalancedFrom .outside 0 (loosen l) = true) (r : List Char) :
    alternatives (l ++ bars ++ r) = alternatives l ++ alternatives r := by
  have hbars : annotate (bars ++ loosen r) =
      (' ', true) :: ('|', true) :: ('|', true) :: (' ', true) :: annotate (loosen r) := rfl
  have hblank : ∀ p ∈ [((' ', true) : Placed)], isBlank p.1 = true := by decide
  have hnone : ∀ p ∈ ([] : List Placed), isBlank p.1 = true := by simp
  have hleft := map_ofChars_blanks hnone hblank (annotate (loosen l))
  have hright := map_ofChars_blanks hblank hnone (annotate (loosen r))
  rw [List.append_nil] at hright
  rw [alternatives, loosen_append_append (by simp [bars]) (by simp [bars]), List.append_assoc,
    annotate_append hl, hbars, splitAlternatives,
    alternativesFrom_append_bars (by decide), List.map_append]
  exact congrArg₂ _ hleft hright

theorem marks_append (hl : isBalancedFrom .outside 0 l = true) (r : List Char) :
    marks (l ++ bars ++ r) = marks l ++ marks r := by
  rw [List.append_assoc, marks, annotate_append hl, marksOf_append]
  rfl

/-- A chain of closed expressions: its alternatives are those of the expressions. -/
theorem alternatives_intercalate {es : List String} (hne : es ≠ []) (hes : ∀ e ∈ es, IsClosed e) :
    alternatives (" || ".intercalate es).toList = (es.map String.toList).flatMap alternatives ∧
      marks (" || ".intercalate es).toList = (es.map String.toList).flatMap marks := by
  induction es with
  | nil => exact absurd rfl hne
  | cons e es ih =>
    cases es with
    | nil => simp
    | cons e' es =>
      obtain ⟨halternatives, hmarks⟩ :=
        ih (List.cons_ne_nil _ _) fun e he => hes e (List.mem_cons_of_mem _ he)
      have he := hes e List.mem_cons_self
      have hjoined : (" || ".intercalate (e :: e' :: es)).toList =
          e.toList ++ bars ++ (" || ".intercalate (e' :: es)).toList := by
        rw [String.intercalate_cons_cons, String.toList_append, String.toList_append]
        rfl
      rw [hjoined, alternatives_append he.loosen_balanced, marks_append he.balanced, halternatives,
        hmarks]
      exact ⟨rfl, rfl⟩

/-- **The value of a chain of closed expressions.** -/
theorem expressionValue_intercalate {es : List String} (hlength : 2 ≤ es.length)
    (hes : ∀ e ∈ es, IsClosed e ∧ '?' ∉ marks e.toList) :
    expressionValue engine (" || ".intercalate es).toList context =
      .ok (firstTruthy (es.map fun e => orNull (expressionValue engine e.toList context))) := by
  obtain ⟨e, e', es, rfl⟩ : ∃ e e' rest, es = e :: e' :: rest := by
    match es, hlength with
    | e :: e' :: rest, _ => exact ⟨e, e', rest, rfl⟩
  obtain ⟨halternatives, hmarks⟩ :=
    alternatives_intercalate (List.cons_ne_nil _ _) fun e he => (hes e he).1
  have hmany : 1 < (alternatives (" || ".intercalate (e :: e' :: es)).toList).length := by
    have hfirst := List.length_pos_of_ne_nil (alternatives_ne_nil e.toList)
    have hsecond := List.length_pos_of_ne_nil (alternatives_ne_nil e'.toList)
    simp only [halternatives, List.map_cons, List.flatMap_cons, List.length_append]
    omega
  have hq : '?' ∉ marks (" || ".intercalate (e :: e' :: es)).toList := by
    rw [hmarks]
    simpa using fun e he => (hes e he).2
  have hparts : ∀ cs ∈ (e :: e' :: es).map String.toList, IsIsolated cs ∧ '?' ∉ marks cs :=
    List.forall_mem_map.mpr fun e he => ⟨(hes e he).1.isolated, (hes e he).2⟩
  rw [expressionValue, Formula.ofChars_of_alternatives hq hmany, Formula.eval, halternatives,
    firstTrue_flatMap hparts rfl, List.map_map]
  rfl

/-- **A choice between closed expressions is scanned part by part.** The blanks around the marks go
with the parts. -/
theorem annotate_choice {c t : String} (hc : IsClosed c) (ht : IsClosed t) (f : String) :
    annotate (loosen (c ++ " ? " ++ t ++ " : " ++ f).toList) =
      (annotate (loosen c.toList) ++ [(' ', true)]) ++ ('?', true) ::
        (((' ', true) :: annotate (loosen t.toList) ++ [(' ', true)]) ++ (':', true) ::
          (' ', true) :: annotate (loosen f.toList)) := by
  have hquestion (cs : List Char) : annotate (" ? ".toList ++ cs) =
      (' ', true) :: ('?', true) :: (' ', true) :: annotate cs := rfl
  have hcolon (cs : List Char) : annotate (" : ".toList ++ cs) =
      (' ', true) :: (':', true) :: (' ', true) :: annotate cs := rfl
  simp only [String.toList_append]
  rw [loosen_append_append (by simp) (by simp), loosen_append_append (by simp) (by simp)]
  simp only [List.append_assoc]
  rw [annotate_append hc.loosen_balanced, hquestion, annotate_append ht.loosen_balanced, hcolon]
  simp only [List.cons_append, List.nil_append]

theorem marksOf_annotate_loosen (cs : List Char) :
    marksOf (annotate (loosen cs) ++ [(' ', true)]) = marks cs := by
  have hspace : marksOf [(' ', true)] = [] := rfl
  rw [marksOf_append, hspace, List.append_nil, ← marks_loosen cs]
  rfl

/-- **The structure of a choice** between closed expressions. -/
theorem ofChars_choice_of_closed {c t f : String} (hc : IsClosed c) (hq : '?' ∉ marks c.toList)
    (ht : IsClosed t) (hn : nests 0 (marks t.toList) = true) (hf : IsClosed f) :
    Formula.ofChars (c ++ " ? " ++ t ++ " : " ++ f).toList =
      .choice (.ofChars c.toList) (.ofChars t.toList) (.ofChars f.toList) := by
  have hcondition : '?' ∉ marksOf (annotate (loosen c.toList) ++ [(' ', true)]) := by
    rwa [marksOf_annotate_loosen]
  have hnested :
      nests 0 (marksOf ((' ', true) :: annotate (loosen t.toList) ++ [(' ', true)])) = true := by
    rwa [List.cons_append, marksOf_cons_of_not (by decide), marksOf_annotate_loosen]
  have hsplit := splitChoice_append hcondition hnested ((' ', true) :: annotate (loosen f.toList))
  rw [← annotate_choice hc ht] at hsplit
  have hspace : ∀ c ∈ [' '], isBlank c = true := List.forall_mem_singleton.mpr rfl
  have hnone : ∀ c ∈ ([] : List Char), isBlank c = true := by simp
  rw [Formula.ofChars_of_splitChoice hsplit, ← Formula.ofChars_spaced hnone hspace hc.isolated,
    ← Formula.ofChars_spaced hspace hspace ht.isolated,
    ← Formula.ofChars_spaced hspace hnone hf.isolated]
  simp

/-- **The value of a choice between closed expressions.** -/
theorem expressionValue_choice {c t f : String} (hc : IsClosed c) (hq : '?' ∉ marks c.toList)
    (ht : IsClosed t) (hn : nests 0 (marks t.toList) = true) (hf : IsClosed f) :
    expressionValue engine (c ++ " ? " ++ t ++ " : " ++ f).toList context = (do
      let v ← expressionValue engine c.toList context
      if v.truth then expressionValue engine t.toList context
      else expressionValue engine f.toList context) := by
  rw [expressionValue, ofChars_choice_of_closed hc hq ht hn hf, Formula.eval]
  rfl

/-! ### The depth of the recursion -/

/-- The first true value of several expressions, or else the last one, as far as these are found;
`last` is the value before them. -/
def firstTrueWithin (value : List Char → Option (Except EvalError Json)) (last : Json) :
    List (List Char) → Option Json
  | [] => some last
  | part :: parts => do
    let v := orNull (← value part)
    if v.truth then return v else firstTrueWithin value v parts

/-- **The value of an expression by a recursion of limited depth**; none if the depth does not
suffice. -/
def evaluateWithin (engine : Expr.Engine) (context : Json) :
    Nat → List Char → Option (Except EvalError Json)
  | 0, _ => none
  | depth + 1, cs =>
    if context.isObj then
      if (prepare cs).isEmpty then some (.ok .null)
      else
        match splitChoice (annotate (prepare cs)) with
        | some (c, t, f) => do
          match ← evaluateWithin engine context depth c with
          | .ok v => evaluateWithin engine context depth (if v.truth then t else f)
          | .error e => return .error e
        | none =>
          if 1 < (splitAlternatives (annotate (prepare cs))).length then do
            return .ok (← firstTrueWithin (evaluateWithin engine context depth) .null
              (splitAlternatives (annotate (prepare cs))))
          else
            let text := String.ofList (prepare cs)
            some ((engine text context).mapError (.operand text))
    else some (.error .contextNotObject)

theorem firstTrueWithin_eq {value : List Char → Option (Except EvalError Json)}
    {parts : List (List Char)}
    (h : ∀ part ∈ parts, value part = some (expressionValue engine part context)) (last : Json) :
    firstTrueWithin value last parts =
      some (firstTrue engine context last (parts.map Formula.ofChars)) := by
  induction parts generalizing last with
  | nil => rfl
  | cons part parts ih =>
    have ih := ih fun part hpart => h part (List.mem_cons_of_mem _ hpart)
    rw [firstTrueWithin, h part List.mem_cons_self, List.map_cons, firstTrue_cons]
    simp only [Option.bind_eq_bind, Option.bind_some, ih]
    exact (apply_ite some _ _ _).symm

/-- **A depth greater than the length of the text is enough**, whatever the text. -/
theorem evaluateWithin_eq {depth : Nat} (h : cs.length < depth) :
    evaluateWithin engine context depth cs =
      some (inObject context (expressionValue engine cs context)) := by
  induction depth generalizing cs with
  | zero => exact absurd h (Nat.not_lt_zero _)
  | succ depth ih =>
    have hle := length_prepare_le cs
    rw [evaluateWithin, inObject, expressionValue, Formula.ofChars_eq]
    split
    next hobj =>
      have ih (part : List Char) (hpart : part.length < depth) :
          evaluateWithin engine context depth part =
            some (expressionValue engine part context) := by
        rw [ih hpart, inObject, if_pos hobj]
      split
      next => rfl
      next =>
        cases hsplit : splitChoice (annotate (prepare cs)) with
        | some parts =>
          obtain ⟨c, t, f⟩ := parts
          have hlength := length_splitChoice hsplit
          rw [length_annotate] at hlength
          dsimp only
          rw [ih c (by omega), Formula.eval]
          simp only [Option.bind_eq_bind, Option.bind_some, expressionValue]
          cases (Formula.ofChars c).eval engine context with
          | error e => rfl
          | ok v =>
            dsimp only
            rw [ih _ (by split <;> omega), expressionValue, apply_ite Formula.ofChars]
            exact congrArg some (apply_ite (Formula.eval engine context) _ _ _)
        | none =>
          dsimp only
          by_cases hmany : 1 < (splitAlternatives (annotate (prepare cs))).length
          · have hshorter : ∀ part ∈ splitAlternatives (annotate (prepare cs)),
                part.length < depth := by
              intro part hpart
              have hlength := length_splitAlternatives hpart hmany
              rw [length_annotate] at hlength
              omega
            rw [if_pos hmany, if_pos hmany,
              firstTrueWithin_eq fun part hpart => ih part (hshorter part hpart), Formula.eval]
            rfl
          · rw [if_neg hmany, if_neg hmany, Formula.eval_operand]
    next => rfl

/-! ### Values of chains and choices -/

/-- **How outer operators are evaluated.** The value of a chain of closed expressions is the first
true value of one of them, or else that of the last one, where an expression that fails counts as
null; the context need only be an object. A choice between closed expressions fails where its
condition does, and otherwise comes to what one of the two others comes to. Every text whatever is
evaluated by a recursion with at most one level more than the text has characters. -/
theorem operators_compose (engine : Expr.Engine) (context : Json) :
    (∀ es : List String, 2 ≤ es.length → (∀ e ∈ es, IsClosed e ∧ '?' ∉ marks e.toList) →
      evaluateExpression engine (" || ".intercalate es) context =
        inObject context
          (.ok (firstTruthy (es.map fun e => orNull (evaluateExpression engine e context))))) ∧
    (∀ c t f : String, IsClosed c → '?' ∉ marks c.toList →
      IsClosed t → nests 0 (marks t.toList) = true → IsClosed f →
      evaluateExpression engine (c ++ " ? " ++ t ++ " : " ++ f) context = do
        let v ← evaluateExpression engine c context
        if v.truth then evaluateExpression engine t context
        else evaluateExpression engine f context) ∧
    ∀ (e : String) (depth : Nat), e.toList.length < depth →
      evaluateWithin engine context depth e.toList =
        some (evaluateExpression engine e context) := by
  refine ⟨?_, ?_, ?_⟩
  · intro es hlength hes
    rw [evaluateExpression, expressionValue_intercalate hlength hes]
    cases hobj : context.isObj with
    | true => simp only [evaluateExpression_of_isObj hobj]
    | false => simp [inObject, hobj]
  · intro c t f hc hq ht hn hf
    cases hobj : context.isObj with
    | true => simp only [evaluateExpression_of_isObj hobj, expressionValue_choice hc hq ht hn hf]
    | false =>
      -- the condition fails for the same reason
      simp only [evaluateExpression, inObject, hobj]
      rfl
  · intro e depth h
    exact evaluateWithin_eq h

/-- A chain is the condition of a choice, and one of its alternatives is a choice. -/
theorem operators_compose_nested :
    evaluateExpression Expr.engine "'' || 'x' ? '' ? 'p' : 'q' : 'r'" (.obj []) = .ok (.str "q") ∧
    evaluateWithin Expr.engine (.obj []) 33 "'' || 'x' ? '' ? 'p' : 'q' : 'r'".toList =
      some (.ok (.str "q")) := by
  obtain ⟨hchain, hchoice, hdepth⟩ := operators_compose Expr.engine (.obj [])
  have hvalue (s : String) (hs : ∀ c ∈ s.toList, c.toNat < 128 ∧ c ≠ '\'' ∧ c ≠ '\\')
      (hloosened : loosened s = s) :
      evaluateExpression Expr.engine (quoted '\'' s) (.obj []) = .ok (.str s) := by
    rw [evaluateExpression_quoted Expr.readsQuoted_engine (.inl rfl) hs rfl, hloosened]
  have hempty : evaluateExpression Expr.engine "''" (.obj []) = .ok (.str "") :=
    hvalue "" (by simp) (by cbv)
  have hx : evaluateExpression Expr.engine "'x'" (.obj []) = .ok (.str "x") :=
    hvalue "x" (by simp) (by cbv)
  have hq : evaluateExpression Expr.engine "'q'" (.obj []) = .ok (.str "q") :=
    hvalue "q" (by simp) (by cbv)
  have hcondition : evaluateExpression Expr.engine "'' || 'x'" (.obj []) = .ok (.str "x") := by
    have hvalues := hchain ["''", "'x'"] (by decide) (by decide)
    simp only [List.map_cons, List.map_nil, hempty, hx] at hvalues
    exact hvalues
  have hwhenTrue : evaluateExpression Expr.engine "'' ? 'p' : 'q'" (.obj []) = .ok (.str "q") := by
    have hvalues := hchoice "''" "'p'" "'q'" (by decide) (by decide) (by decide) (by decide)
      (by decide)
    rw [hempty, hq] at hvalues
    exact hvalues
  have hnested : evaluateExpression Expr.engine "'' || 'x' ? '' ? 'p' : 'q' : 'r'" (.obj []) =
      .ok (.str "q") := by
    have hvalues := hchoice "'' || 'x'" "'' ? 'p' : 'q'" "'r'" (by decide) (by decide) (by decide)
      (by decide) (by decide)
    rw [hcondition, hwhenTrue] at hvalues
    exact hvalues
  exact ⟨hnested, hnested ▸ hdepth _ 33 (by decide)⟩

end WorkflowEngine.Template
