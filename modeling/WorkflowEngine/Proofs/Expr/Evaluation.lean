import WorkflowEngine.Expr.Evaluation

/-!
# Faults of evaluation

Only a text that is no expression is malformed. An expression that was read may still fail, but
for a reason that lies in the values.

## Main results

* `Expression.eval_isWellFormed`: no evaluation finds an expression malformed
* `engine_ne_malformed_iff`: the texts that are expressions
-/

namespace WorkflowEngine.Expr

/-- A result other than that the text is malformed. -/
def IsWellFormed {α : Type} (r : Except Fault α) : Prop := r ≠ .error .malformed

namespace IsWellFormed

variable {α β : Type}

theorem ok (a : α) : IsWellFormed (.ok a : Except Fault α) := nofun

theorem bind {r : Except Fault α} {f : α → Except Fault β} (h : IsWellFormed r)
    (hf : ∀ a, IsWellFormed (f a)) : IsWellFormed (r >>= f) := by
  cases r with
  | ok a => exact hf a
  | error e => exact fun he => h (by cases he; rfl)

theorem map {r : Except Fault α} (h : IsWellFormed r) (f : α → β) : IsWellFormed (r.map f) := by
  cases r with
  | ok a => exact nofun
  | error e => exact fun he => h (by cases he; rfl)

end IsWellFormed

theorem applyTexts_isWellFormed (op : Operator) (s t : String) :
    IsWellFormed (applyTexts op s t) := by
  unfold applyTexts
  split <;> exact nofun

theorem apply_isWellFormed (op : Operator) (left right : Json) :
    IsWellFormed (apply op left right) := by
  unfold apply
  split
  case h_4 => exact applyTexts_isWellFormed _ _ _
  all_goals exact nofun

theorem select_isWellFormed (subject index : Json) : IsWellFormed (select subject index) := by
  unfold select
  split <;> exact nofun

variable {context : Json}

mutual
/-- **No evaluation finds an expression malformed.** -/
theorem Expression.eval_isWellFormed : ∀ e : Expression, IsWellFormed (e.eval context)
  | .number x => .ok _
  | .text s => .ok _
  | .bool b => .ok _
  | .null => .ok _
  | .list items => (evalList_isWellFormed items).map _
  | .object fields => (evalFields_isWellFormed [] fields).map _
  | .name n => by
    rw [Expression.eval]
    split <;> exact nofun
  | .binary op left right => by
    have hl := Expression.eval_isWellFormed left
    have hr := Expression.eval_isWellFormed right
    cases op
    case or =>
      rw [Expression.eval]
      split
      · exact hl
      · exact hr
    case and =>
      rw [Expression.eval]
      refine hl.bind fun l => ?_
      split
      · exact hr
      · exact .ok _
    all_goals
      rw [Expression.eval]
      exact hl.bind fun l => hr.bind fun r => apply_isWellFormed _ _ _
      all_goals exact nofun
  | .transform subject name args => by
    rw [Expression.eval]
    refine (Expression.eval_isWellFormed subject).bind fun s =>
      (evalList_isWellFormed args).bind fun vs => ?_
    split <;> exact nofun
  | .index subject i => by
    rw [Expression.eval]
    exact (Expression.eval_isWellFormed subject).bind fun s =>
      (Expression.eval_isWellFormed i).bind fun v => select_isWellFormed _ _
  | .filter subject field op value => by
    rw [Expression.eval]
    refine (Expression.eval_isWellFormed subject).bind fun s => ?_
    split
    · exact (Expression.eval_isWellFormed value).bind fun v => .ok _
    · exact nofun
  | .field subject n => by
    rw [Expression.eval]
    exact (Expression.eval_isWellFormed subject).bind fun s => .ok _
  | .choice condition whenTrue whenFalse => by
    rw [Expression.eval]
    split
    · exact Expression.eval_isWellFormed whenTrue
    · exact Expression.eval_isWellFormed whenFalse

theorem evalList_isWellFormed : ∀ es : List Expression, IsWellFormed (evalList context es)
  | [] => .ok _
  | e :: es => by
    rw [evalList]
    exact (Expression.eval_isWellFormed e).bind fun v => (evalList_isWellFormed es).bind fun vs =>
      .ok _

theorem evalFields_isWellFormed : ∀ (seen : Dict Json) (fields : List (String × Expression)),
    IsWellFormed (evalFields context seen fields)
  | seen, [] => .ok _
  | seen, (key, e) :: rest => by
    rw [evalFields]
    split
    · exact nofun
    · exact (Expression.eval_isWellFormed e).bind fun v => evalFields_isWellFormed _ rest
end

/-- **The texts that are expressions** are those that the engine does not find malformed. -/
theorem engine_ne_malformed_iff {text : String} :
    IsWellFormed (engine text context) ↔ (Expression.read text).isSome = true := by
  unfold engine
  cases Expression.read text with
  | none => exact ⟨fun h => absurd rfl h, nofun⟩
  | some e => exact ⟨fun _ => rfl, fun _ => e.eval_isWellFormed⟩

end WorkflowEngine.Expr
