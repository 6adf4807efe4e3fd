import WorkflowEngine.Proofs.Task.Termination

/-!
# Steps within other steps

While a step is run within other ones, their frames lie below those of its own task. No transition
looks at them before the step is over. So a step does within other steps what it does by itself, and
what is known of a step that is run by itself holds of it wherever it stands.

## Main definitions

* `Task.above`: a task with further frames below its own

## Main results

* `Task.Placed.step_above`: one motion of a step within other ones
* `Task.Placed.follow_above`: a step does within other ones what it does by itself
-/

namespace WorkflowEngine

namespace Task

/-- **A task with further frames below its own**: those of the steps within which it is run. -/
def above (base : List Frame) : Task → Task
  | .mk c control fs => .mk c control (fs ++ base)

variable {env : Env} {m : Moment} {c : Context} {fs base : List Frame} {t : Task} {root : Step}
  {d₀ : Nat}

@[simp] theorem above_mk (base : List Frame) (c : Context) (control : Control Task)
    (fs : List Frame) : above base (.mk c control fs) = .mk c control (fs ++ base) := rfl

/-- A task that is over has an outcome for the steps around. -/
theorem above_of_outcome? {o : Outcome} (ho : t.outcome? = some o) :
    t.above base = .mk t.context (.settled o) base := by
  obtain ⟨c, control, fs⟩ := t
  cases control with
  | settled o' =>
    cases fs with
    | nil =>
      cases ho
      rfl
    | cons => cases ho
  | _ => cases ho

/-! ### Transitions of one task -/

theorem enter_above (env : Env) (m : Moment) (c : Context) (s : Step) (d : Nat)
    (fs base : List Frame) :
    enter env m c s d (fs ++ base) =
      ((enter env m c s d fs).1.above base, (enter env m c s d fs).2) := by
  cases hm : m.cancelled with
  | true => simp only [enter, hm, if_true, above_mk, List.cons_append]
  | false =>
    cases s with
    | simple => simp only [enter, hm, Bool.false_eq_true, if_false, above_mk, List.cons_append]
    | conditional head condition ifSteps elseSteps cases defaultSteps =>
      simp only [enter, hm, Bool.false_eq_true, if_false]
      rcases env.selectBranch head.id condition ifSteps elseSteps cases defaultSteps c with
        _ | _ | _ <;> rfl
    | loop => simp only [enter, hm, Bool.false_eq_true, if_false, above_mk, List.cons_append]
    | parallel head rule body =>
      simp only [enter, hm, Bool.false_eq_true, if_false]
      cases body.isEmpty <;> rfl

theorem iterate_above (env : Env) (m : Moment) (c : Context) (f : LoopFrame)
    (fs base : List Frame) :
    iterate env m c f (fs ++ base) = (iterate env m c f fs).above base := by
  unfold iterate
  cases m.cancelled with
  | true => rfl
  | false =>
    simp only [Bool.false_eq_true, if_false]
    rcases env.bound f.head.id f.rule c with e | max
    · rfl
    · by_cases hmax : max < nextIteration f.iteration
      · simp only [hmax, if_true]
        rfl
      · simp only [hmax, if_false]
        split
        · rcases env.condition f.head.id (f.rule.condition.getD "false")
            (c.enterLoop f.head.id (nextIteration f.iteration)) with e | _ | _ <;> rfl
        · rfl

theorem afterBody_above (env : Env) (c : Context) (f : LoopFrame) (fs base : List Frame) :
    afterBody env c f (fs ++ base) = (afterBody env c f fs).above base := by
  unfold afterBody
  rcases breaksOff env c f with e | _ | _
  · rfl
  · cases f.rule.effectiveType with
    | count =>
      rcases env.bound f.head.id f.rule c with e | max
      · rfl
      · simp only
        split <;> rfl
    | whileTrue => rfl
    | retry => cases hf : f.failed <;> rfl
  · rfl

theorem proceedLoop_above (env : Env) (m : Moment) (c : Context) (f : LoopFrame)
    (fs base : List Frame) :
    proceedLoop env m c f (fs ++ base) = (proceedLoop env m c f fs).above base := by
  unfold proceedLoop
  cases f.rest with
  | nil => exact afterBody_above env c f fs base
  | cons => cases m.cancelled <;> rfl

theorem proceedBranch_above (m : Moment) (c : Context) (f : BranchFrame) (fs base : List Frame) :
    proceedBranch m c f (fs ++ base) = (proceedBranch m c f fs).above base := by
  unfold proceedBranch
  cases f.rest with
  | nil => rfl
  | cons => cases m.cancelled <;> rfl

theorem returnToBranch_above (c : Context) (f : BranchFrame) (o : Outcome) (fs base : List Frame) :
    returnToBranch c f o (fs ++ base) = (returnToBranch c f o fs).above base := by
  cases o with
  | ok => rfl
  | error e =>
    simp only [returnToBranch]
    cases e.isCancelled <;> cases f.head.policy.continueOnError <;> rfl

theorem returnToLoop_above (c : Context) (f : LoopFrame) (o : Outcome) (fs base : List Frame) :
    returnToLoop c f o (fs ++ base) = (returnToLoop c f o fs).above base := by
  cases o with
  | ok => rfl
  | error e =>
    simp only [returnToLoop]
    cases e.isCancelled <;> cases f.rule.onError <;> rfl

/-- **A task that is not over moves as it does by itself.** -/
theorem Placed.advance_above (ht : Placed root d₀ t) (ho : t.outcome? = none) :
    (t.above base).advance env m = (t.advance env m).map fun p => (p.1.above base, p.2) := by
  -- A task that is over is the only one that the frames below wait for.
  have hsilent : ∀ {u v : Task}, u = v.above base →
      some (u, Effect.silent) = (some (v, Effect.silent)).map fun p => (p.1.above base, p.2) := by
    rintro u v rfl
    rfl
  cases ht with
  | enter => exact congrArg some (enter_above ..)
  | calling => rfl
  | @joining _ _ _ _ _ _ b =>
    simp only [above_mk, Task.advance]
    cases b.isOver <;> rfl
  | branch => exact hsilent (proceedBranch_above ..)
  | loop => exact hsilent (proceedLoop_above ..)
  | iterate => exact hsilent (iterate_above ..)
  | ended => rfl
  | returned hs =>
    cases hs with
    | root => cases ho
    | branch => exact hsilent (returnToBranch_above ..)
    | loop => exact hsilent (returnToLoop_above ..)

/-! ### Motions -/

/-- **One motion of a step within other ones** is one of the step by itself. -/
theorem Placed.step_above (ht : Placed root d₀ t) (ho : t.outcome? = none) (x : Motion) :
    Task.step env x (t.above base) = (Task.step env x t).map fun p => (p.1.above base, p.2) := by
  obtain ⟨c, control, fs⟩ := t
  cases x with
  | moves path m =>
    cases path with
    | nil => exact ht.advance_above ho
    | cons i path =>
      -- a thread of a worker moves; the frames stay where they are
      cases control with
      | joining b =>
        simp only [Task.step, above_mk, advanceAt, Option.map_map]
        rfl
      | _ => rfl
  | answers path r =>
    cases path with
    | nil => cases control <;> rfl
    | cons i path =>
      cases control with
      | joining b =>
        simp only [Task.step, above_mk, answerAt, Option.map_map]
        split
        · simp only [Option.map_map]
          rfl
        · rfl
      | _ => rfl

/-- A task that moves or is answered is not over. -/
theorem outcome?_of_step {x : Motion} {t t' : Task} {e : Effect} (h : step env x t = some (t', e)) :
    t.outcome? = none := by
  by_contra hne
  obtain ⟨o, ho⟩ := Option.ne_none_iff_exists'.mp hne
  cases x with
  | moves path m => exact not_moves_of_outcome? ho (advanceAt_eq_some_iff.mp h)
  | answers path r =>
    obtain ⟨u, hu, -⟩ := Option.map_eq_some_iff.mp h
    exact not_answers_of_outcome? ho (answerAt_eq_some_iff.mp hu)

/-- **A step does within other ones what it does by itself.** -/
theorem Placed.follow_above (ht : Placed root d₀ t) {xs : List Motion} {t' : Task}
    {es : List Ending} (h : Task.follow env xs t = some (t', es)) :
    Task.follow env xs (t.above base) = some (t'.above base, es) := by
  -- Induction on the motions; a task that makes one is not over.
  induction xs generalizing t es with
  | nil =>
    cases h
    rfl
  | cons x xs ih =>
    obtain ⟨u, e, es', hu, hrest, rfl⟩ := follow_cons_eq_some_iff.mp h
    refine follow_cons_eq_some_iff.mpr ⟨u.above base, e, es', ?_, ih (ht.step hu) hrest, rfl⟩
    rw [ht.step_above (outcome?_of_step hu), hu]
    rfl

end Task

end WorkflowEngine
