import WorkflowEngine.Proofs.Task.Advance

/-!
# Outcomes of steps

What a step may end with depends on its type. So a step that says that failures do not count may
still end with one: a simple step never does, but a loop or a parallel step always, and a
conditional if it cannot be decided which branch it takes.

## Main definitions

* `Outcome.hasFailed`: an outcome tells of a failure, whether it counts or not
* `Step.FailsMarked`: what a step that says that failures do not count ends with if it fails
* `Task.EndsAsMay`: a step that is about to tell its outcome may end with that

## Main results

* `Step.MayEnd.failsMarked`: the failures of steps that say that failures do not count
* `Task.isKept_endsAsMay`: steps end with what they may
-/

namespace WorkflowEngine

/-- The outcome tells of a failure, whether it counts or not. -/
def Outcome.hasFailed : Outcome → Bool
  | .error _ => true
  | .ok (.recovered _) => true
  | .ok (.branch _ _ (some _)) => true
  | .ok _ => false

namespace Step

variable {env : Env}

/-- **What a step ends with if it fails and says that failures do not count.** A simple step goes
on, and so does a conditional if it was decided which branch it takes; all others fail all the
same. -/
inductive FailsMarked (env : Env) : Step → Outcome → Prop where
  | recovered {head leaf e} : FailsMarked env (.simple head leaf) (.ok (.recovered e))
  | masked {head condition ifSteps elseSteps cases defaultSteps name} {e : StepError} :
      FailsMarked env (.conditional head condition ifSteps elseSteps cases defaultSteps)
        (.ok (.branch (some name) 0 (some e.message)))
  | undecided {head condition ifSteps elseSteps cases defaultSteps c e}
      (h : env.selectBranch head.id condition ifSteps elseSteps cases defaultSteps c = .error e) :
      FailsMarked env (.conditional head condition ifSteps elseSteps cases defaultSteps) (.error e)
  | loop {head rule body e} : FailsMarked env (.loop head rule body) (.error e)
  | parallel {head rule body e} : FailsMarked env (.parallel head rule body) (.error e)

/-- **The failures of steps that say that failures do not count.** -/
theorem MayEnd.failsMarked {s : Step} {o : Outcome} (h : s.MayEnd env o)
    (hs : s.policy.continueOnError = true) (hf : o.hasFailed = true)
    (hn : o.isCancelled = false) : s.FailsMarked env o := by
  cases h with
  | cancelled => cases hn
  | @answered head leaf r =>
    cases r with
    | ok v => cases hf
    | error e =>
      have hs : head.policy.continueOnError = true := hs
      unfold Task.leafOutcome at hn hf ⊢
      cases he : e.isCancelled with
      | true =>
        simp only [he, if_true] at hn
        cases hn.symm.trans he
      | false =>
        simp only [he, hs, Bool.false_eq_true, if_false, if_true]
        exact .recovered
  | branch => cases hf
  | undecided h => exact .undecided h
  | failed h => cases h.symm.trans hs
  | masked => exact .masked
  | @loop _ _ _ result =>
    cases result with
    | ok => cases hf
    | error => exact .loop
  | @parallel _ _ _ result =>
    cases result with
    | ok => cases hf
    | error => exact .parallel

end Step

namespace Task

variable {env : Env}

/-- A step that is about to tell its outcome may end with that. -/
def EndsAsMay (env : Env) (t : Task) : Prop :=
  ∀ c o s d fs, t = .mk c (.settled o) (.finish s d :: fs) → s.MayEnd env o

/-- A task that has no outcome has none to tell. -/
theorem EndsAsMay.of_control {c : Context} {control : Control Task} {fs : List Frame}
    (h : control.isSettled = false) : EndsAsMay env (.mk c control fs) := by
  rintro c' o s d fs' ⟨⟩
  cases h

theorem EndsAsMay.settled {c : Context} {o : Outcome} {s : Step} {d : Nat} {fs : List Frame}
    (h : s.MayEnd env o) : EndsAsMay env (.mk c (.settled o) (.finish s d :: fs)) := by
  rintro _ _ _ _ _ ⟨⟩
  exact h

/-- **All steps in a tree of tasks end with what they may.** -/
theorem isKept_endsAsMay (env : Env) : IsKept env (EndsAsMay env) where
  start _ _ _ := .of_control rfl
  joining _ _ := .of_control rfl
  advance ht _ h := by
    cases h with
    | enter _ ho =>
      rintro _ _ _ _ _ ⟨⟩
      exact ho _ rfl
    | list hc | turn hc => exact .of_control (Control.isSettled_of_isList hc)
    | next => exact .of_control rfl
    | leave _ ho | join ho => exact .settled ho
    | tell =>
      -- below the frame of a step is that of a list, if there is one
      rintro _ _ _ _ _ he
      cases ht with
      | ended hs | returned hs => cases hs <;> cases he
  answer _ ht _ := by
    cases ht
    exact .settled .answered

end Task

end WorkflowEngine
