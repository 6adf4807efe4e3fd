import WorkflowEngine.Proofs.Run.Params
import WorkflowEngine.Proofs.Task.Nested

/-!
# What steps evaluate

The conditions, bounds and configurations of a workflow are evaluated as they are written. Whatever
a step has recorded, a loop has counted or others have answered meanwhile stands in the context, and
no expression is ever made of it: two engines that make the same of what is written in the steps of
a tree make the same of the tree.

## Main definitions

* `Step.templates`: the templates and expressions of a step itself
* `Env.Agree`: two environments make the same of what is written in a step

## Main results

* `Task.advanceAt_congr`: motions depend on what is written in the steps
-/

namespace WorkflowEngine

/-- The expressions of a loop. One without a condition has a condition that never holds. -/
def LoopRule.templates (r : LoopRule) : List String :=
  r.condition.getD "false" ::
    ((match r.bound with
      | some (.template text) => [text]
      | _ => []) ++ r.breakOn.toList)

/-- **The templates and expressions of a step itself.** -/
def Step.templates : Step → List String
  | .simple _ leaf => leaf.templates
  | .conditional _ condition _ _ _ _ => [condition]
  | .loop _ rule _ => rule.templates
  | .parallel .. => []

/-- Two engines make the same of what is written in a step, whatever the context is. -/
def Expr.Engine.AgreeOn (engine engine' : Expr.Engine) (templates : List String) : Prop :=
  ∀ context, engine.Agree engine' (Template.textsOf templates) context

namespace Env

variable {env env' : Env} {id : String} {c : Context}

theorem condition_congr {t : String}
    (h : env.engine.Agree env'.engine (Template.texts t) c.toJson) :
    env.condition id t c = env'.condition id t c := by
  rw [condition, condition, Template.evaluateCondition_congr h]

/-- The branch that is taken depends on the texts of the condition. -/
theorem selectBranch_congr {condition : String} {ifSteps elseSteps : Option (List Step)}
    {cases : Option (List (String × List Step))} {defaultSteps : Option (List Step)}
    (h : env.engine.Agree env'.engine (Template.texts condition) c.toJson) :
    env.selectBranch id condition ifSteps elseSteps cases defaultSteps c =
      env'.selectBranch id condition ifSteps elseSteps cases defaultSteps c := by
  unfold selectBranch
  rw [Template.evaluate_congr h, condition_congr h]

/-- The bound of a loop depends on the texts of its expression. -/
theorem bound_congr {rule : LoopRule}
    (hdefault : env.defaultMaxIterations = env'.defaultMaxIterations)
    (h : env.engine.AgreeOn env'.engine rule.templates) :
    env.bound id rule c = env'.bound id rule c := by
  unfold bound
  split
  · rw [hdefault]
  · rfl
  next text hb =>
    have htext : text ∈ rule.templates := by simp [LoopRule.templates, hb]
    rw [Template.evaluate_congr ((h c.toJson).of_mem htext)]

end Env

namespace Task

variable {env env' : Env} {m : Moment} {c : Context} {fs : List Frame}

theorem enter_congr {s : Step} {d : Nat} (h : env.engine.AgreeOn env'.engine s.templates) :
    enter env m c s d fs = enter env' m c s d fs := by
  unfold enter
  cases s with
  | conditional head condition =>
    have hcondition := (h c.toJson).of_mem (List.mem_singleton_self condition)
    dsimp only
    rw [Env.selectBranch_congr hcondition]
  | _ => rfl

section

variable {f : LoopFrame} (hdefault : env.defaultMaxIterations = env'.defaultMaxIterations)
  (h : env.engine.AgreeOn env'.engine f.rule.templates)

include hdefault h

theorem iterate_congr : iterate env m c f fs = iterate env' m c f fs := by
  have hcondition (c : Context) := (h c.toJson).of_mem (List.mem_cons_self ..)
  unfold iterate
  simp only [Env.bound_congr hdefault h, Env.condition_congr (hcondition _)]

theorem afterBody_congr : afterBody env c f fs = afterBody env' c f fs := by
  have hbreaks : breaksOff env c f = breaksOff env' c f := by
    unfold breaksOff
    split
    · rfl
    next template hb =>
      have htemplate : template ∈ f.rule.templates := by simp [LoopRule.templates, hb]
      exact Env.condition_congr ((h c.toJson).of_mem htemplate)
  unfold afterBody
  rw [hbreaks, Env.bound_congr hdefault h]

theorem proceedLoop_congr : proceedLoop env m c f fs = proceedLoop env' m c f fs := by
  rw [proceedLoop, proceedLoop, afterBody_congr hdefault h]

end

variable {root : Step} {d₀ : Nat} {t : Task}

/-- **A task that moves by itself depends on what is written in the steps of its tree.** -/
theorem advance_congr (hdefault : env.defaultMaxIterations = env'.defaultMaxIterations)
    (ht : Placed root d₀ t)
    (hroot : root.All fun s => env.engine.AgreeOn env'.engine s.templates) :
    t.advance env m = t.advance env' m := by
  have hrule {p : Step} {f : LoopFrame} {d : Nat} {fs : List Frame} (hs : Hosts root d₀ p d fs)
      (hf : f.Of p d) : env.engine.AgreeOn env'.engine f.rule.templates := by
    have := (hs.all hroot).own
    rwa [hf.step] at this
  cases ht with
  | enter hs => rw [advance, advance, enter_congr (hs.all hroot).own]
  | loop hs hf => rw [advance, advance, proceedLoop_congr hdefault (hrule hs hf)]
  | iterate hs hf => rw [advance, advance, iterate_congr hdefault (hrule hs hf)]
  | returned hs =>
    -- an outcome means the same to a list in whatever environment
    cases hs with
    | _ => rfl
  | _ => rfl

/-- **Motions depend on what is written in the steps.** -/
theorem advanceAt_congr (hdefault : env.defaultMaxIterations = env'.defaultMaxIterations)
    {path : List Nat} (ht : Placed root d₀ t)
    (hroot : root.All fun s => env.engine.AgreeOn env'.engine s.templates) :
    advanceAt env m path t = advanceAt env' m path t := by
  induction path generalizing root d₀ t with
  | nil => exact advance_congr hdefault ht hroot
  | cons i path ih =>
    cases ht with
    | @joining _ _ c rule d fs b hs _ hb hw =>
      have hworker : advanceWorker m c b i (advanceAt env m path) =
          advanceWorker m c b i (advanceAt env' m path) := by
        unfold advanceWorker
        split
        · rfl
        next index t hi =>
          obtain ⟨s, hx⟩ := hb _ _ _ hi
          have hall := (hs.all hroot).of_holds
            ⟨b.body, List.mem_singleton_self _, List.mem_of_getElem? hx⟩
          rw [ih (hw _ _ _ s hi hx) hall]
        · rfl
      rw [advanceAt, advanceAt, hworker]
    | _ => rfl

end Task

end WorkflowEngine
