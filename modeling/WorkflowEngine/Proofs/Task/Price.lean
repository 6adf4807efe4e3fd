import Mathlib.Algebra.GroupWithZero.Nat
import WorkflowEngine.Config.Basic
import WorkflowEngine.Proofs.Task.Nested
import WorkflowEngine.Proofs.Task.Sum
import WorkflowEngine.Proofs.Task.Termination

/-!
# Prices of steps

What is paid while a step is run: something for each motion of its tasks, and something for each
call of whoever does its simple steps. A simple step is tried a number of times, a conditional runs
one of its lists, and a loop whose bound is no expression runs its body that often at most. So a
step has a price, and what is still ahead of a tree of tasks is paid for by what is left of the
price of the step.

## Main definitions

* `Tariff`: what is paid for a motion and for a call
* `Step.calls`: how often the executor is called for a step
* `Step.price`: what is paid for a step
* `Task.ahead`: what may still be paid for a tree of tasks
* `Step.IsLiteral`, `Task.HasLimits`: no bound depends on what is recorded, and no counter overflows

## Main results

* `Step.price_calls`: what is paid for a step if calls are all that is paid for
* `Task.Moves.ahead_le`, `Task.Answers.ahead_le`: motions are paid for by what is ahead
* `Task.Counted.hasLimits`: loops whose bounds are no expressions are within their limits
-/

namespace WorkflowEngine

/-- What is paid for a motion, and for a call of whoever does a simple step. -/
structure Tariff where
  motion : Nat
  call : Nat

/-- Only calls are paid for. -/
def Tariff.calls : Tariff := ⟨0, 1⟩

/-- Only motions are paid for. -/
def Tariff.motions : Tariff := ⟨1, 0⟩

variable (config : Config) (τ : Tariff)

/-- How often a simple step is handed out at most. -/
def Policy.tries (p : Policy) : Nat := min (p.retryCount.getD 0) config.maxLeafRetries + 1

/-- The bound of a loop that is no expression. -/
def LoopRule.limit (r : LoopRule) : Nat :=
  match r.bound with
  | none => config.defaultMaxIterations
  | some (.count n) => n
  | some (.template _) => 0

/-- What is paid for a simple step that is done by whoever it is handed out to: for asking whether
the run is cancelled, for handing it out and for being told, as often as it is tried. A gate is
passed in four motions. -/
def Head.price (head : Head) : Nat :=
  4 * τ.motion + head.policy.tries config * (2 * τ.motion + τ.call)

namespace Step

mutual
/-- **How often the executor is called for a step** at most: as often as a simple step may be tried,
once for each step of a list, for one branch of a conditional, and for the body of a loop as often
as its bound tells. -/
def calls : Step → Nat
  | .simple head _ => head.policy.tries config
  | .conditional _ _ ifSteps elseSteps cases defaultSteps =>
    max (max (callsOption ifSteps) (callsOption elseSteps))
      (max (callsCases cases) (callsOption defaultSteps))
  | .loop _ rule body => rule.limit config * callsList body
  | .parallel _ _ body => callsList body

/-- The calls for the steps of a list that may be absent. -/
def callsOption : Option (List Step) → Nat
  | none => 0
  | some steps => callsList steps

/-- The calls for the steps of one of the cases, which may be absent. -/
def callsCases : Option (List (String × List Step)) → Nat
  | none => 0
  | some cases => callsCaseList cases

/-- The calls for the steps of one of the cases. -/
def callsCaseList : List (String × List Step) → Nat
  | [] => 0
  | (_, steps) :: cases => max (callsList steps) (callsCaseList cases)

/-- The calls for the steps of a list. -/
def callsList : List Step → Nat
  | [] => 0
  | s :: ss => calls s + callsList ss
end

mutual
/-- **What is paid for a step.** It begins, comes to an outcome, and is over; what it holds is paid
for as it is run. -/
def price : Step → Nat
  -- a simple step is begun and answered besides
  | .simple head _ => 6 * τ.motion + head.price config τ
  | .conditional _ _ ifSteps elseSteps cases defaultSteps =>
    5 * τ.motion + max (max (priceOption ifSteps) (priceOption elseSteps))
      (max (priceCases cases) (priceOption defaultSteps))
  -- an iteration begins and ends
  | .loop _ rule body => 5 * τ.motion + rule.limit config * (2 * τ.motion + priceList body)
  -- each worker, of which there are no more than steps, looks for a step in vain once
  | .parallel _ _ body => 5 * τ.motion + body.length * τ.motion + priceList body

/-- The price of the steps of a list that may be absent. -/
def priceOption : Option (List Step) → Nat
  | none => 0
  | some steps => priceList steps

/-- The price of the dearest of the cases, which may be absent. -/
def priceCases : Option (List (String × List Step)) → Nat
  | none => 0
  | some cases => priceCaseList cases

/-- The price of the dearest of the cases. -/
def priceCaseList : List (String × List Step) → Nat
  | [] => 0
  | (_, steps) :: cases => max (priceList steps) (priceCaseList cases)

/-- The price of the steps of a list. -/
def priceList : List Step → Nat
  | [] => 0
  | s :: ss => price s + priceList ss
end

mutual
/-- **What is paid for a step if only calls are paid for.** -/
theorem price_calls : ∀ s : Step, s.price config .calls = s.calls config
  | .simple head _ => by simp [price, calls, Head.price, Tariff.calls]
  | .conditional _ _ ifSteps elseSteps cases defaultSteps => by
    rw [price, calls, priceOption_calls ifSteps, priceOption_calls elseSteps,
      priceCases_calls cases, priceOption_calls defaultSteps]
    exact Nat.zero_add _
  | .loop _ rule body => by
    rw [price, calls, priceList_calls body]
    simp [Tariff.calls]
  | .parallel _ _ body => by
    rw [price, calls, priceList_calls body]
    simp [Tariff.calls]

theorem priceOption_calls : ∀ l : Option (List Step),
    priceOption config .calls l = callsOption config l
  | none => by rw [priceOption, callsOption]
  | some steps => by rw [priceOption, callsOption, priceList_calls steps]

theorem priceCases_calls : ∀ cases : Option (List (String × List Step)),
    priceCases config .calls cases = callsCases config cases
  | none => by rw [priceCases, callsCases]
  | some cases => by rw [priceCases, callsCases, priceCaseList_calls cases]

theorem priceCaseList_calls : ∀ cases : List (String × List Step),
    priceCaseList config .calls cases = callsCaseList config cases
  | [] => by rw [priceCaseList, callsCaseList]
  | (_, steps) :: cases => by
    rw [priceCaseList, callsCaseList, priceList_calls steps, priceCaseList_calls cases]

theorem priceList_calls : ∀ steps : List Step,
    priceList config .calls steps = callsList config steps
  | [] => by rw [priceList, callsList]
  | s :: ss => by rw [priceList, callsList, price_calls s, priceList_calls ss]
end

/-- Every step begins, comes to an outcome and is over. -/
theorem motions_le_price (s : Step) : 5 * τ.motion ≤ s.price config τ := by
  cases s <;> rw [price] <;> omega

section

variable {config τ}

theorem priceList_le_priceOption {steps : List Step} {l : Option (List Step)} (h : steps ∈ l) :
    priceList config τ steps ≤ priceOption config τ l := by
  cases h
  rw [priceOption]

theorem priceList_le_priceCases {steps : List Step} {cases : Option (List (String × List Step))}
    (h : steps ∈ (cases.getD []).map Prod.snd) :
    priceList config τ steps ≤ priceCases config τ cases := by
  cases cases with
  | none => cases h
  | some l =>
    rw [priceCases]
    -- induction on the cases, down to that of the list
    simp only [Option.getD_some] at h
    induction l with
    | nil => cases h
    | cons x l ih =>
      obtain ⟨key, steps'⟩ := x
      rw [priceCaseList]
      rcases List.mem_cons.mp h with rfl | h
      · exact Nat.le_max_left ..
      · exact (ih h).trans (Nat.le_max_right ..)

end

/-- A branch is no dearer than its conditional. -/
theorem priceList_le {head : Head} {condition : String} {ifSteps elseSteps : Option (List Step)}
    {cases : Option (List (String × List Step))} {defaultSteps : Option (List Step)}
    {steps : List Step}
    (h : steps ∈ (conditional head condition ifSteps elseSteps cases defaultSteps).children) :
    5 * τ.motion + priceList config τ steps ≤
      (conditional head condition ifSteps elseSteps cases defaultSteps).price config τ := by
  rw [price]
  simp only [children, List.mem_append, Option.mem_toList] at h
  rcases h with ((h | h) | h) | h
  · have hle : priceList config τ steps ≤ _ := priceList_le_priceOption h
    omega
  · have hle : priceList config τ steps ≤ _ := priceList_le_priceOption h
    omega
  · have hle : priceList config τ steps ≤ _ := priceList_le_priceCases h
    omega
  · have hle : priceList config τ steps ≤ _ := priceList_le_priceOption h
    omega

/-- The steps that were not taken when the next one is. -/
theorem priceList_drop {body : List Step} {k : Nat} {s : Step} (h : body[k]? = some s) :
    priceList config τ (body.drop k) =
      s.price config τ + priceList config τ (body.drop (k + 1)) := by
  obtain ⟨hk, rfl⟩ := List.getElem?_eq_some_iff.mp h
  rw [List.drop_eq_getElem_cons hk, priceList]

end Step

/-! ### What is ahead -/

/-- What may still be paid for what waits for an outcome. -/
def Frame.ahead : Frame → Nat
  | .finish .. => τ.motion
  | .branch f => 2 * τ.motion + Step.priceList config τ f.rest
  -- the iterations that are to come, and the end
  | .loop f => Step.priceList config τ f.rest + 3 * τ.motion +
      (f.rule.limit config - f.iteration) * (2 * τ.motion + Step.priceList config τ f.body)

/-- What may still be paid for what a task does next. For a simple step that is being done this is
what is left for it. -/
def Control.ahead (left : Option Nat) : Control Task → Nat
  | .enter s _ => s.price config τ
  | .calling head _ _ => 3 * τ.motion + left.getD (τ.motion + head.price config τ)
  | .joining b => 3 * τ.motion + Step.priceList config τ (b.body.drop b.taken)
  | .proceed => τ.motion
  | .iterate => 0
  | .settled _ => 2 * τ.motion

/-- What may still be paid, by itself, for a task, a frame and a worker that looks for a step. -/
def Weights.ahead (left : List Nat → Option Nat) : Weights Nat :=
  ⟨fun path => Control.ahead config τ (left path), Frame.ahead config τ, τ.motion⟩

theorem Weights.within_ahead (left : List Nat → Option Nat) (i : Nat) :
    (Weights.ahead config τ left).within i = .ahead config τ fun path => left (i :: path) := rfl

/-- **What may still be paid for a tree of tasks**, given what is left for the simple steps that are
being done. -/
def Task.ahead (left : List Nat → Option Nat) (t : Task) : Nat := t.sum (.ahead config τ left)

namespace Task

variable {config τ} {left : List Nat → Option Nat}

theorem ahead_mk (c : Context) (control : Control Task) (fs : List Frame) :
    ahead config τ left (.mk c control fs) =
      control.ahead config τ (left []) + control.sum (.ahead config τ left) +
        (fs.map (Frame.ahead config τ)).sum := sum_mk ..

theorem ahead_start (s : Step) (c : Context) (d : Nat) :
    (start s c d).ahead config τ left = s.price config τ := by
  simp [start, ahead_mk, Control.ahead]

/-- A task that is over is still handed in or told of. -/
theorem ahead_of_outcome? {t : Task} {o : Outcome} (h : t.outcome? = some o) :
    t.ahead config τ left = 2 * τ.motion := by
  obtain ⟨c, control, fs⟩ := t
  cases control with
  | settled o =>
    cases fs with
    | nil => simp [ahead_mk, Control.ahead]
    | cons f fs => cases h
  | _ => cases h

theorem ahead_leaveLoop (c : Context) (f : LoopFrame)
    (result : Except StepError (Nat × LoopExit)) (fs : List Frame) :
    (leaveLoop c f result fs).ahead config τ left =
      2 * τ.motion + (fs.map (Frame.ahead config τ)).sum := by
  simp [leaveLoop, ahead_mk, Control.ahead]

/-- A worker that changes is paid for by the parallel step if there is less ahead of it, with the
steps that were not taken. -/
theorem ahead_setWorker {c : Context} {fs : List Frame} {b b' : Block Task} {i : Nat}
    {v w : Worker Task} {x y : Nat} (hb : b'.workers = (b.setWorker i w).workers)
    (hi : b.workers[i]? = some v)
    (hv : v.sum (.ahead config τ fun path => left (i :: path)) = x)
    (hw : w.sum (.ahead config τ fun path => left (i :: path)) = y)
    (hle : Step.priceList config τ (b'.body.drop b'.taken) + y + τ.motion ≤
      Step.priceList config τ (b.body.drop b.taken) + x) :
    ahead config τ left (.mk c (.joining b') fs) + τ.motion ≤
      ahead config τ left (.mk c (.joining b) fs) := by
  subst hv hw
  have hset := sum_setWorker (W := .ahead config τ left) c fs hb hi
  have hcontrol (b : Block Task) : (Weights.ahead config τ left).control [] (.joining b) =
      3 * τ.motion + Step.priceList config τ (b.body.drop b.taken) := rfl
  rw [hcontrol, hcontrol, Weights.within_ahead] at hset
  unfold ahead
  omega

/-! ### Motions are paid for -/

variable {env : Env} {m : Moment}

/-- A step that begins is paid for by its price. -/
theorem ahead_enter_le {c : Context} {s : Step} {d : Nat} {fs : List Frame} {p : Task × Effect}
    (h : Enters env m c s d fs p) (hl : left [] = none) :
    p.1.ahead config τ left + τ.motion ≤
      s.price config τ + (fs.map (Frame.ahead config τ)).sum := by
  have hprice := s.motions_le_price config τ
  cases h with
  | cancelled | failed | skipped | empty =>
    simp only [ahead_mk, Control.ahead, Control.sum_settled, List.map_cons, List.sum_cons,
      Frame.ahead]
    omega
  | simple hs =>
    subst hs
    simp only [ahead_mk, Control.ahead, Control.sum_calling, List.map_cons, List.sum_cons,
      Frame.ahead, Step.price, hl, Option.getD_none]
    omega
  | branch hs hb =>
    subst hs
    have hle := Step.priceList_le config τ (Env.mem_children_of_selectBranch hb)
    simp only [ahead_mk, Control.ahead, Control.sum_proceed, List.map_cons, List.sum_cons,
      Frame.ahead]
    omega
  | loop hs =>
    subst hs
    simp only [ahead_mk, Control.ahead, Control.sum_iterate, List.map_cons, List.sum_cons,
      Frame.ahead, Step.price, Step.priceList, Nat.sub_zero]
    omega
  | @parallel head rule body hs =>
    subst hs
    have hidle : Worker.sumAll (.ahead config τ left) 0
        (List.replicate (rule.workers body.length) .idle) ≤ body.length * τ.motion := by
      rw [Worker.sumAll_replicate_idle]
      exact Nat.mul_le_mul_right _ (rule.workers_eq _ ▸ Nat.min_le_right ..)
    simp only [ahead_mk, Control.ahead, Control.sum_joining, List.map_cons, List.sum_cons,
      Frame.ahead, Step.price, List.drop_zero]
    omega

/-- **The loops that begin an iteration are within their limits**: the bound does not depend on the
context, and the counter has room. -/
def HasLimits (config : Config) (env : Env) (t : Task) : Prop :=
  ∀ path c f fs, at? path t = some (.mk c .iterate (.loop f :: fs)) →
    f.iteration < Env.maxCount ∧ ∀ c, env.bound f.head.id f.rule c = .ok (f.rule.limit config)

/-- An iteration that begins is one of those that are to come. -/
theorem sub_iteration_of_iterate {c c' : Context} {f : LoopFrame} {fs fs' : List Frame}
    (h : iterate env m c f fs = .mk c' .proceed fs') (hroom : f.iteration < Env.maxCount)
    (hbound : ∀ c, env.bound f.head.id f.rule c = .ok (f.rule.limit config)) :
    f.rule.limit config - f.iteration =
      f.rule.limit config - nextIteration f.iteration + 1 := by
  obtain ⟨n, hn, hle⟩ := exists_bound_of_iterate h
  obtain rfl : f.rule.limit config = n := Except.ok.inj ((hbound c).symm.trans hn)
  rw [nextIteration_eq hroom] at hle ⊢
  omega

/-- **A task that moves by itself is paid for by what is ahead of it.** -/
theorem ahead_advance_le {t t' : Task} {e : Effect} (h : t.advance env m = some (t', e))
    (hlimits : t.HasLimits config env) (hl : left [] = none) :
    t'.ahead config τ left + τ.motion ≤ t.ahead config τ left := by
  match t, h with
  | .mk c (.enter s d) fs, h =>
    have hle : (Task.enter env m c s d fs).1.ahead config τ left + τ.motion ≤ _ :=
      ahead_enter_le (enters_enter env m c s d fs) hl
    rw [show Task.enter env m c s d fs = _ from Option.some.inj h] at hle
    simpa only [ahead_mk, Control.ahead, Control.sum_enter, Nat.add_zero] using hle
  | .mk c (.joining b) fs, h =>
    simp only [Task.advance] at h
    split at h
    · cases h
      simp only [ahead_mk, Control.ahead, Control.sum_settled]
      omega
    · cases h
  | .mk c .proceed (.branch f :: fs), h =>
    obtain rfl : proceedBranch m c f fs = t' := congrArg Prod.fst (Option.some.inj h)
    rcases proceedBranch_cases m c f fs with ⟨-, he⟩ | ⟨-, he⟩ | ⟨s, rest, hr, -, he⟩ <;> rw [he]
    · simp only [ahead_mk, Control.ahead, Control.sum_proceed, Control.sum_settled, List.map_cons,
        List.sum_cons, Frame.ahead]
      omega
    · simp only [ahead_mk, Control.ahead, Control.sum_proceed, Control.sum_settled, List.map_cons,
        List.sum_cons, Frame.ahead]
      omega
    · simp only [ahead_mk, Control.ahead, Control.sum_proceed, Control.sum_enter, List.map_cons,
        List.sum_cons, Frame.ahead, hr, Step.priceList]
      omega
  | .mk c .proceed (.loop f :: fs), h =>
    obtain rfl : proceedLoop env m c f fs = t' := congrArg Prod.fst (Option.some.inj h)
    rcases proceedLoop_cases env m c f fs with ⟨result, he⟩ | he | ⟨s, rest, hr, -, he⟩ <;> rw [he]
    · simp only [ahead_leaveLoop, ahead_mk, Control.ahead, Control.sum_proceed, List.map_cons,
        List.sum_cons, Frame.ahead]
      omega
    · simp only [ahead_mk, Control.ahead, Control.sum_proceed, Control.sum_iterate]
      omega
    · simp only [ahead_mk, Control.ahead, Control.sum_proceed, Control.sum_enter, List.map_cons,
        List.sum_cons, Frame.ahead, hr, Step.priceList]
      omega
  | .mk c .iterate (.loop f :: fs), h =>
    obtain rfl : Task.iterate env m c f fs = t' := congrArg Prod.fst (Option.some.inj h)
    obtain ⟨hroom, hbound⟩ := hlimits [] c f fs rfl
    rcases iterate_cases env m c f fs with ⟨result, he⟩ | ⟨result, he⟩ | ⟨-, he⟩
    · rw [he]
      simp only [ahead_leaveLoop, ahead_mk, Control.ahead, Control.sum_iterate, List.map_cons,
        List.sum_cons, Frame.ahead]
      omega
    · rw [he]
      simp only [ahead_leaveLoop, ahead_mk, Control.ahead, Control.sum_iterate, List.map_cons,
        List.sum_cons, Frame.ahead]
      omega
    · -- the iteration that begins is no longer one of those to come
      have hsub := sub_iteration_of_iterate he hroom hbound
      rw [he]
      simp only [ahead_mk, Control.ahead, Control.sum_iterate, Control.sum_proceed, List.map_cons,
        List.sum_cons, Frame.ahead, hsub, Nat.add_mul]
      omega
  | .mk c (.settled o) (.finish s d :: fs), h =>
    cases h
    simp only [ahead_mk, Control.ahead, Control.sum_settled, List.map_cons, List.sum_cons,
      Frame.ahead]
    omega
  | .mk c (.settled o) (.branch f :: fs), h =>
    obtain rfl : returnToBranch c f o fs = t' := congrArg Prod.fst (Option.some.inj h)
    rcases returnToBranch_cases c f o fs with ⟨-, he⟩ | ⟨e, -, he⟩ | ⟨e, -, -, -, he⟩ <;>
      rw [he] <;>
      simp only [ahead_mk, Control.ahead, Control.sum_settled, Control.sum_proceed, List.map_cons,
        List.sum_cons, Frame.ahead] <;> omega
  | .mk c (.settled o) (.loop f :: fs), h =>
    obtain rfl : returnToLoop c f o fs = t' := congrArg Prod.fst (Option.some.inj h)
    rcases returnToLoop_cases c f o fs with
      ⟨-, he⟩ | ⟨e, -, he⟩ | ⟨e, -, -, -, he⟩ | ⟨e, -, -, -, he⟩ <;> rw [he] <;>
      simp only [ahead_leaveLoop, ahead_mk, Control.ahead, Control.sum_settled,
        Control.sum_proceed, List.map_cons, List.sum_cons, Frame.ahead] <;> omega
  | .mk _ (.calling ..) _, h | .mk _ .proceed [], h | .mk _ .proceed (.finish .. :: _), h
  | .mk _ .iterate [], h | .mk _ .iterate (.finish .. :: _), h
  | .mk _ .iterate (.branch _ :: _), h | .mk _ (.settled _) [], h => cases h

/-- **Every motion is paid for by what is ahead** of the tree of tasks, if loops are within their
limits. -/
theorem Moves.ahead_le {path : List Nat} {t t' : Task} {e : Effect} (h : Moves env m path t t' e)
    (hlimits : t.HasLimits config env) (hl : left path = none) :
    t'.ahead config τ left + τ.motion ≤ t.ahead config τ left := by
  -- Every motion takes from what is ahead of one worker, or of the task itself.
  induction h generalizing left with
  | here h => exact ahead_advance_le h hlimits hl
  | @stop i path c fs b hi hs =>
    refine ahead_setWorker rfl hi Worker.sum_idle Worker.sum_stopped ?_
    have hdrop {k : Nat} (hk : b.body.length ≤ k) :
        Step.priceList config τ (b.body.drop k) = 0 := by
      rw [List.drop_eq_nil_of_le hk, Step.priceList]
    have htaken := List.getElem?_eq_none_iff.mp hs
    have hdrop' := hdrop (htaken.trans (Nat.le_succ _))
    simp only [Block.setWorker, hdrop htaken, hdrop', Weights.ahead]
    omega
  | skip hi hs =>
    refine ahead_setWorker rfl hi Worker.sum_idle Worker.sum_stopped ?_
    simp only [Block.setWorker, Step.priceList_drop config τ hs, Weights.ahead]
    omega
  | take hi hs =>
    refine ahead_setWorker rfl hi Worker.sum_idle
      ((Worker.sum_running ..).trans (ahead_start ..)) ?_
    simp only [Block.setWorker, Step.priceList_drop config τ hs, Weights.ahead]
    omega
  | handIn hi ho =>
    -- the task that is handed in still counts, the worker that looks for a step counts less
    refine ahead_setWorker rfl hi ((Worker.sum_running ..).trans (ahead_of_outcome? ho))
      Worker.sum_idle ?_
    simp only [Task.handIn, Block.setWorker, Weights.ahead]
    omega
  | @inner i path c fs index t t' e b hi _ _ ih =>
    refine ahead_setWorker rfl hi (Worker.sum_running ..) (Worker.sum_running ..) ?_
    have hle : t'.ahead config τ (fun path => left (i :: path)) + τ.motion ≤
        t.ahead config τ fun path => left (i :: path) :=
      ih (fun path c f fs hu => hlimits (i :: path) c f fs ((at?_of_running hi).trans hu)) hl
    unfold Task.ahead at hle
    simp only [Block.setWorker]
    omega

variable (config τ left)

/-- What is ahead of a tree if something else is left for one of its tasks. -/
theorem ahead_update {path : List Nat} {t u : Task} (hu : at? path t = some u) (y : Option Nat) :
    t.ahead config τ (Function.update left path y) + u.control.ahead config τ (left path) =
      t.ahead config τ left + u.control.ahead config τ y := by
  have hset : t.sum (.ahead config τ (Function.update left path y)) +
        (Weights.ahead config τ left).control path u.control =
      t.sum (.ahead config τ left) +
        (Weights.ahead config τ (Function.update left path y)).control path u.control :=
    sum_update hu (fun q hq => congrArg (Control.ahead config τ) (Function.update_of_ne hq y left))
      rfl rfl
  have hy : (Weights.ahead config τ (Function.update left path y)).control path u.control =
      u.control.ahead config τ y :=
    congrArg (fun z => Control.ahead config τ z u.control) (Function.update_self path y left)
  rwa [hy] at hset

/-- What is ahead of a tree in which one of the simple steps has something else left. -/
theorem ahead_update_of_callAt? {path : List Nat} {t : Task} {head : Head} {leaf : Leaf} {d : Nat}
    {c : Context} (h : t.callAt? path = some (head, leaf, d, c)) (y : Option Nat) :
    t.ahead config τ (Function.update left path y) +
        (left path).getD (τ.motion + head.price config τ) =
      t.ahead config τ left + y.getD (τ.motion + head.price config τ) := by
  unfold callAt? at h
  split at h
  next hu =>
    cases h
    have hset := ahead_update config τ left hu y
    simp only [Task.control, Control.ahead] at hset
    omega
  next => cases h

variable {config τ left}

theorem Answers.at? {r : Except StepError Json} {path : List Nat} {t t' : Task}
    (h : Answers r path t t') : ∃ c o fs, Task.at? path t' = some (.mk c (.settled o) fs) := by
  induction h with
  | here => exact ⟨_, _, _, rfl⟩
  | inner hi _ ih =>
    rw [at?_of_running (Block.getElem?_setWorker hi _)]
    exact ih

/-- **An answer is paid for by what is ahead**, and nothing is left for the simple step then. -/
theorem Answers.ahead_le {r : Except StepError Json} {path : List Nat} {t t' : Task}
    (h : Answers r path t t') :
    t'.ahead config τ (Function.update left path none) + τ.motion ≤ t.ahead config τ left := by
  have hle : t'.ahead config τ left + τ.motion ≤ t.ahead config τ left := by
    induction h generalizing left with
    | here =>
      simp only [ahead_mk, Control.ahead, Control.sum_calling, Control.sum_settled]
      omega
    | @inner i path c fs index t t' b hi _ ih =>
      refine ahead_setWorker rfl hi (Worker.sum_running ..) (Worker.sum_running ..) ?_
      have hle : t'.ahead config τ (fun path => left (i :: path)) + τ.motion ≤
        t.ahead config τ fun path => left (i :: path) := ih
      unfold Task.ahead at hle
      simp only [Block.setWorker]
      omega
  -- it is no longer asked what is left for the step
  obtain ⟨c, o, fs, hu⟩ := h.at?
  have hset := ahead_update config τ left hu none
  simp only [Task.control, Control.ahead] at hset
  omega

end Task

/-! ### Loops whose bounds are no expressions -/

/-- **The bound of a loop is a number below the greatest count**, if there is one. -/
def Step.IsLiteral (s : Step) : Prop := ∀ b ∈ s.bound?, ∃ n, b = .count n ∧ n < Env.maxCount

theorem Step.All.expressible {s : Step} (h : s.All Step.IsLiteral) : s.Expressible := by
  induction h with
  | intro own _ ih =>
    refine expressible_iff.mpr ⟨fun b hb => ?_, fun steps hsteps x hx => ih x ⟨steps, hsteps, hx⟩⟩
    obtain ⟨n, rfl, hn⟩ := own b hb
    exact hn.le

section

variable {config} {env : Env}

/-- The bound of a loop does not depend on the context, and the counter can tell of all its
iterations. -/
theorem LoopRule.bound_eq (henv : env.defaultMaxIterations = config.defaultMaxIterations)
    (hdefault : config.defaultMaxIterations < Env.maxCount) {head : Head} {rule : LoopRule}
    {body : List Step} (h : (Step.loop head rule body).IsLiteral) :
    rule.limit config < Env.maxCount ∧
      ∀ id c, env.bound id rule c = .ok (rule.limit config) := by
  unfold limit
  cases hb : rule.bound with
  | none => exact ⟨hdefault, Env.bound_of_literal (.inr ⟨hb, henv⟩)⟩
  | some b =>
    obtain ⟨n, rfl, hn⟩ := h b hb
    exact ⟨hn, Env.bound_of_literal (.inl hb)⟩

/-- **Loops whose bounds are no expressions are within their limits.** -/
theorem Task.Counted.hasLimits (henv : env.defaultMaxIterations = config.defaultMaxIterations)
    (hdefault : config.defaultMaxIterations < Env.maxCount) {root : Step} {d₀ : Nat} {t : Task}
    (hroot : root.All Step.IsLiteral) (ht : Placed root d₀ t) (hc : Counted env t) :
    t.HasLimits config env := by
  intro path c f fs hu
  obtain ⟨l, hl⟩ := ht.lineage_of_iterate hu
  obtain ⟨hlt, hbound⟩ := LoopRule.bound_eq henv hdefault (hroot.of_lineage hl).own
  obtain ⟨hle, hlast⟩ := (hc path _ hu).frames _ (List.mem_cons_self ..)
  refine ⟨Nat.lt_of_le_of_ne hle fun he => ?_, hbound _⟩
  obtain ⟨c', hc'⟩ := hlast he
  exact hlt.ne (Except.ok.inj ((hbound _ c').symm.trans hc'))

end

end WorkflowEngine
