import WorkflowEngine.Run.Task

/-!
# Motions of the tree of tasks

What one transition does to the tree of tasks, case by case: a task moves by itself, or a worker of
a parallel step takes a step, hands one in or stops. What the tree keeps is proved by induction on
these motions.

## Main definitions

* `Task.Moves`: the transition of a thread, by its place in the tree
* `Task.Answers`: the transition of a thread whose simple step is answered
* `Task.Enters`: how a step begins

## Main results

* `Task.advanceAt_eq_some_iff`, `Task.answerAt_eq_some_iff`: transitions are these motions
* `Task.enters_enter`, `Task.iterate_cases`, `Task.proceedBranch_cases`, `Task.proceedLoop_cases`,
  `Task.returnToBranch_cases`, `Task.returnToLoop_cases`: what becomes of a task that moves by
  itself
-/

namespace WorkflowEngine

theorem StepError.eq_cancelled_of_isCancelled {e : StepError} (h : e.isCancelled = true) :
    e = .cancelled := by
  cases e <;> first | rfl | cases h

namespace Task

/-! ### Within the tree -/

/-- **The motion of the thread at a path**: the task there moves by itself, or one of the workers on
the way does. -/
inductive Moves (env : Env) (m : Moment) : List Nat → Task → Task → Effect → Prop where
  | here {t t' e} (h : t.advance env m = some (t', e)) : Moves env m [] t t' e
  /-- There is no step left to take. -/
  | stop {i path c fs} {b : Block Task} (hi : b.workers[i]? = some .idle)
      (hs : b.body[b.taken]? = none) :
      Moves env m (i :: path) (.mk c (.joining b) fs)
        (.mk c (.joining ({ b with taken := b.taken + 1 }.setWorker i .stopped)) fs) .stopped
  /-- The step taken is not run, since the run is cancelled. -/
  | skip {i path c fs s} {b : Block Task} (hi : b.workers[i]? = some .idle)
      (hs : b.body[b.taken]? = some s) (hm : m.cancelled = true) :
      Moves env m (i :: path) (.mk c (.joining b) fs)
        (.mk c (.joining ({ b with
          taken := b.taken + 1
          finished := b.finished ++ [(⟨b.taken, .error .cancelled, []⟩ : Finished)] }.setWorker i
            .stopped)) fs)
        .stopped
  | take {i path c fs s} {b : Block Task} (hi : b.workers[i]? = some .idle)
      (hs : b.body[b.taken]? = some s) (hm : m.cancelled = false) :
      Moves env m (i :: path) (.mk c (.joining b) fs)
        (.mk c (.joining
          ({ b with taken := b.taken + 1 }.setWorker i (.running b.taken (start s c b.depth)))) fs)
        .silent
  | handIn {i path c fs index t o} {b : Block Task} (hi : b.workers[i]? = some (.running index t))
      (ho : t.outcome? = some o) :
      Moves env m (i :: path) (.mk c (.joining b) fs)
        (.mk c (.joining (Task.handIn c b i index t o)) fs) .silent
  | inner {i path c fs index t t' e} {b : Block Task}
      (hi : b.workers[i]? = some (.running index t)) (ho : t.outcome? = none)
      (h : Moves env m path t t' e) :
      Moves env m (i :: path) (.mk c (.joining b) fs)
        (.mk c (.joining (b.setWorker i (.running index t'))) fs) e

variable {env : Env} {m : Moment}

theorem Moves.of_advanceAt : ∀ {path : List Nat} {t t' : Task} {e : Effect},
    advanceAt env m path t = some (t', e) → Moves env m path t t' e := by
  intro path
  -- Induction on the path: the thread is the task itself, or within the task of a worker.
  induction path with
  | nil => intro t t' e h; exact .here h
  | cons i path ih =>
    intro t t' e h
    match t, h with
    | .mk c (.joining b) fs, h =>
      simp only [advanceAt, Option.map_eq_some_iff, Prod.mk.injEq] at h
      obtain ⟨⟨b', e'⟩, hw, rfl, rfl⟩ := h
      -- what the first worker of the path does
      unfold advanceWorker at hw
      split at hw
      next hi =>
        obtain rfl : b' = _ := congrArg Prod.fst (Option.some.inj hw).symm
        obtain rfl : e' = _ := congrArg Prod.snd (Option.some.inj hw).symm
        unfold Task.take
        split
        next hs => exact .stop hi hs
        next s hs =>
          split
          next hm => exact .skip hi hs hm
          next hm => exact .take hi hs (by simpa using hm)
      next index t hi =>
        split at hw
        next o ho =>
          -- the task of the worker is over, and it hands in
          cases hw
          exact .handIn hi ho
        next ho =>
          -- the thread is within the task of the worker
          obtain ⟨⟨t', e''⟩, ht, he⟩ := Option.map_eq_some_iff.mp hw
          cases he
          exact .inner hi ho (ih ht)
      next => cases hw
    | .mk _ (.enter ..) _, h | .mk _ (.calling ..) _, h | .mk _ .proceed _, h
    | .mk _ .iterate _, h | .mk _ (.settled _) _, h => cases h

/-- **Transitions are motions.** -/
theorem advanceAt_eq_some_iff {path : List Nat} {t t' : Task} {e : Effect} :
    advanceAt env m path t = some (t', e) ↔ Moves env m path t t' e := by
  refine ⟨Moves.of_advanceAt, fun h => ?_⟩
  -- Conversely, each motion is what the transition computes.
  induction h with
  | here h => exact h
  | stop hi hs => simp [advanceAt, advanceWorker, hi, Task.take, hs]
  | skip hi hs hm => simp [advanceAt, advanceWorker, hi, Task.take, hs, hm]
  | take hi hs hm => simp [advanceAt, advanceWorker, hi, Task.take, hs, hm]
  | handIn hi ho => simp [advanceAt, advanceWorker, hi, ho]
  | inner hi ho _ ih => simp [advanceAt, advanceWorker, hi, ho, ih]

/-- **The motion of the thread at a path when its simple step is answered.** -/
inductive Answers (r : Except StepError Json) : List Nat → Task → Task → Prop where
  | here {c head leaf depth fs} :
      Answers r [] (.mk c (.calling head leaf depth) fs) (.mk c (.settled (leafOutcome head r)) fs)
  | inner {i path c fs index t t'} {b : Block Task}
      (hi : b.workers[i]? = some (.running index t)) (h : Answers r path t t') :
      Answers r (i :: path) (.mk c (.joining b) fs)
        (.mk c (.joining (b.setWorker i (.running index t'))) fs)

variable {r : Except StepError Json}

theorem Answers.of_answerAt : ∀ {path : List Nat} {t t' : Task},
    answerAt r path t = some t' → Answers r path t t' := by
  intro path
  -- Induction on the path, as for the threads that move by themselves.
  induction path with
  | nil =>
    intro t t' h
    match t, h with
    | .mk c (.calling head leaf depth) fs, h =>
      obtain rfl : _ = _ := by simpa [answerAt, answer] using h
      exact .here
    | .mk _ (.enter ..) _, h | .mk _ (.joining _) _, h | .mk _ .proceed _, h
    | .mk _ .iterate _, h | .mk _ (.settled _) _, h => cases h
  | cons i path ih =>
    intro t t' h
    match t, h with
    | .mk c (.joining b) fs, h =>
      simp only [answerAt] at h
      split at h
      next index t hi =>
        obtain ⟨t', ht, rfl⟩ := Option.map_eq_some_iff.mp h
        exact .inner hi (ih ht)
      next => cases h
    | .mk _ (.enter ..) _, h | .mk _ (.calling ..) _, h | .mk _ .proceed _, h
    | .mk _ .iterate _, h | .mk _ (.settled _) _, h => cases h

theorem answerAt_eq_some_iff {path : List Nat} {t t' : Task} :
    answerAt r path t = some t' ↔ Answers r path t t' := by
  refine ⟨Answers.of_answerAt, fun h => ?_⟩
  induction h with
  | here => rfl
  | inner hi _ ih => simp [answerAt, hi, ih]

/-! ### Simple steps that wait -/

@[simp] theorem callAt?_cons_joining (i : Nat) (path : List Nat) (c : Context) (b : Block Task)
    (fs : List Frame) :
    callAt? (i :: path) (.mk c (.joining b) fs) =
      match b.workers[i]? with
      | some (.running _ t) => callAt? path t
      | _ => none := by
  unfold callAt?
  rw [at?]
  rcases b.workers[i]? with _ | _ | _ | _ <;> rfl

/-! ### A task by itself -/

/-- **How a step begins**: it is over at once, it waits for its answer, or what it holds goes on. -/
inductive Enters (env : Env) (m : Moment) (c : Context) (step : Step) (depth : Nat)
    (fs : List Frame) : Task × Effect → Prop where
  | cancelled (hm : m.cancelled = true) :
      Enters env m c step depth fs
        (.mk c (.settled (.error .cancelled)) (.finish step depth :: fs), .silent)
  | simple {head leaf} (hs : step = .simple head leaf) (hm : m.cancelled = false) :
      Enters env m c step depth fs
        (.mk c (.calling head leaf depth) (.finish step depth :: fs), .silent)
  | failed {head condition ifSteps elseSteps cases defaultSteps e}
      (hs : step = .conditional head condition ifSteps elseSteps cases defaultSteps)
      (hb : env.selectBranch head.id condition ifSteps elseSteps cases defaultSteps c = .error e)
      (hm : m.cancelled = false) :
      Enters env m c step depth fs
        (.mk c (.settled (.error e)) (.finish step depth :: fs), .silent)
  | skipped {head condition ifSteps elseSteps cases defaultSteps}
      (hs : step = .conditional head condition ifSteps elseSteps cases defaultSteps)
      (hb : env.selectBranch head.id condition ifSteps elseSteps cases defaultSteps c = .ok none)
      (hm : m.cancelled = false) :
      Enters env m c step depth fs
        (.mk c (.settled (.ok (.branch none 0 none))) (.finish step depth :: fs), .silent)
  | branch {head condition ifSteps elseSteps cases defaultSteps name steps}
      (hs : step = .conditional head condition ifSteps elseSteps cases defaultSteps)
      (hb : env.selectBranch head.id condition ifSteps elseSteps cases defaultSteps c =
        .ok (some (name, steps)))
      (hm : m.cancelled = false) :
      Enters env m c step depth fs
        (.mk c .proceed (.branch ⟨head, name, steps, steps.length, depth + 1⟩ ::
          .finish step depth :: fs), .silent)
  | loop {head rule body} (hs : step = .loop head rule body) (hm : m.cancelled = false) :
      Enters env m c step depth fs
        (.mk c .iterate (.loop ⟨head, rule, body, depth + 1, 0, [], false⟩ ::
          .finish step depth :: fs), .silent)
  | empty {head rule} (hs : step = .parallel head rule []) (hm : m.cancelled = false) :
      Enters env m c step depth fs
        (.mk c (.settled (.ok (.parallel 0))) (.finish step depth :: fs), .silent)
  | parallel {head rule body} (hs : step = .parallel head rule body) (hb : body ≠ [])
      (hm : m.cancelled = false) :
      Enters env m c step depth fs
        (.mk c (.joining ⟨head, body, depth + 1, 0, [],
          List.replicate (rule.workers body.length) .idle⟩) (.finish step depth :: fs),
          .opened (rule.workers body.length))

theorem enters_enter (env : Env) (m : Moment) (c : Context) (step : Step) (depth : Nat)
    (fs : List Frame) : Enters env m c step depth fs (enter env m c step depth fs) := by
  unfold enter
  cases hm : m.cancelled with
  | true => exact .cancelled hm
  | false =>
    cases step with
    | simple head leaf => exact .simple rfl hm
    | conditional head condition ifSteps elseSteps cases defaultSteps =>
      simp only [Bool.false_eq_true, if_false]
      split
      next e hb => exact .failed rfl hb hm
      next hb => exact .skipped rfl hb hm
      next name steps hb => exact .branch rfl hb hm
    | loop head rule body => exact .loop rfl hm
    | parallel head rule body =>
      cases body with
      | nil => exact .empty rfl hm
      | cons s body => exact .parallel rfl (by simp) hm

/-- Only a step whose outcome is about to be told is over. -/
theorem advance_eq_finished {env : Env} {m : Moment} {t t' : Task} {step : Step} {depth ms : Nat}
    {o : Outcome} (h : t.advance env m = some (t', .finished step depth o ms)) :
    ∃ c fs, t = .mk c (.settled o) (.finish step depth :: fs) ∧ t' = (finish m c step depth o fs).1
      ∧ ms = m.elapsedMs := by
  -- Of the transitions of a task by itself, one has this effect.
  match t, h with
  | .mk c (.enter s d) fs, h =>
    -- a step that begins tells of none
    have he := enters_enter env m c s d fs
    rw [show enter env m c s d fs = _ from Option.some.inj h] at he
    cases he
  | .mk c (.joining b) fs, h =>
    simp only [advance] at h
    split at h <;> cases h
  | .mk c (.settled o) (.finish s d :: fs), h =>
    cases h
    exact ⟨c, fs, rfl, rfl, rfl⟩
  | .mk _ (.calling ..) _, h | .mk _ .proceed [], h | .mk _ .proceed (.finish .. :: _), h
  | .mk _ .proceed (.branch _ :: _), h | .mk _ .proceed (.loop _ :: _), h | .mk _ .iterate [], h
  | .mk _ .iterate (.finish .. :: _), h | .mk _ .iterate (.branch _ :: _), h
  | .mk _ .iterate (.loop _ :: _), h | .mk _ (.settled _) [], h
  | .mk _ (.settled _) (.branch _ :: _), h | .mk _ (.settled _) (.loop _ :: _), h => cases h

/-- A loop that begins an iteration ends, or its body goes on. -/
theorem iterate_cases (env : Env) (m : Moment) (c : Context) (f : LoopFrame) (fs : List Frame) :
    (∃ result, iterate env m c f fs = leaveLoop c f result fs) ∨
    (∃ result, iterate env m c f fs =
      leaveLoop (c.enterLoop f.head.id (nextIteration f.iteration)) f result fs) ∨
    m.cancelled = false ∧ iterate env m c f fs =
      .mk (c.enterLoop f.head.id (nextIteration f.iteration)) .proceed
        (.loop { f with iteration := nextIteration f.iteration, rest := f.body, failed := false } ::
          fs) := by
  -- What a loop asks for, in turn: the run, its bound, its condition.
  by_cases hm : m.cancelled = true
  · exact .inl ⟨.error .cancelled, by rw [iterate, if_pos hm]⟩
  rw [iterate, if_neg hm]
  have hm : m.cancelled = false := by simpa using hm
  cases env.bound f.head.id f.rule c with
  | error e => exact .inl ⟨.error e, rfl⟩
  | ok max =>
    -- the number of the next iteration is past the bound, or the loop may go on
    by_cases hn : max < nextIteration f.iteration
    · exact .inl ⟨_, if_pos hn⟩
    simp only [if_neg hn]
    split
    · cases env.condition f.head.id (f.rule.condition.getD "false")
        (c.enterLoop f.head.id (nextIteration f.iteration)) with
      | error e => exact .inr (.inl ⟨.error e, rfl⟩)
      | ok holds =>
        cases holds with
        | true => exact .inr (.inr ⟨hm, rfl⟩)
        | false => exact .inr (.inl ⟨_, rfl⟩)
    · exact .inr (.inr ⟨hm, rfl⟩)

/-- A loop at the end of an iteration ends, or begins another one. -/
theorem afterBody_cases (env : Env) (c : Context) (f : LoopFrame) (fs : List Frame) :
    (∃ result, afterBody env c f fs = leaveLoop c f result fs) ∨
      afterBody env c f fs = .mk c .iterate (.loop f :: fs) := by
  unfold afterBody
  dsimp only
  split
  · exact .inl ⟨_, rfl⟩
  · exact .inl ⟨_, rfl⟩
  · split
    · split
      · exact .inr rfl
      · exact .inl ⟨_, rfl⟩
    · exact .inr rfl
    · split
      · exact .inl ⟨_, rfl⟩
      · split
        · exact .inl ⟨_, rfl⟩
        · exact .inr rfl

/-- A body that goes on is at the end of its iteration, or begins its next step. -/
theorem proceedLoop_cases (env : Env) (m : Moment) (c : Context) (f : LoopFrame)
    (fs : List Frame) :
    (∃ result, proceedLoop env m c f fs = leaveLoop c f result fs) ∨
    proceedLoop env m c f fs = .mk c .iterate (.loop f :: fs) ∨
    ∃ s rest, f.rest = s :: rest ∧ m.cancelled = false ∧
      proceedLoop env m c f fs = .mk c (.enter s f.depth) (.loop { f with rest } :: fs) := by
  unfold proceedLoop
  split
  · rcases afterBody_cases env c f fs with h | h
    · exact .inl h
    · exact .inr (.inl h)
  · rename_i s rest hr
    split
    · exact .inl ⟨_, rfl⟩
    · rename_i hm
      exact .inr (.inr ⟨s, rest, hr, by simpa using hm, rfl⟩)

/-- A branch that goes on is over, or begins its next step. -/
theorem proceedBranch_cases (m : Moment) (c : Context) (f : BranchFrame) (fs : List Frame) :
    f.rest = [] ∧ proceedBranch m c f fs =
      .mk c (.settled (.ok (.branch (some f.name) f.total none))) fs ∨
    m.cancelled = true ∧ proceedBranch m c f fs = .mk c (.settled (.error .cancelled)) fs ∨
    ∃ s rest, f.rest = s :: rest ∧ m.cancelled = false ∧
      proceedBranch m c f fs = .mk c (.enter s f.depth) (.branch { f with rest } :: fs) := by
  unfold proceedBranch
  split
  · exact .inl ⟨by assumption, rfl⟩
  · rename_i s rest hr
    split
    · rename_i hm
      exact .inr (.inl ⟨hm, rfl⟩)
    · rename_i hm
      exact .inr (.inr ⟨s, rest, hr, by simpa using hm, rfl⟩)

/-- **What a failing step does to the branch around**: the conditional fails with it, unless the
failure does not count there. -/
theorem returnToBranch_cases (c : Context) (f : BranchFrame) (o : Outcome) (fs : List Frame) :
    (∃ v, o = .ok v) ∧ returnToBranch c f o fs = .mk c .proceed (.branch f :: fs) ∨
    (∃ e, o = .error e ∧ returnToBranch c f o fs = .mk c (.settled (.error e)) fs) ∨
    ∃ e, o = .error e ∧ e.isCancelled = false ∧ f.head.policy.continueOnError = true ∧
      returnToBranch c f o fs =
        .mk c (.settled (.ok (.branch (some f.name) 0 (some e.message)))) fs := by
  cases o with
  | ok v => exact .inl ⟨⟨v, rfl⟩, rfl⟩
  | error e =>
    -- A failure that is no cancellation meets the policy of the conditional.
    refine .inr ?_
    simp only [returnToBranch]
    split
    · rename_i he
      exact .inl ⟨e, rfl, by rw [StepError.eq_cancelled_of_isCancelled he]⟩
    · rename_i he
      split
      · rename_i hp
        exact .inr ⟨e, rfl, by simpa using he, hp, rfl⟩
      · exact .inl ⟨e, rfl, rfl⟩

/-- **What a failing step does to the loop around**: the loop fails with it, unless failures do not
count there. -/
theorem returnToLoop_cases (c : Context) (f : LoopFrame) (o : Outcome) (fs : List Frame) :
    (∃ v, o = .ok v) ∧ returnToLoop c f o fs = .mk c .proceed (.loop f :: fs) ∨
    (∃ e, o = .error e ∧ returnToLoop c f o fs = leaveLoop c f (.error e) fs) ∨
    (∃ e, o = .error e ∧ e.isCancelled = false ∧ f.rule.onError = .proceed ∧
      returnToLoop c f o fs = .mk c .proceed (.loop { f with failed := true } :: fs)) ∨
    ∃ e, o = .error e ∧ e.isCancelled = false ∧ f.rule.onError = .leave ∧
      returnToLoop c f o fs = leaveLoop c f (.ok (f.iteration, .errorBreak)) fs := by
  cases o with
  | ok v => exact .inl ⟨⟨v, rfl⟩, rfl⟩
  | error e =>
    -- A failure that is no cancellation meets the rule of the loop.
    refine .inr ?_
    simp only [returnToLoop]
    split
    · rename_i he
      exact .inl ⟨e, rfl, by rw [StepError.eq_cancelled_of_isCancelled he]⟩
    · rename_i he
      have he : e.isCancelled = false := by simpa using he
      split
      · exact .inl ⟨e, rfl, rfl⟩
      · exact .inr (.inl ⟨e, rfl, he, by assumption, rfl⟩)
      · exact .inr (.inr ⟨e, rfl, he, by assumption, rfl⟩)

end Task

end WorkflowEngine
