import WorkflowEngine.Proofs.Run.Attempts
import WorkflowEngine.Proofs.Task.Termination

/-!
# Counters at their limits

Two counts of 32 bits are increased while steps are run: that of the iterations of a loop, and the
number of tries of a simple step, which is one more than its retries. The limits on both may be the
greatest count, and are not checked against it. An iteration counter overflows only in a loop that
does not count and whose bound can be the greatest count; then the loop passes its bound and begins
an iteration zero. The number of tries overflows only if both the retries and the cap on them are
the greatest count; then the step is never tried.

## Main definitions

* `Leaf.AtLimits`: the number of tries overflows

## Main results

* `Task.Counted.reached`: counters are within the bounds in every state of a run
* `Task.Counted.nextIteration_eq_iff`: which iteration counters overflow
* `Task.iterate_eq_leaveLoop`, `Task.iterate_ne_leaveLoop`: a loop at its bound stops, one that
  overflows does not
* `Leaf.attempts_eq_iff`: which numbers of tries overflow
* `counters_overflow_at_limits`: all of this for a step and for a simple step
-/

namespace WorkflowEngine

namespace Task

variable {env : Env} {m : Moment} {root : Step} {d₀ : Nat}

/-- One motion keeps counters within the bounds, even past an overflow. -/
theorem Counted.motion (hdefault : env.defaultMaxIterations ≤ Env.maxCount)
    (hroot : root.Expressible) {x : Motion} {t t' : Task} {e : Effect} (ht : Placed root d₀ t)
    (hc : Counted env t) (h : Task.step env x t = some (t', e)) :
    Counted env t' := by
  cases x with
  | moves path m => exact hc.moves hdefault hroot ht (advanceAt_eq_some_iff.mp h)
  | answers path r =>
    obtain ⟨u, hu, heq⟩ := Option.map_eq_some_iff.mp h
    cases heq
    exact hc.answers (answerAt_eq_some_iff.mp hu)

/-- **Counters are within the bounds in every state of a run.** -/
theorem Counted.reached (hdefault : env.defaultMaxIterations ≤ Env.maxCount)
    (hroot : root.Expressible) {xs : List Motion} {t t' : Task} {es : List Ending}
    (ht : Placed root d₀ t) (hc : Counted env t) (h : Task.follow env xs t = some (t', es)) :
    Counted env t' := by
  induction xs generalizing t es with
  | nil =>
    cases h
    exact hc
  | cons x xs ih =>
    obtain ⟨u, e, es', hu, hrest, rfl⟩ := follow_cons_eq_some_iff.mp h
    exact ih (ht.step hu) (hc.motion hdefault hroot ht hu) hrest

/-- After the greatest count comes zero. -/
theorem nextIteration_maxCount : nextIteration Env.maxCount = 0 := by decide

/-- **Which iteration counters overflow** where a loop begins an iteration. -/
theorem Counted.nextIteration_eq_iff {t : Task} (hc : Counted env t) {path : List Nat}
    {c : Context} {f : LoopFrame} {fs : List Frame}
    (hu : at? path t = some (.mk c .iterate (.loop f :: fs))) :
    nextIteration f.iteration = f.iteration + 1 ↔ ¬ f.Overflows env := by
  obtain ⟨hle, hbound⟩ := (hc path _ hu).frames _ (List.mem_cons_self ..)
  constructor
  · intro h ho
    rw [ho.iteration, nextIteration_maxCount] at h
    cases h
  · intro ho
    refine nextIteration_eq (Nat.lt_of_le_of_ne hle fun he => ho ⟨he, fun htype => ?_, hbound he⟩)
    exact absurd he ((hc path _ hu).iterate c f fs rfl htype).ne

/-- A loop at its bound stops, if its counter has room. -/
theorem iterate_eq_leaveLoop {c : Context} {f : LoopFrame} {fs : List Frame} {n : Nat}
    (hm : m.cancelled = false) (hb : env.bound f.head.id f.rule c = .ok n) (hn : n ≤ f.iteration)
    (hnext : nextIteration f.iteration = f.iteration + 1) :
    iterate env m c f fs = leaveLoop c f (.ok (f.iteration, .maxIterations)) fs := by
  have hlt : n < f.iteration + 1 := Nat.lt_succ_of_le hn
  simp only [iterate, hm, hb, hnext, hlt, Bool.false_eq_true, if_false, if_true,
    Nat.add_sub_cancel]

/-- A loop whose counter overflows does not stop at its bound. -/
theorem iterate_ne_leaveLoop {c : Context} {f : LoopFrame} {fs : List Frame} {n : Nat}
    (hm : m.cancelled = false) (hb : env.bound f.head.id f.rule c = .ok n)
    (ho : f.iteration = Env.maxCount) (k : Nat) :
    iterate env m c f fs ≠ leaveLoop c f (.ok (k, .maxIterations)) fs := by
  have hlt : ¬ n < nextIteration f.iteration := by
    rw [ho, nextIteration_maxCount]
    exact Nat.not_lt_zero n
  simp only [iterate, hm, hb, hlt, Bool.false_eq_true, if_false]
  intro h
  split at h
  · split at h <;> cases congrArg control h
  · cases congrArg control h

end Task

/-! ### Tries of simple steps -/

namespace Leaf

variable {engine : Expr.Engine} {config : Config} {policy : Policy}

/-- **The number of tries overflows**: both the retries and the cap on them are the greatest
count. -/
def AtLimits (config : Config) (policy : Policy) : Prop :=
  policy.retryCount = some Env.maxCount ∧ config.maxLeafRetries = Env.maxCount

theorem retries_lt_iff (hcap : config.maxLeafRetries ≤ Env.maxCount)
    (hp : ∀ n ∈ policy.retryCount, n ≤ Env.maxCount) :
    min (policy.retryCount.getD 0) config.maxLeafRetries < Env.maxCount ↔
      ¬ AtLimits config policy := by
  have hzero : 0 < Env.maxCount := by decide
  unfold AtLimits
  cases hn : policy.retryCount with
  | none => simpa using hzero
  | some n =>
    have hle := hp n hn
    rw [Option.getD_some, Option.some.injEq]
    omega

theorem attempts_of_atLimits (h : AtLimits config policy) : attempts config policy = 0 := by
  rw [attempts, h.1, h.2]
  decide

/-- **Which numbers of tries overflow.** -/
theorem attempts_eq_iff (hcap : config.maxLeafRetries ≤ Env.maxCount)
    (hp : ∀ n ∈ policy.retryCount, n ≤ Env.maxCount) :
    attempts config policy = policy.tries config ↔ ¬ AtLimits config policy := by
  refine ⟨fun h hlimits => ?_, fun h => attempts_eq ((retries_lt_iff hcap hp).mpr h)⟩
  rw [attempts_of_atLimits hlimits] at h
  exact Nat.succ_ne_zero _ h.symm

variable {a : Assignment} {head : Head} {leaf : Leaf} {depth : Nat} {c : Context}
  {r : StepRequest}

/-- A simple step whose number of tries overflows is never tried. -/
theorem run_of_atLimits (hl : leaf.action ≠ approvalAction)
    (hr : request engine head leaf c.toJson = .ok r) (h : AtLimits config head.policy) :
    run engine config a head leaf depth c =
      .done (.error (.executionFailed head.id "step was never attempted")) := by
  rw [run, if_neg (by simpa using hl), dispatch, hr]
  simp only [attempts_of_atLimits h, attempt]
  rw [← request_stepId hr]
  rfl

/-- Any other simple step is tried at least once. -/
theorem run_of_not_atLimits (hcap : config.maxLeafRetries ≤ Env.maxCount)
    (hp : ∀ n ∈ head.policy.retryCount, n ≤ Env.maxCount) (hl : leaf.action ≠ approvalAction)
    (hr : request engine head leaf c.toJson = .ok r) (h : ¬ AtLimits config head.policy) :
    ∃ next, run engine config a head leaf depth c =
      .ask (.execute r (a.caller c depth) (timeout config head.policy)) next := by
  rw [run_eq_attempt hl hr ((retries_lt_iff hcap hp).mpr h), Policy.tries, attempt_succ]
  exact ⟨_, rfl⟩

end Leaf

/-- An iteration of the loop whose step fails each time, from its beginning to that of the next. -/
def Motion.failedIteration : List Motion :=
  let go : Motion := .moves [] { cancelled := false }
  List.replicate 3 go ++ .answers [] (.error (.executionFailed "a" "no")) :: List.replicate 3 go

open Leaf in
/-- **Counters overflow at their limits and nowhere else.** In every state of every run of a step,
the count of a loop that begins an iteration is increased by one, and a loop that has come to its
bound stops there, unless the loop does not count, has come to the greatest count, and has a bound
that can be that. Then the count becomes zero and the loop goes on past its bound. A simple step is
tried as often as it should be, and so at least once, unless its retries and the cap on them are
both the greatest count. Then it fails without having been tried. -/
theorem counters_overflow_at_limits (engine : Expr.Engine) (config : Config)
    (hdefault : config.defaultMaxIterations ≤ Env.maxCount)
    (hcap : config.maxLeafRetries ≤ Env.maxCount) :
    let env : Env := ⟨engine, config.defaultMaxIterations⟩
    (∀ (s : Step) (c₀ : Context) (d : Nat) (xs : List Motion) (t : Task) (es : List Ending),
      s.Expressible → Task.follow env xs (.start s c₀ d) = some (t, es) →
      ∀ path c f fs, Task.at? path t = some (.mk c .iterate (.loop f :: fs)) →
        (nextIteration f.iteration = f.iteration + 1 ↔ ¬ f.Overflows env) ∧
        (f.Overflows env → nextIteration f.iteration = 0) ∧
        ∀ m n, m.cancelled = false → env.bound f.head.id f.rule c = .ok n → n ≤ f.iteration →
          (Task.iterate env m c f fs =
            Task.leaveLoop c f (.ok (f.iteration, .maxIterations)) fs ↔ ¬ f.Overflows env)) ∧
    ∀ (a : Assignment) (head : Head) (leaf : Leaf) (depth : Nat) (c : Context) (r : StepRequest),
      (∀ n ∈ head.policy.retryCount, n ≤ Env.maxCount) → leaf.action ≠ approvalAction →
      request engine head leaf c.toJson = .ok r →
      (attempts config head.policy =
          min (head.policy.retryCount.getD 0) config.maxLeafRetries + 1 ↔
        ¬ AtLimits config head.policy) ∧
      (¬ AtLimits config head.policy → ∃ next, Leaf.run engine config a head leaf depth c =
        .ask (.execute r (a.caller c depth) (timeout config head.policy)) next) ∧
      (AtLimits config head.policy → Leaf.run engine config a head leaf depth c =
        .done (.error (.executionFailed head.id "step was never attempted"))) := by
  refine ⟨fun s c₀ d xs t es hs h path c f fs hu => ?_, fun a head leaf depth c r hp hl hr => ?_⟩
  · have hcounted := Task.Counted.reached hdefault hs (.start s c₀ d) (.start s c₀ d) h
    have hnext := hcounted.nextIteration_eq_iff hu
    refine ⟨hnext, fun ho => ?_, fun m n hm hb hn => ⟨fun he ho => ?_, fun ho => ?_⟩⟩
    · rw [ho.iteration, Task.nextIteration_maxCount]
    · exact Task.iterate_ne_leaveLoop hm hb ho.iteration _ he
    · exact Task.iterate_eq_leaveLoop hm hb hn (hnext.mpr ho)
  · exact ⟨attempts_eq_iff hcap hp, run_of_not_atLimits hcap hp hl hr, run_of_atLimits hl hr⟩

theorem Step.expressible_retrying {n : Nat} (hn : n ≤ Env.maxCount) :
    (Step.retrying n).Expressible := by
  refine Step.expressible_iff.mpr ⟨?_, ?_⟩
  · rintro _ ⟨⟩
    exact hn
  · refine List.forall_mem_singleton.mpr (List.forall_mem_singleton.mpr ?_)
    exact Step.expressible_iff.mpr ⟨nofun, nofun⟩

/-- A loop that is at its bound after an iteration, and a step whose retries are capped. -/
theorem counters_overflow_at_limits_retrying :
    (∃ c f fs es, Task.follow ⟨.null, 10⟩
        (.moves [] { cancelled := false } :: Motion.failedIteration)
        (.start (.retrying 1) (.ofWorkItem .null) 0) =
          some (.mk c .iterate (.loop f :: fs), es) ∧ nextIteration f.iteration = 2 ∧
      Task.iterate ⟨.null, 10⟩ { cancelled := false } c f fs =
        Task.leaveLoop c f (.ok (1, .maxIterations)) fs) ∧
    ∃ next, Leaf.run .null {} ⟨⟨1⟩, "w", "i"⟩ ⟨"a", none, ⟨none, some Env.maxCount, false⟩⟩
        ⟨.command, "run", [], none, none⟩ 0 {} =
      .ask (.execute ⟨"a", "command", "run", []⟩ (Assignment.caller ⟨⟨1⟩, "w", "i"⟩ {} 0) none)
        next := by
  have hmain := counters_overflow_at_limits .null {} (by decide) (by decide)
  constructor
  · obtain ⟨c, f, fs, es, h, hf⟩ : ∃ c f fs es, Task.follow ⟨.null, 10⟩
        (.moves [] { cancelled := false } :: Motion.failedIteration)
        (.start (.retrying 1) (.ofWorkItem .null) 0) =
          some (.mk c .iterate (.loop f :: fs), es) ∧ f.iteration = 1 ∧
        f.rule.bound = some (.count 1) := ⟨_, _, _, _, rfl, rfl, rfl⟩
    have hretrying := Step.expressible_retrying (show 1 ≤ Env.maxCount by decide)
    obtain ⟨hnext, -, hstops⟩ := hmain.1 _ _ _ _ _ _ hretrying h [] c f fs rfl
    have hroom : ¬ f.Overflows ⟨.null, 10⟩ := fun ho => absurd (hf.1.symm.trans ho.iteration)
      (by decide)
    refine ⟨c, f, fs, es, h, (hnext.mpr hroom).trans (by rw [hf.1]), ?_⟩
    rw [← hf.1]
    exact (hstops { cancelled := false } 1 rfl (Env.bound_of_literal (.inl hf.2) _ _) hf.1.ge).mpr
      hroom
  · exact (hmain.2 _ _ _ _ _ _ (by rintro _ ⟨⟩; exact le_rfl) (by decide) rfl).2.1
      (fun h => absurd h.2 (by decide))

/-! ### Counters that do overflow -/

namespace Task

variable {env : Env}

/-- Motions after motions. -/
theorem follow_append {xs ys : List Motion} {t u v : Task} {es es' : List Ending}
    (hu : Task.follow env xs t = some (u, es)) (hv : Task.follow env ys u = some (v, es')) :
    Task.follow env (xs ++ ys) t = some (v, es ++ es') := by
  induction xs generalizing t es with
  | nil =>
    cases hu
    exact hv
  | cons x xs ih =>
    obtain ⟨w, e, es'', hw, hrest, rfl⟩ := follow_cons_eq_some_iff.mp hu
    exact follow_cons_eq_some_iff.mpr ⟨w, e, _, hw, ih hrest, List.append_assoc ..⟩

/-- An iteration that is not the last one is followed by another. -/
theorem follow_failedIteration {c : Context} {n : Nat} {failed : Bool} (hn : n < Env.maxCount) :
    ∃ c' es, Task.follow env Motion.failedIteration (.mk c .iterate (retryingFrames n [] failed)) =
      some (.mk c' .iterate (retryingFrames (n + 1) [] true), es) := by
  have hbegins : Task.step env (.moves [] { cancelled := false })
      (.mk c .iterate (retryingFrames n [] failed)) =
      some (.mk (c.enterLoop "l" (n + 1)) .proceed
        (retryingFrames (n + 1) [.simpleNamed "a"] false), .silent) := by
    -- only here is the count looked at; what follows is the same for every count
    have hle : ¬ Env.maxCount < n + 1 := Nat.not_lt.mpr hn
    simp only [Task.step, advanceAt, Task.advance, retryingFrames, Task.iterate, Env.bound,
      nextIteration_eq hn, hle, Bool.false_eq_true, if_false]
    rfl
  exact ⟨_, _, follow_cons_eq_some_iff.mpr ⟨_, _, _, hbegins, rfl, rfl⟩⟩

/-- Every iteration of the loop is come to, up to the last one. -/
theorem exists_follow_retrying {n : Nat} (hn : n ≤ Env.maxCount) (c₀ : Context) :
    ∃ xs c failed es, Task.follow env xs (.start (.retrying Env.maxCount) c₀ 0) =
      some (.mk c .iterate (retryingFrames n [] failed), es) := by
  induction n with
  | zero => exact ⟨[.moves [] { cancelled := false }], c₀, false, _, rfl⟩
  | succ n ih =>
    obtain ⟨xs, c, failed, es, h⟩ := ih (Nat.le_of_succ_le hn)
    obtain ⟨c', es', h'⟩ := follow_failedIteration hn
    exact ⟨_, _, _, _, follow_append h h'⟩

end Task

/-- Both counters overflow: that of a loop whose bound is the greatest count and whose step fails
each time, and that of a simple step that may be tried again that often. -/
theorem both_counters_overflow :
    (∃ xs c failed es, Task.follow ⟨.null, 10⟩ xs
        (.start (.retrying Env.maxCount) (.ofWorkItem .null) 0) =
          some (.mk c .iterate (Task.retryingFrames Env.maxCount [] failed), es)) ∧
      nextIteration Env.maxCount ≠ Env.maxCount + 1 ∧
      Leaf.run .null { maxLeafRetries := Env.maxCount } ⟨⟨1⟩, "w", "i"⟩
        ⟨"a", none, ⟨none, some Env.maxCount, false⟩⟩ ⟨.command, "run", [], none, none⟩ 0 {} =
          .done (.error (.executionFailed "a" "step was never attempted")) := by
  refine ⟨Task.exists_follow_retrying le_rfl _, by decide, ?_⟩
  exact Leaf.run_of_atLimits (by decide) rfl ⟨rfl, rfl⟩

end WorkflowEngine
