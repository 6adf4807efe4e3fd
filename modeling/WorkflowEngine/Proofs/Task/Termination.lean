import WorkflowEngine.Proofs.Task.Account
import WorkflowEngine.Proofs.Task.Pass
import WorkflowEngine.Proofs.Task.Sequence
import WorkflowEngine.Proofs.Workflow.RoundTrip

/-!
# Steps come to their end

A step does a bounded amount of work. A simple step is answered once, a list is gone through once in
an iteration, and a loop has no more iterations than its counter can tell of. The bound of a loop
may be an expression that grows with what the body records, so it is the counter and not the bound
that limits the work; and a counter does so only as long as it does not overflow. A loop that counts
stops at the last iteration at the latest. Other loops have no such guard: if their bound is the
greatest count, they begin again after it.

## Main definitions

* `Step.work`, `Task.work`: how many motions a step or a tree of tasks can still make
* `LoopFrame.Overflows`, `Task.Overflows`: a loop begins again after its last iteration
* `Task.HasRoom`: no loop does so
* `Task.IsCounted`: what is known of the counters of a task

## Main results

* `Task.Moves.work_lt`, `Task.Answers.work_lt`: every motion takes from the work that is left
* `Task.Counted.moves`, `Task.Counted.hasRoom`: which counters may overflow
* `Task.stops_or_overflows`: a run of a step is no longer than its work, unless a counter overflows
* `Task.endless_never_stops`: a loop whose counter overflows
-/

namespace WorkflowEngine

/-! ### The work of steps -/

namespace Step

mutual
/-- **How many motions the task of a step can make**, if no counter overflows. -/
def work : Step → Nat
  -- every step begins, comes to an outcome and tells of it
  | .simple .. => 5
  | .conditional _ _ ifSteps elseSteps cases defaultSteps =>
    5 + workOption ifSteps + workOption elseSteps + workCases cases + workOption defaultSteps
  -- an iteration begins and ends
  | .loop _ _ body => 5 + Env.maxCount * (2 + workList body)
  -- each worker, of which there are no more than steps, looks for a step in vain once
  | .parallel _ _ body => 5 + body.length + workList body

/-- The work of the steps of a list that may be absent. -/
def workOption : Option (List Step) → Nat
  | none => 0
  | some steps => workList steps

/-- The work of the steps of cases that may be absent. -/
def workCases : Option (List (String × List Step)) → Nat
  | none => 0
  | some cases => workCaseList cases

/-- The work of the steps of cases. -/
def workCaseList : List (String × List Step) → Nat
  | [] => 0
  | (_, steps) :: cases => workList steps + workCaseList cases

/-- The work of the steps of a list. -/
def workList : List Step → Nat
  | [] => 0
  | s :: ss => work s + workList ss
end

theorem five_le_work (s : Step) : 5 ≤ s.work := by
  cases s <;> rw [work] <;> omega

theorem work_le_workList {s : Step} {body : List Step} (h : s ∈ body) :
    s.work ≤ workList body := by
  induction body with
  | nil => cases h
  | cons x body ih =>
    rw [workList]
    rcases List.mem_cons.mp h with rfl | h
    · exact Nat.le_add_right ..
    · exact (ih h).trans (Nat.le_add_left ..)

theorem workList_le_workOption {steps : List Step} {l : Option (List Step)} (h : steps ∈ l) :
    workList steps ≤ workOption l := by
  cases h
  rw [workOption]

theorem workList_le_workCases {steps : List Step} {cases : Option (List (String × List Step))}
    (h : steps ∈ (cases.getD []).map Prod.snd) : workList steps ≤ workCases cases := by
  cases cases with
  | none => cases h
  | some l =>
    rw [workCases]
    -- induction on the cases, down to that of the list
    simp only [Option.getD_some] at h
    induction l with
    | nil => cases h
    | cons x l ih =>
      obtain ⟨key, steps'⟩ := x
      rw [workCaseList]
      rcases List.mem_cons.mp h with rfl | h
      · exact Nat.le_add_right ..
      · exact (ih h).trans (Nat.le_add_left ..)

/-- A branch has no more work than its conditional. -/
theorem workList_add_five_le {head : Head} {condition : String}
    {ifSteps elseSteps : Option (List Step)} {cases : Option (List (String × List Step))}
    {defaultSteps : Option (List Step)} {steps : List Step}
    (h : steps ∈ (conditional head condition ifSteps elseSteps cases defaultSteps).children) :
    workList steps + 5 ≤
      (conditional head condition ifSteps elseSteps cases defaultSteps).work := by
  rw [work]
  simp only [children, List.mem_append, Option.mem_toList] at h
  rcases h with ((h | h) | h) | h
  · have := workList_le_workOption h
    omega
  · have := workList_le_workOption h
    omega
  · have := workList_le_workCases h
    omega
  · have := workList_le_workOption h
    omega

end Step

/-! ### The work of tasks -/

/-- The work of the iterations of a loop that are to come. -/
def LoopFrame.workAhead (f : LoopFrame) : Nat :=
  3 + (Env.maxCount - f.iteration) * (2 + Step.workList f.body)

/-- The work that is left to what waits for an outcome. -/
def Frame.work : Frame → Nat
  | .finish .. => 1
  | .branch f => 2 + Step.workList f.rest
  | .loop f => Step.workList f.rest + f.workAhead

/-- The work that is left to frames. -/
def Frame.workAll : List Frame → Nat
  | [] => 0
  | f :: fs => f.work + workAll fs

mutual
/-- **How many motions a tree of tasks can still make**, if no counter overflows. -/
def Task.work : Task → Nat
  | .mk _ control fs => Control.work control + Frame.workAll fs

/-- The work that is left to what a task does next. -/
def Control.work : Control Task → Nat
  | .enter s _ => s.work
  | .calling .. => 3
  | .joining b => 3 + Block.work b
  | .proceed => 1
  | .iterate => 0
  | .settled _ => 2

/-- The work that is left to a block: that of the steps that were not taken, and that of its
workers. -/
def Block.work : Block Task → Nat
  | ⟨_, body, _, taken, _, workers⟩ => Step.workList (body.drop taken) + Worker.workAll workers

/-- The work that is left to workers. -/
def Worker.workAll : List (Worker Task) → Nat
  | [] => 0
  | w :: ws => Worker.work w + Worker.workAll ws

/-- The work that is left to a worker; one that looks for a step may find none. -/
def Worker.work : Worker Task → Nat
  | .idle => 1
  | .running _ t => Task.work t
  | .stopped => 0
end

@[simp] theorem Frame.workAll_cons (f : Frame) (fs : List Frame) :
    workAll (f :: fs) = f.work + workAll fs := rfl

theorem Block.work_eq (b : Block Task) :
    b.work = Step.workList (b.body.drop b.taken) + Worker.workAll b.workers := by
  obtain ⟨_, _, _, _, _, _⟩ := b
  rw [Block.work]

theorem Worker.workAll_append (l r : List (Worker Task)) :
    workAll (l ++ r) = workAll l + workAll r := by
  induction l with
  | nil => simp [workAll]
  | cons w l ih => rw [List.cons_append, workAll, workAll, ih, Nat.add_assoc]

theorem Worker.workAll_replicate_idle (n : Nat) : workAll (List.replicate n .idle) = n := by
  induction n with
  | zero => simp [workAll]
  | succ n ih => rw [List.replicate_succ, workAll, ih, work, Nat.add_comm]

/-- The work of workers of which one changes. -/
theorem Worker.workAll_set {ws : List (Worker Task)} {i : Nat} {v : Worker Task}
    (h : ws[i]? = some v) (w : Worker Task) :
    workAll (ws.set i w) + v.work = workAll ws + w.work := by
  obtain ⟨l, r, rfl, hset⟩ := exists_append_of_getElem? h
  simp only [hset, workAll_append, workAll]
  omega

theorem nextIteration_eq {n : Nat} (h : n < Env.maxCount) : nextIteration n = n + 1 :=
  Nat.mod_eq_of_lt (Nat.add_lt_of_lt_sub h)

theorem nextIteration_le (n : Nat) : nextIteration n ≤ Env.maxCount :=
  Nat.le_sub_one_of_lt (Nat.mod_lt _ (by decide))

/-- An iteration takes from the work of those to come. -/
theorem LoopFrame.workAhead_eq {f : LoopFrame} (h : f.iteration < Env.maxCount) (rest : List Step)
    (failed : Bool) :
    f.workAhead = 2 + Step.workList f.body +
      { f with iteration := nextIteration f.iteration, rest, failed : LoopFrame }.workAhead := by
  have hsub : Env.maxCount - f.iteration = (Env.maxCount - (f.iteration + 1)) + 1 := by omega
  simp only [workAhead, nextIteration_eq h]
  rw [hsub, Nat.add_mul]
  omega

namespace Task

theorem work_mk (c : Context) (control : Control Task) (fs : List Frame) :
    work (.mk c control fs) = Control.work control + Frame.workAll fs := by rw [work]

theorem work_start (s : Step) (c : Context) (d : Nat) : (start s c d).work = s.work := by
  rw [start, work_mk, Control.work]
  rfl

/-- A worker that changes takes from the work of the parallel step if there is less left to it, with
the steps that were not taken. -/
theorem work_setWorker {c : Context} {fs : List Frame} {b b' : Block Task} {i : Nat}
    {v w : Worker Task} (hb : b'.workers = (b.setWorker i w).workers) (hi : b.workers[i]? = some v)
    (hlt : Step.workList (b'.body.drop b'.taken) + w.work <
      Step.workList (b.body.drop b.taken) + v.work) :
    work (.mk c (.joining b') fs) < work (.mk c (.joining b) fs) := by
  -- the others keep their work
  have hset := Worker.workAll_set hi w
  have hb' : Worker.workAll b'.workers = Worker.workAll (b.workers.set i w) := congrArg _ hb
  simp only [work_mk, Control.work, b.work_eq, b'.work_eq, hb']
  omega

/-- A task that is over has work left, since it is still handed in or told of. -/
theorem work_of_outcome? {t : Task} {o : Outcome} (h : t.outcome? = some o) : t.work = 2 := by
  obtain ⟨c, control, fs⟩ := t
  cases control with
  | settled o =>
    cases fs with
    | nil => rfl
    | cons f fs => cases h
  | _ => cases h

theorem work_leaveLoop (c : Context) (f : LoopFrame) (result : Except StepError (Nat × LoopExit))
    (fs : List Frame) : work (leaveLoop c f result fs) = 2 + Frame.workAll fs := rfl

/-! ### Motions and work -/

variable {env : Env} {m : Moment}

/-- A step that begins does some of its work. -/
theorem work_enter_lt {c : Context} {s : Step} {d : Nat} {fs : List Frame} {p : Task × Effect}
    (h : Enters env m c s d fs p) : p.1.work < s.work + Frame.workAll fs := by
  cases h with
  | cancelled | failed | skipped | empty | simple =>
    have := s.five_le_work
    simp only [work_mk, Control.work, Frame.workAll_cons, Frame.work]
    omega
  | branch hs hb =>
    have := Step.workList_add_five_le (Env.mem_children_of_selectBranch hb)
    subst hs
    simp only [work_mk, Control.work, Frame.workAll_cons, Frame.work]
    omega
  | loop hs =>
    subst hs
    simp only [work_mk, Control.work, Frame.workAll_cons, Frame.work, Step.work,
      LoopFrame.workAhead, Step.workList, Nat.sub_zero]
    omega
  | @parallel head rule body hs =>
    subst hs
    have hworkers : rule.workers body.length ≤ body.length :=
      rule.workers_eq _ ▸ Nat.min_le_right ..
    simp only [work_mk, Control.work, Block.work, Frame.workAll_cons, Frame.work, Step.work,
      Worker.workAll_replicate_idle, List.drop_zero]
    omega

/-- **A task that moves by itself does some of its work**, unless it is a loop whose counter has no
room for another iteration. -/
theorem advance_work_lt {t t' : Task} {e : Effect} (h : t.advance env m = some (t', e))
    (hroom : ∀ c f fs, t = .mk c .iterate (.loop f :: fs) → f.iteration < Env.maxCount) :
    t'.work < t.work := by
  -- The frame on top or the control itself goes, or a list or a loop has less left.
  match t, h with
  | .mk c (.enter s d) fs, h =>
    have hlt := work_enter_lt (enters_enter env m c s d fs)
    rw [show Task.enter env m c s d fs = _ from Option.some.inj h] at hlt
    rwa [work_mk, Control.work]
  | .mk c (.joining b) fs, h =>
    simp only [Task.advance] at h
    split at h
    · cases h
      simp only [work_mk, Control.work]
      omega
    · cases h
  | .mk c .proceed (.branch f :: fs), h =>
    obtain rfl : proceedBranch m c f fs = t' := congrArg Prod.fst (Option.some.inj h)
    rcases proceedBranch_cases m c f fs with ⟨-, he⟩ | ⟨-, he⟩ | ⟨s, rest, hr, -, he⟩ <;> rw [he]
    · simp only [work_mk, Control.work, Frame.workAll_cons, Frame.work]
      omega
    · simp only [work_mk, Control.work, Frame.workAll_cons, Frame.work]
      omega
    · simp only [work_mk, Control.work, Frame.workAll_cons, Frame.work, hr, Step.workList]
      omega
  | .mk c .proceed (.loop f :: fs), h =>
    obtain rfl : proceedLoop env m c f fs = t' := congrArg Prod.fst (Option.some.inj h)
    rcases proceedLoop_cases env m c f fs with ⟨result, he⟩ | he | ⟨s, rest, hr, -, he⟩ <;> rw [he]
    · simp only [work_leaveLoop, work_mk, Control.work, Frame.workAll_cons, Frame.work,
        LoopFrame.workAhead]
      omega
    · simp only [work_mk, Control.work]
      omega
    · simp only [work_mk, Control.work, Frame.workAll_cons, Frame.work, LoopFrame.workAhead, hr,
        Step.workList]
      omega
  | .mk c .iterate (.loop f :: fs), h =>
    obtain rfl : Task.iterate env m c f fs = t' := congrArg Prod.fst (Option.some.inj h)
    have hahead := LoopFrame.workAhead_eq (hroom c f fs rfl) f.body false
    rcases iterate_cases env m c f fs with ⟨result, he⟩ | ⟨result, he⟩ | ⟨-, he⟩ <;> rw [he]
    · simp only [work_leaveLoop, work_mk, Control.work, Frame.workAll_cons, Frame.work,
        LoopFrame.workAhead]
      omega
    · simp only [work_leaveLoop, work_mk, Control.work, Frame.workAll_cons, Frame.work,
        LoopFrame.workAhead]
      omega
    · -- the iteration that begins is no longer one of those to come
      simp only [work_mk, Control.work, Frame.workAll_cons, Frame.work, hahead]
      omega
  | .mk c (.settled o) (.finish s d :: fs), h =>
    cases h
    simp only [work_mk, Control.work, Frame.workAll_cons, Frame.work]
    omega
  | .mk c (.settled o) (.branch f :: fs), h =>
    obtain rfl : returnToBranch c f o fs = t' := congrArg Prod.fst (Option.some.inj h)
    rcases returnToBranch_cases c f o fs with ⟨-, he⟩ | ⟨e, -, he⟩ | ⟨e, -, -, -, he⟩ <;>
      rw [he] <;> simp only [work_mk, Control.work, Frame.workAll_cons, Frame.work] <;> omega
  | .mk c (.settled o) (.loop f :: fs), h =>
    obtain rfl : returnToLoop c f o fs = t' := congrArg Prod.fst (Option.some.inj h)
    rcases returnToLoop_cases c f o fs with
      ⟨-, he⟩ | ⟨e, -, he⟩ | ⟨e, -, -, -, he⟩ | ⟨e, -, -, -, he⟩ <;> rw [he] <;>
      simp only [work_leaveLoop, work_mk, Control.work, Frame.workAll_cons, Frame.work,
        LoopFrame.workAhead] <;> omega
  | .mk _ (.calling ..) _, h | .mk _ .proceed [], h | .mk _ .proceed (.finish .. :: _), h
  | .mk _ .iterate [], h | .mk _ .iterate (.finish .. :: _), h
  | .mk _ .iterate (.branch _ :: _), h | .mk _ (.settled _) [], h => cases h

/-- **The counters of the loops that begin an iteration have room for it**, wherever in the tree. -/
def HasRoom (t : Task) : Prop :=
  ∀ path c f fs, at? path t = some (.mk c .iterate (.loop f :: fs)) → f.iteration < Env.maxCount

/-- The steps that were not taken when the next one is. -/
theorem workList_drop {body : List Step} {k : Nat} {s : Step} (h : body[k]? = some s) :
    Step.workList (body.drop k) = s.work + Step.workList (body.drop (k + 1)) := by
  obtain ⟨hk, rfl⟩ := List.getElem?_eq_some_iff.mp h
  rw [List.drop_eq_getElem_cons hk, Step.workList]

/-- **Every motion takes from the work that is left**, as long as counters have room. -/
theorem Moves.work_lt {path : List Nat} {t t' : Task} {e : Effect} (h : Moves env m path t t' e)
    (hroom : t.HasRoom) : t'.work < t.work := by
  -- Every motion takes from the work of one worker, or from that of the task itself.
  induction h with
  | here h =>
    refine advance_work_lt h ?_
    rintro c f fs rfl
    exact hroom [] c f fs rfl
  | @stop i path c fs b hi hs =>
    refine work_setWorker rfl hi ?_
    have hdrop {k : Nat} (hk : b.body.length ≤ k) : Step.workList (b.body.drop k) = 0 := by
      rw [List.drop_eq_nil_of_le hk, Step.workList]
    have htaken := List.getElem?_eq_none_iff.mp hs
    have hdrop' := hdrop (htaken.trans (Nat.le_succ _))
    simp only [Block.setWorker, hdrop htaken, hdrop', Worker.work]
    omega
  | skip hi hs =>
    refine work_setWorker rfl hi ?_
    simp only [Block.setWorker, workList_drop hs, Worker.work]
    omega
  | take hi hs =>
    refine work_setWorker rfl hi ?_
    simp only [Block.setWorker, workList_drop hs, Worker.work, work_start]
    omega
  | handIn hi ho =>
    refine work_setWorker rfl hi ?_
    -- the task that is handed in still counts, the worker that looks for a step counts less
    simp only [Task.handIn, Block.setWorker, Worker.work, work_of_outcome? ho]
    omega
  | inner hi _ _ ih =>
    refine work_setWorker rfl hi (Nat.add_lt_add_left (ih fun path c f fs hu => ?_) _)
    exact hroom (_ :: path) c f fs ((at?_of_running hi).trans hu)

/-- Answers take from the work that is left. -/
theorem Answers.work_lt {r : Except StepError Json} {path : List Nat} {t t' : Task}
    (h : Answers r path t t') : t'.work < t.work := by
  induction h with
  | here =>
    simp only [work_mk, Control.work]
    omega
  | inner hi _ ih => exact work_setWorker rfl hi (Nat.add_lt_add_left ih _)

end Task

/-! ### Counters -/

namespace Env

variable {env : Env}

/-- A value is no greater as a count than the greatest one. -/
theorem countOf?_le {v : Json} {n : Nat} (h : countOf? v = some n) : n ≤ maxCount := by
  have hfloat {x : Float} (h : countOfFloat? x = some n) : n ≤ maxCount := by
    unfold countOfFloat? at h
    split at h
    · cases h
      split
      · exact Nat.zero_le _
      · exact Nat.min_le_right ..
    · cases h
  cases v with
  | num x => exact hfloat h
  | str text =>
    rw [countOf?] at h
    obtain ⟨x, -, hx⟩ := Option.bind_eq_some_iff.mp h
    exact hfloat hx
  | _ => cases h

/-- The bound of a loop that is a number, or that of all loops, is the same in every context. -/
theorem bound_of_literal {rule : LoopRule} {n : Nat}
    (h : rule.bound = some (.count n) ∨ rule.bound = none ∧ env.defaultMaxIterations = n)
    (id : String) (c : Context) : env.bound id rule c = .ok n := by
  unfold bound
  rcases h with h | ⟨h, rfl⟩ <;> rw [h]

/-- **The bound of a loop is no greater than the greatest count**, whatever its expression is. -/
theorem bound_le (hdefault : env.defaultMaxIterations ≤ maxCount) {id : String} {rule : LoopRule}
    {c : Context} {n : Nat} (hr : ∀ b ∈ rule.bound, b.Expressible)
    (h : env.bound id rule c = .ok n) : n ≤ maxCount := by
  unfold bound at h
  split at h
  · cases h
    exact hdefault
  next k hk =>
    cases h
    exact hr _ hk
  next text =>
    obtain ⟨v, -, h⟩ := StepNode.exists_of_bind_eq_ok h
    split at h
    next k hk =>
      cases h
      exact countOf?_le hk
    next => cases h

end Env

theorem Step.Expressible.of_holds {s x : Step} (h : s.Expressible) (hx : s.Holds x) :
    x.Expressible := by
  obtain ⟨steps, hsteps, hx⟩ := hx
  exact (expressible_iff.mp h).2 steps hsteps x hx

/-- **A loop whose counter overflows** when it begins again: it has come to the last iteration that
its counter can tell of. It does not count, and there are contexts in which its bound is the
greatest count. -/
structure LoopFrame.Overflows (env : Env) (f : LoopFrame) : Prop where
  iteration : f.iteration = Env.maxCount
  type : f.rule.effectiveType ≠ .count
  bound : ∃ c, env.bound f.head.id f.rule c = .ok Env.maxCount

/-- The counter of a loop is within its bound, and so is at its end only if that can be the greatest
count. -/
def Frame.IsCounted (env : Env) : Frame → Prop
  | .loop f => f.iteration ≤ Env.maxCount ∧
    (f.iteration = Env.maxCount → ∃ c, env.bound f.head.id f.rule c = .ok Env.maxCount)
  | _ => True

namespace Task

/-- **A loop of the tree begins again after the last iteration** that its counter can tell of. -/
def Overflows (env : Env) (f : LoopFrame) (t : Task) : Prop :=
  f.Overflows env ∧ ∃ path c fs, at? path t = some (.mk c .iterate (.loop f :: fs))

/-- **What is known of the counters of a task**: they are within the bounds, and a loop that counts
begins no iteration after the last one. -/
structure IsCounted (env : Env) (t : Task) : Prop where
  frames : ∀ x ∈ t.frames, x.IsCounted env
  iterate : ∀ c f fs, t = .mk c .iterate (.loop f :: fs) → f.rule.effectiveType = .count →
    f.iteration < Env.maxCount

variable {env : Env} {m : Moment} {root : Step} {d₀ : Nat}

section

variable {c : Context} {fs : List Frame}

theorem IsCounted.enter {s : Step} {d : Nat} (h : ∀ x ∈ fs, x.IsCounted env) :
    IsCounted env (.mk c (.enter s d) fs) :=
  ⟨h, by rintro _ _ _ ⟨⟩⟩

theorem IsCounted.calling {head : Head} {leaf : Leaf} {d : Nat} (h : ∀ x ∈ fs, x.IsCounted env) :
    IsCounted env (.mk c (.calling head leaf d) fs) :=
  ⟨h, by rintro _ _ _ ⟨⟩⟩

theorem IsCounted.joining {b : Block Task} (h : ∀ x ∈ fs, x.IsCounted env) :
    IsCounted env (.mk c (.joining b) fs) :=
  ⟨h, by rintro _ _ _ ⟨⟩⟩

theorem IsCounted.proceed (h : ∀ x ∈ fs, x.IsCounted env) : IsCounted env (.mk c .proceed fs) :=
  ⟨h, by rintro _ _ _ ⟨⟩⟩

theorem IsCounted.settled {o : Outcome} (h : ∀ x ∈ fs, x.IsCounted env) :
    IsCounted env (.mk c (.settled o) fs) :=
  ⟨h, by rintro _ _ _ ⟨⟩⟩

end

theorem IsCounted.start (s : Step) (c : Context) (d : Nat) : IsCounted env (start s c d) :=
  .enter (List.forall_mem_nil _)

theorem Hosts.expressible {s : Step} {d : Nat} {fs : List Frame} (h : Hosts root d₀ s d fs)
    (hroot : root.Expressible) : s.Expressible := by
  induction h with
  | root => exact hroot
  | branch _ _ hs ih => exact ih.of_holds hs
  | loop _ _ hs ih => exact ih.of_holds hs

/-- An iteration that begins is within the bound. -/
theorem exists_bound_of_iterate {c c' : Context} {f : LoopFrame} {fs fs' : List Frame}
    (h : iterate env m c f fs = .mk c' .proceed fs') :
    ∃ n, env.bound f.head.id f.rule c = .ok n ∧ nextIteration f.iteration ≤ n := by
  unfold iterate at h
  split at h
  · cases h
  · dsimp only at h
    split at h
    · cases h
    next n hn =>
      split at h
      · cases h
      next hle => exact ⟨n, hn, Nat.le_of_not_lt hle⟩

/-- A loop that counts begins again below its bound. -/
theorem exists_bound_of_proceedLoop {c c' : Context} {f : LoopFrame} {fs fs' : List Frame}
    (h : proceedLoop env m c f fs = .mk c' .iterate fs') (htype : f.rule.effectiveType = .count) :
    ∃ n, env.bound f.head.id f.rule c = .ok n ∧ f.iteration < n := by
  unfold proceedLoop at h
  split at h
  · -- the body is over, and the loop does not break off
    unfold afterBody at h
    dsimp only at h
    split at h
    · cases h
    · cases h
    · rw [htype] at h
      dsimp only at h
      split at h
      · cases h
      next n hn =>
        split at h
        · cases h
        next hlt => exact ⟨n, hn, Nat.lt_of_not_le hlt⟩
  · split at h <;> cases h

/-- **Counters stay within the bounds** when a task moves by itself. -/
theorem IsCounted.advance (hdefault : env.defaultMaxIterations ≤ Env.maxCount)
    (hroot : root.Expressible) {t t' : Task} {e : Effect} (ht : Placed root d₀ t)
    (hc : t.IsCounted env) (h : t.advance env m = some (t', e)) : t'.IsCounted env := by
  have hle {p : Step} {f : LoopFrame} {c : Context} {d n : Nat} {fs : List Frame}
      (hs : Hosts root d₀ p d fs) (hf : f.Of p d) (hn : env.bound f.head.id f.rule c = .ok n) :
      n ≤ Env.maxCount := by
    have hloop : (Step.loop f.head f.rule f.body).Expressible := hf.step ▸ hs.expressible hroot
    exact Env.bound_le hdefault (Step.expressible_iff.mp hloop).1 hn
  have hfs := hc.frames
  -- By what the task does next: counters change only when an iteration begins.
  cases ht with
  | @enter _ _ c s d fs hs =>
    have he := enters_enter env m c s d fs
    rw [show Task.enter env m c s d fs = _ from Option.some.inj h] at he
    have hfs : ∀ x ∈ Frame.finish s d :: fs, x.IsCounted env :=
      List.forall_mem_cons.mpr ⟨trivial, hfs⟩
    cases he with
    | cancelled | failed | skipped | empty => exact .settled hfs
    | simple => exact .calling hfs
    | parallel => exact .joining hfs
    | branch => exact .proceed (List.forall_mem_cons.mpr ⟨trivial, hfs⟩)
    | loop =>
      have hzero : 0 < Env.maxCount := by decide
      refine ⟨List.forall_mem_cons.mpr ⟨⟨Nat.zero_le _, fun he => absurd he hzero.ne⟩, hfs⟩, ?_⟩
      rintro _ _ _ ⟨⟩ -
      exact hzero
  | calling => cases h
  | joining hs =>
    simp only [Task.advance] at h
    split at h
    · cases h
      exact .settled hfs
    · cases h
  | @branch _ _ p c f d fs hs hf =>
    obtain rfl : proceedBranch m c f (.finish p d :: fs) = t' :=
      congrArg Prod.fst (Option.some.inj h)
    obtain ⟨-, hfs'⟩ := List.forall_mem_cons.mp hfs
    rcases proceedBranch_cases m c f (.finish p d :: fs) with
      ⟨-, he⟩ | ⟨-, he⟩ | ⟨s, rest, -, -, he⟩ <;> rw [he]
    · exact .settled hfs'
    · exact .settled hfs'
    · exact .enter (List.forall_mem_cons.mpr ⟨trivial, hfs'⟩)
  | @loop _ _ p c f d fs hs hf =>
    obtain rfl : proceedLoop env m c f (.finish p d :: fs) = t' :=
      congrArg Prod.fst (Option.some.inj h)
    obtain ⟨hcounted, hfs'⟩ := List.forall_mem_cons.mp hfs
    rcases proceedLoop_cases env m c f (.finish p d :: fs) with
      ⟨result, he⟩ | he | ⟨s, rest, hr, -, he⟩
    · rw [he]
      exact .settled hfs'
    · have hbound := exists_bound_of_proceedLoop he
      rw [he]
      refine ⟨hfs, ?_⟩
      rintro _ _ _ ⟨⟩ htype
      obtain ⟨n, hn, hlt⟩ := hbound htype
      exact Nat.lt_of_lt_of_le hlt (hle hs hf hn)
    · rw [he]
      exact .enter (List.forall_mem_cons.mpr ⟨hcounted, hfs'⟩)
  | @iterate _ _ p c f d fs hs hf =>
    obtain rfl : Task.iterate env m c f (.finish p d :: fs) = t' :=
      congrArg Prod.fst (Option.some.inj h)
    obtain ⟨-, hfs'⟩ := List.forall_mem_cons.mp hfs
    rcases iterate_cases env m c f (.finish p d :: fs) with
      ⟨result, he⟩ | ⟨result, he⟩ | ⟨-, he⟩
    · rw [he]
      exact .settled hfs'
    · rw [he]
      exact .settled hfs'
    · obtain ⟨n, hn, hnext⟩ := exists_bound_of_iterate he
      rw [he]
      refine .proceed (List.forall_mem_cons.mpr ⟨⟨nextIteration_le _, fun hmax => ?_⟩, hfs'⟩)
      -- the bound is no less than the iteration, and no greater than the greatest count
      have hlast : n = Env.maxCount :=
        Nat.le_antisymm (hle hs hf hn) (Nat.le_trans (Nat.le_of_eq hmax.symm) hnext)
      exact ⟨c, by rw [hn, hlast]⟩
  | ended hs ho =>
    cases h
    exact .settled (List.forall_mem_cons.mp hfs).2
  | @returned _ _ s c o d fs hs =>
    cases hs with
    | root => cases h
    | @branch p s f d fs hs hf =>
      obtain rfl : returnToBranch c f o (.finish p d :: fs) = t' :=
        congrArg Prod.fst (Option.some.inj h)
      rcases returnToBranch_cases c f o (.finish p d :: fs) with
        ⟨-, he⟩ | ⟨e, -, he⟩ | ⟨e, -, -, -, he⟩ <;> rw [he]
      · exact .proceed hfs
      · exact .settled (List.forall_mem_cons.mp hfs).2
      · exact .settled (List.forall_mem_cons.mp hfs).2
    | @loop p s f d fs hs hf =>
      obtain rfl : returnToLoop c f o (.finish p d :: fs) = t' :=
        congrArg Prod.fst (Option.some.inj h)
      obtain ⟨hcounted, hfs'⟩ := List.forall_mem_cons.mp hfs
      rcases returnToLoop_cases c f o (.finish p d :: fs) with
        ⟨-, he⟩ | ⟨e, -, he⟩ | ⟨e, -, -, -, he⟩ | ⟨e, -, -, -, he⟩ <;> rw [he]
      · exact .proceed hfs
      · exact .settled hfs'
      · exact .proceed (List.forall_mem_cons.mpr ⟨hcounted, hfs'⟩)
      · exact .settled hfs'

/-- **What is known of all counters** of a tree of tasks. -/
def Counted (env : Env) : Task → Prop := Throughout (IsCounted env)

theorem Counted.start (s : Step) (c : Context) (d : Nat) : Counted env (start s c d) :=
  .alone (.start s c d) fun _ _ => rfl

/-- **Motions keep counters within the bounds.** -/
theorem Counted.moves (hdefault : env.defaultMaxIterations ≤ Env.maxCount)
    (hroot : root.Expressible) {path : List Nat} {t t' : Task} {e : Effect}
    (ht : Placed root d₀ t) (hc : Counted env t) (h : Moves env m path t t' e) :
    Counted env t' := by
  induction h generalizing root d₀ with
  | here h => exact .alone (hc.here.advance hdefault hroot ht h) (advance_becomes h).2
  | stop | skip | handIn =>
    exact Throughout.setWorker hc rfl (.joining hc.here.frames) nofun
  | take =>
    refine Throughout.setWorker hc rfl (.joining hc.here.frames) fun index t he => ?_
    cases he
    exact Counted.start _ _ _
  | @inner i path c fs index t t' e b hi _ _ ih =>
    cases ht with
    | joining hs hd hb hw =>
      obtain ⟨s, hx⟩ := hb _ _ _ hi
      refine Throughout.setWorker hc rfl (.joining hc.here.frames) fun index t he => ?_
      cases he
      refine ih ((hs.expressible hroot).of_holds ?_) (hw _ _ _ s hi hx) (Throughout.worker hc hi)
      exact ⟨b.body, by simp [Step.children], List.mem_of_getElem? hx⟩

theorem Counted.answers {r : Except StepError Json} {path : List Nat} {t t' : Task}
    (hc : Counted env t) (h : Answers r path t t') : Counted env t' := by
  induction h with
  | here => exact .alone (.settled hc.here.frames) fun _ _ => rfl
  | inner hi _ ih =>
    refine Throughout.setWorker hc rfl (.joining hc.here.frames) fun index t he => ?_
    cases he
    exact ih (Throughout.worker hc hi)

/-- **Only a loop that does not count may have no room for another iteration**, and only if its
bound can be the greatest count. -/
theorem Counted.hasRoom {t : Task} (hc : Counted env t) (ho : ∀ f, ¬ Overflows env f t) :
    t.HasRoom := by
  intro path c f fs hu
  obtain ⟨hle, hbound⟩ := (hc path _ hu).frames _ (List.mem_cons_self ..)
  refine Nat.lt_of_le_of_ne hle fun he =>
    ho f ⟨⟨he, fun htype => ?_, hbound he⟩, path, c, fs, hu⟩
  exact absurd he ((hc path _ hu).iterate c f fs rfl htype).ne

/-! ### Runs -/

/-- As long as a task is not over, a thread of it can move at any moment or takes any answer. -/
theorem Placed.exists_motion {t : Task} (ht : Placed root d₀ t) (env : Env)
    (ho : t.outcome? = none) : ∃ path, (∀ m, (step env (.moves path m) t).isSome = true) ∨
      ∀ r, (step env (.answers path r) t).isSome = true := by
  obtain ⟨path, hp⟩ := ht.exists_thread env ho
  refine ⟨path, hp.imp_right fun hp r => ?_⟩
  obtain ⟨x, hx⟩ := Option.isSome_iff_exists.mp hp
  obtain ⟨t', ht'⟩ := exists_answers_of_callAt? hx r
  simp [step, ht']

theorem Placed.step {x : Motion} {t t' : Task} {e : Effect} (ht : Placed root d₀ t)
    (h : step env x t = some (t', e)) : Placed root d₀ t' := by
  cases x with
  | moves path m => exact ht.moves (advanceAt_eq_some_iff.mp h)
  | answers path r =>
    obtain ⟨u, hu, heq⟩ := Option.map_eq_some_iff.mp h
    cases heq
    exact ht.answers (answerAt_eq_some_iff.mp hu)

theorem Placed.follow {xs : List Motion} {t t' : Task} {es : List Ending} (ht : Placed root d₀ t)
    (h : follow env xs t = some (t', es)) : Placed root d₀ t' := by
  induction xs generalizing t es with
  | nil =>
    cases h
    exact ht
  | cons x xs ih =>
    obtain ⟨u, e, es', hu, hrest, rfl⟩ := follow_cons_eq_some_iff.mp h
    exact ih (ht.step hu) hrest

/-- **One motion** keeps counters within the bounds and takes from the work that is left. -/
theorem Counted.step (hdefault : env.defaultMaxIterations ≤ Env.maxCount)
    (hroot : root.Expressible) {x : Motion} {t t' : Task} {e : Effect} (ht : Placed root d₀ t)
    (hc : Counted env t) (ho : ∀ f, ¬ Overflows env f t) (h : step env x t = some (t', e)) :
    Counted env t' ∧ t'.work < t.work := by
  cases x with
  | moves path m =>
    have h := advanceAt_eq_some_iff.mp h
    exact ⟨hc.moves hdefault hroot ht h, h.work_lt (hc.hasRoom ho)⟩
  | answers path r =>
    obtain ⟨u, hu, heq⟩ := Option.map_eq_some_iff.mp h
    cases heq
    have h := answerAt_eq_some_iff.mp hu
    exact ⟨hc.answers h, h.work_lt⟩

/-- **A number of motions**: each of them takes from the work that is left, unless a counter has
overflowed on the way. -/
theorem Counted.follow (hdefault : env.defaultMaxIterations ≤ Env.maxCount)
    (hroot : root.Expressible) {xs : List Motion} {t t' : Task} {es : List Ending}
    (ht : Placed root d₀ t) (hc : Counted env t) (h : follow env xs t = some (t', es)) :
    xs.length + t'.work ≤ t.work ∨
      ∃ ys u us f, ys <+: xs ∧ follow env ys t = some (u, us) ∧ Overflows env f u := by
  induction xs generalizing t es with
  | nil =>
    cases h
    exact .inl (Nat.zero_add _).le
  | cons x xs ih =>
    obtain ⟨u, e, es', hu, hrest, rfl⟩ := follow_cons_eq_some_iff.mp h
    by_cases ho : ∃ f, Overflows env f t
    · obtain ⟨f, ho⟩ := ho
      exact .inr ⟨[], t, [], f, List.nil_prefix, rfl, ho⟩
    obtain ⟨hcounted, hlt⟩ := hc.step hdefault hroot ht (not_exists.mp ho) hu
    rcases ih (ht.step hu) hcounted hrest with hle | ⟨ys, v, vs, f, hys, hv, hover⟩
    · refine .inl ?_
      rw [List.length_cons]
      omega
    · exact .inr ⟨x :: ys, v, _, f, List.cons_prefix_cons.mpr ⟨rfl, hys⟩,
        follow_cons_eq_some_iff.mpr ⟨u, e, vs, hu, hv, rfl⟩, hover⟩

/-- A loop that begins an iteration is in the tree of the step that is run. -/
theorem Placed.lineage_of_iterate {path : List Nat} {t : Task} {c : Context} {f : LoopFrame}
    {fs : List Frame} (ht : Placed root d₀ t)
    (hu : Task.at? path t = some (.mk c .iterate (.loop f :: fs))) :
    ∃ l, root.Lineage (.loop f.head f.rule f.body :: l) := by
  -- Induction on the path: what a worker runs is in the list of the parallel step.
  induction path generalizing root d₀ t with
  | nil =>
    cases hu
    cases ht with
    | iterate hs hf => exact ⟨_, hf.step ▸ hs.lineage.1⟩
  | cons i path ih =>
    obtain ⟨c, b, fs, index, t', rfl, hi, he⟩ := exists_worker_of_at? (Option.isSome_of_mem hu)
    cases ht with
    | joining hs hd hb hw =>
      obtain ⟨s, hx⟩ := hb _ _ _ hi
      obtain ⟨l, hl⟩ := ih (hw _ _ _ s hi hx) (he ▸ hu)
      exact ⟨_, hl.append hs.lineage.1 ⟨b.body, by simp [Step.children], List.mem_of_getElem? hx⟩⟩

/-- **Every step that is run comes to its end, unless a counter overflows.** A run of a step that a
document can express, in whatever context, with whatever schedule and answers, has no more motions
than the step has work, unless on the way a loop of the step has begun again after the last
iteration that its counter can tell of. Such a loop does not count, and its bound can be the
greatest count. As long as the step is not over, a thread of it can move at any moment or takes any
answer. -/
theorem stops_or_overflows (hdefault : env.defaultMaxIterations ≤ Env.maxCount) {s : Step}
    (hs : s.Expressible) {c : Context} {d : Nat} {xs : List Motion} {t : Task} {es : List Ending}
    (h : follow env xs (start s c d) = some (t, es)) :
    (xs.length ≤ s.work ∨ ∃ f l ys u us, s.Lineage (.loop f.head f.rule f.body :: l) ∧ ys <+: xs ∧
      follow env ys (start s c d) = some (u, us) ∧ Overflows env f u) ∧
    (t.outcome? = none → ∃ path, (∀ m, (step env (.moves path m) t).isSome = true) ∨
      ∀ r, (step env (.answers path r) t).isSome = true) := by
  have hplaced := Placed.start s c d
  have hcounted : Counted env (start s c d) := .start s c d
  constructor
  · rcases hcounted.follow hdefault hs hplaced h with hle | ⟨ys, u, us, f, hys, hu, hover⟩
    · rw [work_start] at hle
      exact .inl ((Nat.le_add_right ..).trans hle)
    · obtain ⟨path, c', fs, hat⟩ := hover.2
      obtain ⟨l, hl⟩ := (hplaced.follow hu).lineage_of_iterate hat
      exact .inr ⟨f, l, ys, u, us, hl, hys, hu, hover⟩
  · exact (hplaced.follow h).exists_motion env

end Task

/-- A loop that is repeated until its step does not fail, up to a bound. -/
def Step.retrying (bound : Nat) : Step :=
  .loop ⟨"l", none, default⟩ ⟨some .retry, none, some (.count bound), none, .proceed⟩
    [.simpleNamed "a"]

/-- The step of the loop fails once. -/
def Motion.retriedOnce : List Motion :=
  let go : Motion := .moves [] { cancelled := false }
  List.replicate 4 go ++ .answers [] (.error (.executionFailed "a" "no")) ::
    (List.replicate 6 go ++ .answers [] (.ok .null) :: List.replicate 4 go)

namespace Task

/-- A loop that ends in its second iteration. -/
theorem stops_or_overflows_retriedOnce : ∃ t es,
    follow ⟨fun _ _ => .ok .null, 1⟩ Motion.retriedOnce
        (start (.retrying 2) (.ofWorkItem .null) 0) = some (t, es) ∧
      t.outcome? = some (.ok (.loop 2 .succeeded)) ∧
      Motion.retriedOnce.length ≤ (Step.retrying 2).work := by
  have hbound : 1 ≤ Env.maxCount := by decide
  have hretrying : (Step.retrying 2).Expressible := by
    refine Step.expressible_iff.mpr ⟨?_, ?_⟩
    · rintro _ ⟨⟩
      exact Nat.le_of_ble_eq_true rfl
    · refine List.forall_mem_singleton.mpr (List.forall_mem_singleton.mpr ?_)
      exact Step.expressible_iff.mpr ⟨nofun, nofun⟩
  obtain ⟨t, es, h, ho⟩ : ∃ t es, follow ⟨fun _ _ => .ok .null, 1⟩ Motion.retriedOnce
      (start (.retrying 2) (.ofWorkItem .null) 0) = some (t, es) ∧
      t.outcome? = some (.ok (.loop 2 .succeeded)) := ⟨_, _, rfl, rfl⟩
  refine ⟨t, es, h, ho, (stops_or_overflows hbound hretrying h).1.resolve_right ?_⟩
  rintro ⟨f, l, -, -, -, hl, -, -, ⟨-, -, c, hmax⟩, -⟩
  -- the only loop has two iterations at most
  rcases hl.root_or_held with he | ⟨x, l', ⟨steps, hsteps, hx⟩, hl', he⟩
  · obtain ⟨-, hrule, -⟩ := Step.loop.inj (List.cons.inj he).1
    rw [hrule] at hmax
    exact absurd (Except.ok.inj hmax) (by decide)
  · obtain rfl := List.mem_singleton.mp hsteps
    obtain rfl := List.mem_singleton.mp hx
    rcases hl'.root_or_held with rfl | ⟨y, -, ⟨steps, hsteps, -⟩, -⟩
    · cases he
    · cases hsteps

/-! ### A loop that never stops -/

/-- The frames of the loop whose bound is the greatest count, in an iteration. -/
def retryingFrames (n : Nat) (rest : List Step) (failed : Bool) : List Frame :=
  [.loop ⟨⟨"l", none, default⟩, ⟨some .retry, none, some (.count Env.maxCount), none, .proceed⟩,
      [.simpleNamed "a"], 1, n, rest, failed⟩,
    .finish (.retrying Env.maxCount) 0]

/-- **What becomes of a loop whose bound is the greatest count** when its step fails each time. -/
inductive Endless : Task → Prop where
  | begins {c} : Endless (.mk c (.enter (.retrying Env.maxCount) 0) [])
  | iterates {c n failed} : Endless (.mk c .iterate (retryingFrames n [] failed))
  | goesOn {c n} : Endless (.mk c .proceed (retryingFrames n [.simpleNamed "a"] false))
  | enters {c n} : Endless (.mk c (.enter (.simpleNamed "a") 1) (retryingFrames n [] false))
  | waits {c n leaf} : Endless (.mk c (.calling ⟨"a", none, default⟩ leaf 1)
      (.finish (.simpleNamed "a") 1 :: retryingFrames n [] false))
  | ends {c n e} (he : e.isCancelled = false) : Endless (.mk c (.settled (.error e))
      (.finish (.simpleNamed "a") 1 :: retryingFrames n [] false))
  | fails {c n e} (he : e.isCancelled = false) :
      Endless (.mk c (.settled (.error e)) (retryingFrames n [] false))
  | retries {c n} : Endless (.mk c .proceed (retryingFrames n [] true))

/-- The next iteration begins, whichever that is: none is past the greatest count. -/
theorem Endless.iterate {c : Context} {n : Nat} {failed : Bool} {t' : Task} {e : Effect}
    (hm : m.cancelled = false)
    (h : (Task.mk c .iterate (retryingFrames n [] failed)).advance env m = some (t', e)) :
    Endless t' := by
  obtain ⟨rfl, -⟩ := Prod.mk.inj (Option.some.inj h)
  have hnext : ¬ Env.maxCount < nextIteration n := Nat.not_lt.mpr (nextIteration_le n)
  simp only [Task.iterate, hm, Bool.false_eq_true, if_false, Env.bound, hnext]
  exact .goesOn

theorem Endless.goes {t t' : Task} (ht : Endless t) (h : Goes (.failing "a") t t') :
    Endless t' := by
  cases ht with
  | begins => cases h with | here h => cases h; exact .iterates
  | iterates => cases h with | here h => exact .iterate rfl h
  | goesOn => cases h with | here h => cases h; exact .enters
  | enters => cases h with | here h => cases h; exact .waits
  | waits =>
    cases h with
    | here h => cases h
    | answered => exact .ends rfl
  | ends he => cases h with | here h => cases h; exact .fails he
  | fails he =>
    cases h with
    | here h =>
      -- the failure does not count for the loop
      obtain ⟨rfl, -⟩ := Prod.mk.inj (Option.some.inj h)
      simp only [returnToLoop, he, Bool.false_eq_true, if_false]
      exact .retries
  | retries => cases h with | here h => cases h; exact .iterates

theorem Endless.runs {n : Nat} {t t' : Task} (ht : Endless t) (h : Runs (.failing "a") n t t') :
    Endless t' := by
  induction h with
  | refl => exact ht
  | cons h _ ih => exact ih (ht.goes h.goes)

theorem Endless.outcome? {t : Task} (ht : Endless t) : t.outcome? = none := by
  cases ht <;> rfl

/-- A valid workflow with a loop whose step fails each time and whose bound is the greatest count:
however often its task moves, it is not over and can go on. -/
theorem endless_never_stops :
    ({ (default : Workflow) with
      id := "w", name := "W", steps := [.retrying Env.maxCount] } : Workflow).validate.isValid =
        true ∧
    ∀ n t, Runs (.failing "a") n (start (.retrying Env.maxCount) (.ofWorkItem .null) 0) t →
      t.outcome? = none ∧ ∃ t', Acts (.failing "a") t t' := by
  refine ⟨by decide +kernel, fun n t h => ?_⟩
  have ho := (Endless.begins.runs h).outcome?
  exact ⟨ho, ((Placed.start _ _ _).runs h).exists_acts ho⟩

end Task

end WorkflowEngine
