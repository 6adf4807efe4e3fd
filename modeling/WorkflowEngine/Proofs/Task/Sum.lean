import Mathlib.Algebra.BigOperators.Group.List.Basic
import Mathlib.Algebra.Order.Group.Multiset
import WorkflowEngine.Proofs.Task.Pass
import WorkflowEngine.Proofs.Task.Schedule
import WorkflowEngine.Proofs.Task.Trace

/-!
# Sums over trees of tasks

What a tree of tasks has in all is what each task in it has by itself, at its path, what each frame
has that waits, and what each worker has that looks for a step. A thread that moves changes the sum
of the parallel steps around it by what it changes of its own. One such sum is that of the steps
that are underway: a step is as often over as it has begun, but for those.

## Main definitions

* `Weights`: what tasks, frames and workers have by themselves
* `Task.sum`: the sum over a tree of tasks
* `Task.underway`: the steps of a tree of tasks that have begun and are not over

## Main results

* `Task.sum_setWorker`: the sum over a parallel step of which one worker changes
* `Task.sum_update`: the sum when one task of the tree has something else
* `Task.Moves.underway`, `Task.Answers.underway`: steps begin and end
-/

namespace WorkflowEngine

/-- What tasks, frames and workers that look for a step have by themselves; for a task it may depend
on its path. -/
structure Weights (M : Type) where
  control : List Nat → Control Task → M
  frame : Frame → M
  idle : M

/-- What the tasks within that of a worker have. -/
def Weights.within {M : Type} (W : Weights M) (i : Nat) : Weights M :=
  { W with control := fun path => W.control (i :: path) }

theorem Weights.within_congr {M : Type} {W W' : Weights M} {i : Nat}
    (hcontrol : ∀ path, W'.control (i :: path) = W.control (i :: path))
    (hframe : W'.frame = W.frame) (hidle : W'.idle = W.idle) : W'.within i = W.within i := by
  rw [within, within, hframe, hidle, funext hcontrol]

variable {M : Type} [AddCommMonoid M]

mutual
/-- **The sum over a tree of tasks** of what tasks, frames and workers have by themselves. -/
def Task.sum (W : Weights M) : Task → M
  | .mk _ control fs => W.control [] control + Control.sum W control + (fs.map W.frame).sum

/-- The sum over the tasks that are within what a task does next. -/
def Control.sum (W : Weights M) : Control Task → M
  | .joining b => Block.sum W b
  | _ => 0

/-- The sum over the tasks of a parallel step. -/
def Block.sum (W : Weights M) : Block Task → M
  | ⟨_, _, _, _, _, workers⟩ => Worker.sumAll W 0 workers

/-- The sum over the tasks of workers, of whom the first has a number. -/
def Worker.sumAll (W : Weights M) (i : Nat) : List (Worker Task) → M
  | [] => 0
  | w :: ws => Worker.sum (W.within i) w + Worker.sumAll W (i + 1) ws

/-- The sum over the task of a worker. -/
def Worker.sum (W : Weights M) : Worker Task → M
  | .idle => W.idle
  | .running _ t => Task.sum W t
  | .stopped => 0
end

variable {W W' : Weights M}

@[simp] theorem Worker.sum_idle : Worker.sum W .idle = W.idle := by rw [Worker.sum]

@[simp] theorem Worker.sum_stopped : Worker.sum W .stopped = 0 := by rw [Worker.sum]

@[simp] theorem Worker.sum_running (index : Nat) (t : Task) :
    Worker.sum W (.running index t) = t.sum W := by rw [Worker.sum]

theorem Block.sum_eq (b : Block Task) : b.sum W = Worker.sumAll W 0 b.workers := by
  obtain ⟨_, _, _, _, _, _⟩ := b
  rw [Block.sum]

theorem Task.sum_mk (c : Context) (control : Control Task) (fs : List Frame) :
    Task.sum W (.mk c control fs) =
      W.control [] control + control.sum W + (fs.map W.frame).sum := by
  rw [Task.sum]

@[simp] theorem Control.sum_joining (b : Block Task) :
    Control.sum W (.joining b) = Worker.sumAll W 0 b.workers := by
  rw [Control.sum, Block.sum_eq]

@[simp] theorem Control.sum_enter (s : Step) (d : Nat) : Control.sum W (.enter s d) = 0 := by
  simp [Control.sum]

@[simp] theorem Control.sum_calling (head : Head) (leaf : Leaf) (d : Nat) :
    Control.sum W (.calling head leaf d) = 0 := by
  simp [Control.sum]

@[simp] theorem Control.sum_proceed : Control.sum W .proceed = 0 := by simp [Control.sum]

@[simp] theorem Control.sum_iterate : Control.sum W .iterate = 0 := by simp [Control.sum]

@[simp] theorem Control.sum_settled (o : Outcome) : Control.sum W (.settled o) = 0 := by
  simp [Control.sum]

/-- No worker has begun. -/
theorem Worker.sumAll_replicate_idle (i n : Nat) :
    Worker.sumAll W i (List.replicate n .idle) = n • W.idle := by
  induction n generalizing i with
  | zero => rw [List.replicate_zero, Worker.sumAll, zero_nsmul]
  | succ n ih =>
    rw [List.replicate_succ, Worker.sumAll, ih, Worker.sum_idle, add_comm, succ_nsmul]
    rfl

/-- All workers have stopped. -/
theorem Worker.sumAll_of_isOver {b : Block Task} (h : b.isOver = true) :
    Worker.sumAll W 0 b.workers = 0 := by
  have hw := Block.isOver_iff.mp h
  generalize b.workers = ws at hw
  generalize 0 = i
  induction ws generalizing i with
  | nil => rw [Worker.sumAll]
  | cons w ws ih =>
    obtain ⟨rfl, hws⟩ := List.forall_mem_cons.mp hw
    rw [Worker.sumAll, ih hws, Worker.sum_stopped, add_zero]

/-- **The sum over workers of whom one changes.** -/
theorem Worker.sumAll_set {ws : List (Worker Task)} {i : Nat} {v : Worker Task}
    (h : ws[i]? = some v) (w : Worker Task) (n : Nat) :
    Worker.sumAll W n (ws.set i w) + v.sum (W.within (n + i)) =
      Worker.sumAll W n ws + w.sum (W.within (n + i)) := by
  induction ws generalizing i n with
  | nil => cases h
  | cons x ws ih =>
    cases i with
    | zero =>
      obtain rfl : x = v := by simpa using h
      rw [List.set_cons_zero, Worker.sumAll, Worker.sumAll, Nat.add_zero]
      ac_rfl
    | succ i =>
      have hrest := ih (i := i) (by simpa using h) (n + 1)
      rw [Nat.add_right_comm n 1 i, Nat.add_assoc n i 1] at hrest
      rw [List.set_cons_succ, Worker.sumAll, Worker.sumAll, add_assoc, add_assoc, hrest]

/-- The sum over workers if there is something else within the task of one. -/
theorem Worker.sumAll_update {ws : List (Worker Task)} {i : Nat} {v : Worker Task} {x x' : M}
    (h : ws[i]? = some v) (n : Nat) (hW : ∀ j, j ≠ n + i → W'.within j = W.within j)
    (hv : v.sum (W'.within (n + i)) + x = v.sum (W.within (n + i)) + x') :
    Worker.sumAll W' n ws + x = Worker.sumAll W n ws + x' := by
  induction ws generalizing i n with
  | nil => cases h
  | cons y ws ih =>
    cases i with
    | zero =>
      obtain rfl : y = v := by simpa using h
      have hothers {m : Nat} (hm : n < m) : Worker.sumAll W' m ws = Worker.sumAll W m ws := by
        clear ih h
        induction ws generalizing m with
        | nil => rw [Worker.sumAll, Worker.sumAll]
        | cons z ws ih =>
          rw [Worker.sumAll, Worker.sumAll, hW m hm.ne', ih (Nat.lt_succ_of_lt hm)]
      rw [Nat.add_zero] at hv
      rw [Worker.sumAll, Worker.sumAll, hothers (Nat.lt_succ_self n), add_right_comm, hv,
        add_right_comm]
    | succ i =>
      have heq : n + 1 + i = n + (i + 1) := by omega
      have hrest := ih (i := i) (by simpa using h) (n + 1) (fun j hj => hW j (heq ▸ hj)) (heq ▸ hv)
      rw [Worker.sumAll, Worker.sumAll, hW n (by omega), add_assoc, add_assoc, hrest]

namespace Task

/-- **The sum over a parallel step of which one worker changes.** -/
theorem sum_setWorker (c : Context) (fs : List Frame) {b b' : Block Task} {i : Nat}
    {v w : Worker Task} (hb : b'.workers = (b.setWorker i w).workers)
    (hi : b.workers[i]? = some v) :
    Task.sum W (.mk c (.joining b') fs) + v.sum (W.within i) + W.control [] (.joining b) =
      Task.sum W (.mk c (.joining b) fs) + w.sum (W.within i) + W.control [] (.joining b') := by
  have hset := Worker.sumAll_set (W := W) hi w 0
  rw [Nat.zero_add] at hset
  have hb' : b'.workers = b.workers.set i w := hb
  simp only [sum_mk, Control.sum_joining, hb']
  -- what the others have stays as it is
  generalize Worker.sumAll W 0 (b.workers.set i w) = x at hset ⊢
  generalize Worker.sumAll W 0 b.workers = y at hset ⊢
  calc W.control [] (.joining b') + x + (fs.map W.frame).sum + v.sum (W.within i) +
        W.control [] (.joining b)
      = (x + v.sum (W.within i)) +
          (W.control [] (.joining b) + W.control [] (.joining b') + (fs.map W.frame).sum) := by
        ac_rfl
    _ = (y + w.sum (W.within i)) +
          (W.control [] (.joining b) + W.control [] (.joining b') + (fs.map W.frame).sum) := by
        rw [hset]
    _ = _ := by ac_rfl

/-- **The sum over a tree in which one task has something else** by itself. -/
theorem sum_update {path : List Nat} {t u : Task} (hu : at? path t = some u)
    (hcontrol : ∀ q, q ≠ path → W'.control q = W.control q) (hframe : W'.frame = W.frame)
    (hidle : W'.idle = W.idle) :
    t.sum W' + W.control path u.control = t.sum W + W'.control path u.control := by
  induction path generalizing W W' t with
  | nil =>
    obtain rfl : t = u := Option.some.inj hu
    obtain ⟨c, control, fs⟩ := t
    have hwithin (j : Nat) : W'.within j = W.within j :=
      Weights.within_congr (fun q => hcontrol _ nofun) hframe hidle
    have hnested : control.sum W' = control.sum W := by
      cases control with
      | joining b =>
        rw [Control.sum_joining, Control.sum_joining]
        generalize 0 = i
        induction b.workers generalizing i with
        | nil => rw [Worker.sumAll, Worker.sumAll]
        | cons w ws ih => rw [Worker.sumAll, Worker.sumAll, hwithin, ih]
      | _ => simp
    rw [sum_mk, sum_mk, hnested, hframe]
    simp only [Task.control]
    ac_rfl
  | cons i path ih =>
    obtain ⟨c, b, fs, index, t', rfl, hi, he⟩ := exists_worker_of_at? (Option.isSome_of_mem hu)
    have hinner : t'.sum (W'.within i) + (W.within i).control path u.control =
        t'.sum (W.within i) + (W'.within i).control path u.control := by
      refine ih (he ▸ hu) (fun q hq => ?_) hframe hidle
      exact hcontrol (i :: q) fun h => hq (List.cons.inj h).2
    have hworker : Worker.sum (W'.within (0 + i)) (.running index t') +
          W.control (i :: path) u.control =
        Worker.sum (W.within (0 + i)) (.running index t') + W'.control (i :: path) u.control := by
      rw [Nat.zero_add, Worker.sum_running, Worker.sum_running]
      exact hinner
    have hothers : ∀ j, j ≠ 0 + i → W'.within j = W.within j := by
      intro j hj
      refine Weights.within_congr (fun q => hcontrol _ fun h => hj ?_) hframe hidle
      rw [(List.cons.inj h).1, Nat.zero_add]
    have hset := Worker.sumAll_update hi 0 hothers hworker
    simp only [sum_mk, Control.sum_joining, hcontrol [] nofun, hframe]
    rw [add_right_comm, add_assoc (W.control [] _), hset, ← add_assoc, add_right_comm]

end Task

/-! ### Steps that are underway -/

/-- A step with its depth. -/
abbrev Visit := Step × Nat

/-- The step that is over. -/
def Ending.visit (e : Ending) : Visit := (e.step, e.depth)

/-- The step whose outcome a frame waits for, to record and tell it. -/
def Frame.underway : Frame → Multiset Visit
  | .finish s d => {(s, d)}
  | _ => 0

/-- A step is underway where a frame waits for its outcome. -/
def Weights.underway : Weights (Multiset Visit) := ⟨fun _ _ => 0, Frame.underway, 0⟩

namespace Task

/-- **The steps of a tree of tasks that have begun and are not over.** -/
def underway (t : Task) : Multiset Visit := t.sum .underway

/-- The step that a task begins when it moves. -/
def entering? : Task → Option Visit
  | .mk _ (.enter s d) _ => some (s, d)
  | _ => none

theorem underway_mk (c : Context) (control : Control Task) (fs : List Frame) :
    underway (.mk c control fs) = control.sum .underway + (fs.map Frame.underway).sum := by
  rw [underway, sum_mk]
  exact congrArg (· + _) (zero_add _)

theorem underway_start (s : Step) (c : Context) (d : Nat) : (start s c d).underway = 0 := by
  simp [start, underway_mk]

theorem underway_of_outcome? {t : Task} {o : Outcome} (h : t.outcome? = some o) :
    t.underway = 0 := by
  obtain ⟨c, control, fs⟩ := t
  cases control with
  | settled o =>
    cases fs with
    | nil => simp [underway_mk]
    | cons f fs => cases h
  | _ => cases h

theorem entering?_of_outcome? {t : Task} {o : Outcome} (h : t.outcome? = some o) :
    t.entering? = none := by
  obtain ⟨c, control, fs⟩ := t
  cases control with
  | enter => cases h
  | _ => rfl

/-- What is underway in a parallel step of which one worker changes. -/
theorem underway_setWorker {c : Context} {fs : List Frame} {b b' : Block Task} {i : Nat}
    {v w : Worker Task} {x y : Multiset Visit} (hb : b'.workers = (b.setWorker i w).workers)
    (hi : b.workers[i]? = some v) (hv : v.sum .underway = x) (hw : w.sum .underway = y) :
    underway (.mk c (.joining b') fs) + x = underway (.mk c (.joining b) fs) + y := by
  subst hv hw
  exact add_right_cancel (sum_setWorker (W := .underway) c fs hb hi)

theorem underway_leaveLoop (c : Context) (f : LoopFrame)
    (result : Except StepError (Nat × LoopExit)) (fs : List Frame) :
    underway (leaveLoop c f result fs) = (fs.map Frame.underway).sum := by
  simp [leaveLoop, underway_mk]

variable {env : Env} {m : Moment}

/-- A step that begins is underway. -/
theorem Enters.underway {c : Context} {s : Step} {d : Nat} {fs : List Frame} {p : Task × Effect}
    (h : Enters env m c s d fs p) : p.1.underway = {(s, d)} + (fs.map Frame.underway).sum := by
  cases h <;>
    simp [underway_mk, Worker.sumAll_replicate_idle, Weights.underway, Frame.underway]

/-- **A task that moves by itself** begins a step, ends one, or leaves those that are underway. -/
theorem underway_advance {t t' : Task} {e : Effect} (h : t.advance env m = some (t', e)) :
    t'.underway + (e.ending?.map Ending.visit).toList = t.underway + t.entering?.toList := by
  match t, h with
  | .mk c (.enter s d) fs, h =>
    have he := enters_enter env m c s d fs
    rw [show Task.enter env m c s d fs = _ from Option.some.inj h] at he
    have hquiet : e.ending? = none := by cases he <;> rfl
    rw [hquiet, he.underway]
    simp [underway_mk, entering?, add_comm]
  | .mk c (.joining b) fs, h =>
    simp only [advance] at h
    split at h
    next hover =>
      cases h
      simp [underway_mk, Worker.sumAll_of_isOver hover, Effect.ending?, entering?]
    next => cases h
  | .mk c .proceed (.branch f :: fs), h =>
    cases h
    rcases proceedBranch_cases m c f fs with ⟨-, he⟩ | ⟨-, he⟩ | ⟨s, rest, -, -, he⟩ <;> rw [he] <;>
      simp [underway_mk, Frame.underway, Effect.ending?, entering?]
  | .mk c .proceed (.loop f :: fs), h =>
    cases h
    rcases proceedLoop_cases env m c f fs with ⟨result, he⟩ | he | ⟨s, rest, -, -, he⟩ <;>
      rw [he] <;> simp [underway_leaveLoop, underway_mk, Frame.underway, Effect.ending?, entering?]
  | .mk c .iterate (.loop f :: fs), h =>
    cases h
    rcases iterate_cases env m c f fs with ⟨result, he⟩ | ⟨result, he⟩ | ⟨-, he⟩ <;>
      rw [he] <;> simp [underway_leaveLoop, underway_mk, Frame.underway, Effect.ending?, entering?]
  | .mk c (.settled o) (.finish s d :: fs), h =>
    -- the step on top is over
    cases h
    simp [underway_mk, Frame.underway, Effect.ending?, entering?, Ending.visit, add_comm]
  | .mk c (.settled o) (.branch f :: fs), h =>
    cases h
    rcases returnToBranch_cases c f o fs with ⟨-, he⟩ | ⟨_, -, he⟩ | ⟨_, -, -, -, he⟩ <;>
      rw [he] <;> simp [underway_mk, Frame.underway, Effect.ending?, entering?]
  | .mk c (.settled o) (.loop f :: fs), h =>
    cases h
    rcases returnToLoop_cases c f o fs with
      ⟨-, he⟩ | ⟨_, -, he⟩ | ⟨_, -, -, -, he⟩ | ⟨_, -, -, -, he⟩ <;>
      rw [he] <;> simp [underway_leaveLoop, underway_mk, Frame.underway, Effect.ending?, entering?]
  | .mk _ (.calling ..) _, h | .mk _ .proceed [], h | .mk _ .proceed (.finish .. :: _), h
  | .mk _ .iterate [], h | .mk _ .iterate (.finish .. :: _), h
  | .mk _ .iterate (.branch _ :: _), h | .mk _ (.settled _) [], h => cases h

/-- **Steps begin and end**: what is underway changes by the step that the thread begins and by the
one whose end is told. -/
theorem Moves.underway {path : List Nat} {t t' : Task} {e : Effect} (h : Moves env m path t t' e) :
    t'.underway + (e.ending?.map Ending.visit).toList =
      t.underway + ((at? path t).bind entering?).toList := by
  induction h with
  | here h => exact underway_advance h
  | @stop i path c fs b hi | @skip i path c fs s b hi =>
    have hat : at? (i :: path) (.mk c (.joining b) fs) = none := by rw [at?, hi]
    rw [hat]
    exact underway_setWorker rfl hi Worker.sum_idle Worker.sum_stopped
  | @take i path c fs s b hi =>
    have hat : at? (i :: path) (.mk c (.joining b) fs) = none := by rw [at?, hi]
    rw [hat]
    exact underway_setWorker rfl hi Worker.sum_idle
      ((Worker.sum_running ..).trans (underway_start s c b.depth))
  | @handIn i path c fs index t o b hi ho =>
    -- nothing is left underway in a task that is over
    have hat : (at? (i :: path) (.mk c (.joining b) fs)).bind entering? = none := by
      rw [at?_of_running hi]
      cases hu : at? path t with
      | none => rfl
      | some u => exact entering?_of_outcome? (outcome?_of_at? ho hu)
    rw [hat]
    exact underway_setWorker rfl hi ((Worker.sum_running ..).trans (underway_of_outcome? ho))
      Worker.sum_idle
  | @inner i path c fs index t t' e b hi _ _ ih =>
    have hset :
        Task.underway (.mk c (.joining (b.setWorker i (.running index t'))) fs) + t.underway =
          Task.underway (.mk c (.joining b) fs) + t'.underway :=
      underway_setWorker rfl hi (Worker.sum_running ..) (Worker.sum_running ..)
    rw [at?_of_running hi]
    refine add_right_cancel (b := t.underway) ?_
    rw [add_right_comm, hset, add_assoc, ih, add_right_comm, add_assoc]

/-- An answer neither begins nor ends a step. -/
theorem Answers.underway {r : Except StepError Json} {path : List Nat} {t t' : Task}
    (h : Answers r path t t') : t'.underway = t.underway := by
  induction h with
  | here => simp [underway_mk]
  | @inner i path c fs index t t' b hi _ ih =>
    have hset :
        Task.underway (.mk c (.joining (b.setWorker i (.running index t'))) fs) + t.underway =
          Task.underway (.mk c (.joining b) fs) + t'.underway :=
      underway_setWorker rfl hi (Worker.sum_running ..) (Worker.sum_running ..)
    rw [ih] at hset
    exact add_right_cancel hset

end Task

end WorkflowEngine
