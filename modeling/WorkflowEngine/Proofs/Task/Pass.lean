import WorkflowEngine.Proofs.Task.Scope
import WorkflowEngine.Proofs.Task.Trace

/-!
# Ends of steps and passes over lists

A step ends in two transitions: its task comes to an outcome, and then the outcome is told. After
that the frame of the list that holds the step decides. A branch or body goes on with its next step
if the step has not failed, and a body also if its loop says so; in all other cases the frame is
gone, and with it the pass over the list.

## Main definitions

* `Task.ended?`: the step of a thread whose outcome is about to be told
* `Task.Turns`: what becomes of that when the thread moves
* `Frame.SamePass`, `Task.IsWithin`: a thread is still in the same pass over a list
* `Frame.GoesOn`: the frame of a loop that goes on after failures
* `Task.Affects`: what a motion does to a task within the tree

## Main results

* `Task.Placed.ended?_moves`, `Task.Placed.ended?_answers`: when a step has an outcome
* `Task.Moves.affects`, `Task.Answers.affects`: a task is touched only from within
* `Task.frames_of_failed`: what has failed leaves the pass
-/

namespace WorkflowEngine

namespace Task

variable {env : Env} {m : Moment} {root : Step} {d₀ : Nat}

/-! ### Outcomes that are about to be told -/

/-- The step of a thread that has an outcome, with that, as long as it has not been told. -/
def ended? (path : List Nat) (t : Task) : Option (Step × Outcome) :=
  match t.at? path with
  | some (.mk _ (.settled o) (.finish s _ :: _)) => some (s, o)
  | _ => none

/-- What the thread at a path within the task of a worker has to tell. -/
def endedIn? (path : List Nat) : Worker Task → Option (Step × Outcome)
  | .running _ t => ended? path t
  | _ => none

theorem ended?_cons_joining (i : Nat) (path : List Nat) (c : Context) (b : Block Task)
    (fs : List Frame) :
    ended? (i :: path) (.mk c (.joining b) fs) = (b.workers[i]?).bind (endedIn? path) := by
  unfold ended?
  rw [at?]
  rcases b.workers[i]? with _ | _ | _ | _ <;> rfl

/-- Workers without tasks have nothing to tell. -/
theorem ended?_of_not_running {i : Nat} {path : List Nat} {c : Context} {b : Block Task}
    {fs : List Frame} (h : ∀ (i index : Nat) (t : Task), b.workers[i]? ≠ some (.running index t)) :
    ended? (i :: path) (.mk c (.joining b) fs) = none := by
  rw [ended?_cons_joining]
  cases hi : b.workers[i]? with
  | none => rfl
  | some w =>
    cases w with
    | running index t => exact absurd hi (h i index t)
    | _ => rfl

/-- A task that is over has nothing to tell any more. -/
theorem ended?_of_outcome? {path : List Nat} {t : Task} {o : Outcome} (h : t.outcome? = some o) :
    ended? path t = none := by
  obtain ⟨c, control, fs⟩ := t
  cases control with
  | settled o' =>
    cases fs with
    | nil => cases path <;> rfl
    | cons f fs => cases h
  | _ => cases h

/-- A simple step that waits for its answer has no outcome yet. -/
theorem ended?_of_callAt? {path : List Nat} {t : Task} {x : Head × Leaf × Nat × Context}
    (h : callAt? path t = some x) : ended? path t = none := by
  unfold callAt? at h
  unfold ended?
  split at h
  next hu => rw [hu]
  next => cases h

/-- **What becomes of an outcome that is about to be told** when its thread moves: it is told, or
there was none. A simple step comes to an outcome by a move only if the run is cancelled. -/
inductive Turns (e : Effect) : Option (Step × Outcome) → Option (Step × Outcome) → Prop where
  | told {s d o ms} (he : e = .finished s d o ms) : Turns e (some (s, o)) none
  | untold {x} (he : e.ending? = none)
      (hx : ∀ head leaf o, x = some (.simple head leaf, o) → o = .error .cancelled) :
      Turns e none x

theorem Turns.nothing {e : Effect} (he : e.ending? = none) : Turns e none none :=
  .untold he (by rintro head leaf o ⟨⟩)

/-- **A task that moves by itself tells its outcome**, or may come to one. Nothing within it has
one. -/
theorem Placed.ended?_advance {t t' : Task} {e : Effect} (ht : Placed root d₀ t)
    (h : t.advance env m = some (t', e)) :
    Turns e (ended? [] t) (ended? [] t') ∧
      ∀ i path, ended? (i :: path) t = none ∧ ended? (i :: path) t' = none := by
  -- By what the task does next; of the steps that come to an outcome only one may be simple.
  cases ht with
  | @enter _ _ c s d fs hs =>
    have he := enters_enter env m c s d fs
    rw [show Task.enter env m c s d fs = _ from Option.some.inj h] at he
    cases he with
    | cancelled =>
      refine ⟨.untold rfl ?_, fun i path => ⟨rfl, rfl⟩⟩
      intro head leaf o ho
      cases ho
      rfl
    | simple | branch | loop => exact ⟨.nothing rfl, fun i path => ⟨rfl, rfl⟩⟩
    | failed hc | skipped hc | empty hc =>
      subst hc
      exact ⟨.untold rfl (by rintro head leaf o ⟨⟩), fun i path => ⟨rfl, rfl⟩⟩
    | parallel =>
      -- the workers have not begun
      refine ⟨.nothing rfl, fun i path => ⟨rfl, ?_⟩⟩
      refine ended?_of_not_running fun j index t hj => ?_
      cases List.eq_of_mem_replicate (List.mem_of_getElem? hj)
  | calling => cases h
  | joining hs =>
    simp only [Task.advance] at h
    split at h
    next hover =>
      cases h
      refine ⟨.untold rfl (by rintro head leaf o ⟨⟩), fun i path => ⟨?_, rfl⟩⟩
      refine ended?_of_not_running fun j index t hj => ?_
      rw [Block.isOver_eq_false hj] at hover
      cases hover
    next => cases h
  | @branch _ _ p c f d fs hs hf =>
    obtain ⟨condition, ifSteps, elseSteps, cases', defaultSteps, rfl⟩ := hf.step
    obtain ⟨rfl, rfl⟩ := Prod.mk.inj (Option.some.inj h)
    rcases proceedBranch_cases m c f (.finish _ d :: fs) with
      ⟨-, he⟩ | ⟨-, he⟩ | ⟨s, rest, -, -, he⟩ <;> rw [he] <;>
      exact ⟨.untold rfl (by rintro head leaf o ⟨⟩), fun i path => ⟨rfl, rfl⟩⟩
  | @loop _ _ p c f d fs hs hf =>
    obtain rfl := hf.step
    obtain ⟨rfl, rfl⟩ := Prod.mk.inj (Option.some.inj h)
    rcases proceedLoop_cases env m c f (.finish _ d :: fs) with
      ⟨result, he⟩ | he | ⟨s, rest, -, -, he⟩ <;> rw [he] <;>
      exact ⟨.untold rfl (by rintro head leaf o ⟨⟩), fun i path => ⟨rfl, rfl⟩⟩
  | @iterate _ _ p c f d fs hs hf =>
    obtain rfl := hf.step
    obtain ⟨rfl, rfl⟩ := Prod.mk.inj (Option.some.inj h)
    rcases iterate_cases env m c f (.finish _ d :: fs) with
      ⟨result, he⟩ | ⟨result, he⟩ | ⟨-, he⟩ <;> rw [he] <;>
      exact ⟨.untold rfl (by rintro head leaf o ⟨⟩), fun i path => ⟨rfl, rfl⟩⟩
  | ended hs =>
    cases h
    refine ⟨?_, fun i path => ⟨rfl, rfl⟩⟩
    -- the frame below is that of a list, if there is one
    cases hs <;> exact .told rfl
  | @returned _ _ s c o d fs hs =>
    cases hs with
    | root => cases h
    | @branch p s f d fs hs hf =>
      obtain ⟨condition, ifSteps, elseSteps, cases', defaultSteps, rfl⟩ := hf.step
      obtain ⟨rfl, rfl⟩ := Prod.mk.inj (Option.some.inj h)
      rcases returnToBranch_cases c f o (.finish _ d :: fs) with
        ⟨-, he⟩ | ⟨e, -, he⟩ | ⟨e, -, -, -, he⟩ <;> rw [he] <;>
        exact ⟨.untold rfl (by rintro head leaf o ⟨⟩), fun i path => ⟨rfl, rfl⟩⟩
    | @loop p s f d fs hs hf =>
      obtain rfl := hf.step
      obtain ⟨rfl, rfl⟩ := Prod.mk.inj (Option.some.inj h)
      rcases returnToLoop_cases c f o (.finish _ d :: fs) with
        ⟨-, he⟩ | ⟨e, -, he⟩ | ⟨e, -, -, -, he⟩ | ⟨e, -, -, -, he⟩ <;> rw [he] <;>
        exact ⟨.untold rfl (by rintro head leaf o ⟨⟩), fun i path => ⟨rfl, rfl⟩⟩

section Workers

variable {i : Nat} {path : List Nat} {c : Context} {fs : List Frame} {b b' : Block Task}
  {v w : Worker Task}

theorem ended?_changed (hi : b.workers[i]? = some v)
    (hb : b'.workers = (b.setWorker i w).workers) (q : List Nat) :
    ended? (i :: q) (.mk c (.joining b') fs) = endedIn? q w := by
  rw [ended?_cons_joining, hb, Block.getElem?_setWorker hi, Option.bind_some]

/-- A worker that changes leaves alone what others have to tell. -/
theorem ended?_setWorker (hi : b.workers[i]? = some v)
    (hb : b'.workers = (b.setWorker i w).workers)
    (hothers : ∀ q, q ≠ path → endedIn? q w = endedIn? q v) :
    ∀ q, q ≠ i :: path →
      ended? q (.mk c (.joining b') fs) = ended? q (.mk c (.joining b) fs) := by
  intro q hq
  cases q with
  | nil => rfl
  | cons j q =>
    by_cases hij : i = j
    · subst hij
      have hq : q ≠ path := fun h => hq (by rw [h])
      rw [ended?_changed hi hb, hothers q hq, ended?_cons_joining, hi, Option.bind_some]
    · rw [ended?_cons_joining, ended?_cons_joining, hb, Block.setWorker,
        List.getElem?_set_ne hij]

theorem turns_setWorker {e : Effect} (hi : b.workers[i]? = some v)
    (hb : b'.workers = (b.setWorker i w).workers)
    (hturns : Turns e (endedIn? path v) (endedIn? path w))
    (hothers : ∀ q, q ≠ path → endedIn? q w = endedIn? q v) :
    Turns e (ended? (i :: path) (.mk c (.joining b) fs))
        (ended? (i :: path) (.mk c (.joining b') fs)) ∧
      ∀ q, q ≠ i :: path →
        ended? q (.mk c (.joining b') fs) = ended? q (.mk c (.joining b) fs) := by
  refine ⟨?_, ended?_setWorker hi hb hothers⟩
  rwa [ended?_changed hi hb, ended?_cons_joining, hi, Option.bind_some]

end Workers

/-- **A motion changes only what its own thread has to tell.** -/
theorem Placed.ended?_moves {path : List Nat} {t t' : Task} {e : Effect} (ht : Placed root d₀ t)
    (h : Moves env m path t t' e) :
    Turns e (ended? path t) (ended? path t') ∧ ∀ q, q ≠ path → ended? q t' = ended? q t := by
  induction h generalizing root d₀ with
  | here h =>
    obtain ⟨hturns, hwithin⟩ := ht.ended?_advance h
    refine ⟨hturns, fun q hq => ?_⟩
    cases q with
    | nil => exact absurd rfl hq
    | cons i q => rw [(hwithin i q).1, (hwithin i q).2]
  -- a worker without a task has nothing to tell, nor has one whose task begins or is over
  | stop hi => exact turns_setWorker hi rfl (.nothing rfl) fun q _ => rfl
  | skip hi => exact turns_setWorker hi rfl (.nothing rfl) fun q _ => rfl
  | @take i path c fs s b hi =>
    have hstart : ∀ q, endedIn? q (.running b.taken (Task.start s c b.depth)) = none := by
      intro q
      cases q <;> rfl
    refine turns_setWorker hi rfl ?_ fun q _ => hstart q
    rw [hstart]
    exact .nothing rfl
  | @handIn i path c fs index t o b hi ho =>
    have hover : ∀ q, endedIn? q (.running index t) = none := fun q => ended?_of_outcome? ho
    refine turns_setWorker hi rfl ?_ fun q _ => (hover q).symm
    rw [hover]
    exact .nothing rfl
  | inner hi _ _ ih =>
    cases ht with
    | joining hs hd hb hw =>
      obtain ⟨s, hx⟩ := hb _ _ _ hi
      obtain ⟨hturns, hothers⟩ := ih (hw _ _ _ s hi hx)
      exact turns_setWorker hi rfl hturns hothers

/-- **An answer brings its own thread to an outcome.** -/
theorem Placed.ended?_answers {r : Except StepError Json} {path : List Nat} {t t' : Task}
    (ht : Placed root d₀ t) (h : Answers r path t t') :
    (∃ head leaf d c, callAt? path t = some (head, leaf, d, c) ∧
      ended? path t' = some (.simple head leaf, leafOutcome head r)) ∧
      ∀ q, q ≠ path → ended? q t' = ended? q t := by
  induction h generalizing root d₀ with
  | here =>
    cases ht with
    | calling hs =>
      refine ⟨⟨_, _, _, _, rfl, rfl⟩, fun q hq => ?_⟩
      cases q with
      | nil => exact absurd rfl hq
      | cons i q => rfl
  | @inner i path c fs index t t' b hi _ ih =>
    cases ht with
    | joining hs hd hb hw =>
      obtain ⟨s, hx⟩ := hb _ _ _ hi
      obtain ⟨⟨head, leaf, d, c', hcall, hended⟩, hothers⟩ := ih (hw _ _ _ s hi hx)
      refine ⟨⟨head, leaf, d, c', ?_, ?_⟩, ended?_setWorker hi rfl hothers⟩
      · rw [callAt?_cons_joining, hi]
        exact hcall
      · rw [ended?_changed hi rfl]
        exact hended

/-! ### Passes over lists -/

end Task

/-- **A frame waits in the same pass over its list** as another one: steps of the list may have been
run in between, but no other iteration has begun. -/
inductive Frame.SamePass : Frame → Frame → Prop where
  | branch {f rest} : SamePass (.branch f) (.branch { f with rest })
  | loop {f rest failed} : SamePass (.loop f) (.loop { f with rest, failed })

/-- The frame of a loop that goes on after failures. -/
def Frame.GoesOn : Frame → Prop
  | .loop f => f.rule.onError = .proceed
  | _ => False

namespace Task

variable {env : Env} {m : Moment} {root : Step} {d₀ : Nat}

/-- **A task is still in the same pass** over the list of a frame, which stands on other ones. -/
def IsWithin (f : Frame) (fs : List Frame) (t : Task) : Prop :=
  ∃ l f', f.SamePass f' ∧ t.frames = l ++ f' :: fs

theorem IsWithin.length_lt {f : Frame} {fs : List Frame} {t : Task} (h : t.IsWithin f fs) :
    fs.length < t.frames.length := by
  obtain ⟨l, f', -, hl⟩ := h
  rw [hl, List.length_append, List.length_cons]
  omega

/-- **What has failed leaves the pass**, unless the list is the body of a loop that goes on. -/
theorem frames_of_failed {c : Context} {e : StepError} {f : Frame} {fs : List Frame} {t : Task}
    {effect : Effect} (h : (Task.mk c (.settled (.error e)) (f :: fs)).advance env m =
      some (t, effect)) (hf : ¬ f.GoesOn) : t.frames = fs := by
  cases f with
  | finish s d =>
    cases h
    rfl
  | branch f =>
    obtain ⟨rfl, -⟩ := Prod.mk.inj (Option.some.inj h)
    rcases returnToBranch_cases c f (.error e) fs with
      ⟨⟨v, hv⟩, -⟩ | ⟨e', -, he⟩ | ⟨e', -, -, -, he⟩
    · cases hv
    · rw [he]
      rfl
    · rw [he]
      rfl
  | loop f =>
    obtain ⟨rfl, -⟩ := Prod.mk.inj (Option.some.inj h)
    rcases returnToLoop_cases c f (.error e) fs with
      ⟨⟨v, hv⟩, -⟩ | ⟨e', -, he⟩ | ⟨e', -, -, hrule, -⟩ | ⟨e', -, -, -, he⟩
    · cases hv
    · rw [he]
      rfl
    · exact absurd hrule hf
    · rw [he]
      rfl

theorem at?_of_running {i index : Nat} {path : List Nat} {c : Context} {fs : List Frame}
    {b : Block Task} {t : Task} (hi : b.workers[i]? = some (.running index t)) :
    at? (i :: path) (.mk c (.joining b) fs) = at? path t := by
  rw [at?, hi]

/-- A task that waits for no workers moves by itself only. -/
theorem Moves.advance_eq {path : List Nat} {t t' : Task} {e : Effect} (h : Moves env m path t t' e)
    (ht : ∀ b, t.control ≠ .joining b) : t.advance env m = some (t', e) := by
  cases h with
  | here h => exact h
  | _ => exact absurd rfl (ht _)

/-- **What becomes of a task** within the tree by a motion of a thread: the thread is within the
task, or the task is not touched. -/
def Affects (M : List Nat → Task → Task → Prop) (path q : List Nat) (u t' : Task) : Prop :=
  (∃ r u', path = q ++ r ∧ M r u u' ∧ at? q t' = some u') ∨
    (∀ r, path ≠ q ++ r) ∧ at? q t' = some u

/-- The only task within one that is over is that itself. -/
theorem outcome?_of_at? {q : List Nat} {t u : Task} {o : Outcome} (ho : t.outcome? = some o)
    (hu : at? q t = some u) : u.outcome? = some o := by
  cases q with
  | nil =>
    cases hu
    exact ho
  | cons i q =>
    obtain ⟨_, _, _, _, _, rfl, -, -⟩ := exists_worker_of_at? (Option.isSome_of_mem hu)
    cases ho

/-- A worker of a parallel step has changed. -/
theorem Affects.setWorker {M : List Nat → Task → Task → Prop} {i : Nat} {p q : List Nat}
    {c : Context} {b b' : Block Task} {fs : List Frame} {v w : Worker Task} {u : Task}
    (hm : M (i :: p) (.mk c (.joining b) fs) (.mk c (.joining b') fs))
    (hi : b.workers[i]? = some v) (hb : b'.workers = (b.setWorker i w).workers)
    (hu : at? q (.mk c (.joining b) fs) = some u)
    (hwithin : ∀ index t q', q = i :: q' → v = .running index t → at? q' t = some u →
      ∃ t', w = .running index t' ∧ Affects M p q' u t') :
    Affects M (i :: p) q u (.mk c (.joining b') fs) := by
  cases q with
  | nil =>
    cases hu
    exact .inl ⟨i :: p, _, rfl, hm, rfl⟩
  | cons j q =>
    by_cases hij : i = j
    · subst hij
      obtain ⟨_, _, _, index, t, ⟨⟩, hi', he⟩ := exists_worker_of_at? (Option.isSome_of_mem hu)
      obtain rfl := Option.some.inj (hi.symm.trans hi')
      obtain ⟨t', rfl, haffects⟩ := hwithin index t q rfl rfl (he ▸ hu)
      have hat : at? (i :: q) (.mk c (.joining b') fs) = at? q t' := by
        rw [at?, hb, Block.getElem?_setWorker hi]
      rcases haffects with ⟨r, u', rfl, hm', hu'⟩ | ⟨hp, hu'⟩
      · exact .inl ⟨r, u', rfl, hm', hat.trans hu'⟩
      · exact .inr ⟨fun r hr => hp r (List.cons.inj hr).2, hat.trans hu'⟩
    · -- the task is within another worker
      refine .inr ⟨fun r hr => hij (List.cons.inj hr).1, ?_⟩
      rw [at?, hb, Block.setWorker, List.getElem?_set_ne hij]
      exact hu

/-- **A thread that moves touches a task only from within**, unless that is over and handed in. -/
theorem Moves.affects_or {path q : List Nat} {t t' u : Task} {e : Effect}
    (h : Moves env m path t t' e) (hu : at? q t = some u)
    (ho : u.outcome? = none ∨ ¬ q <+: path) :
    Affects (fun p t t' => Moves env m p t t' e) path q u t' := by
  induction h generalizing q with
  | here h =>
    cases q with
    | nil =>
      cases hu
      exact .inl ⟨[], _, rfl, .here h, rfl⟩
    | cons i q =>
      -- a parallel step does not move while a worker has a task
      obtain ⟨c, b, fs, index, t₁, rfl, hi, -⟩ := exists_worker_of_at? (Option.isSome_of_mem hu)
      simp [Task.advance, Block.isOver_eq_false hi] at h
  | stop hi hs => exact .setWorker (.stop hi hs) hi rfl hu (by rintro _ _ _ - ⟨⟩)
  | skip hi hs hm => exact .setWorker (.skip hi hs hm) hi rfl hu (by rintro _ _ _ - ⟨⟩)
  | take hi hs hm => exact .setWorker (.take hi hs hm) hi rfl hu (by rintro _ _ _ - ⟨⟩)
  | handIn hi ho' =>
    refine .setWorker (.handIn hi ho') hi rfl hu ?_
    rintro index t q' rfl ⟨⟩ hq
    -- the task is that of the worker itself, since no other one is within it
    rcases ho with ho | ho
    · cases (outcome?_of_at? ho' hq).symm.trans ho
    · cases q' with
      | nil => exact absurd (List.prefix_cons_inj _ |>.mpr List.nil_prefix) ho
      | cons =>
        obtain ⟨_, _, _, _, _, rfl, -, -⟩ := exists_worker_of_at? (Option.isSome_of_mem hq)
        cases ho'
  | inner hi ho' h ih =>
    refine .setWorker (.inner hi ho' h) hi rfl hu ?_
    rintro index t q' rfl ⟨⟩ hq
    exact ⟨_, rfl, ih hq (ho.imp_right fun hq h => hq ((List.prefix_cons_inj _).mpr h))⟩

/-- **A thread that moves touches a task that is not over only from within.** -/
theorem Moves.affects {path q : List Nat} {t t' u : Task} {e : Effect}
    (h : Moves env m path t t' e) (hu : at? q t = some u) (ho : u.outcome? = none) :
    Affects (fun p t t' => Moves env m p t t' e) path q u t' := h.affects_or hu (.inl ho)

/-- A thread that moves leaves the tasks of the others alone. -/
theorem Moves.at?_eq {path q : List Nat} {t t' u : Task} {e : Effect} (h : Moves env m path t t' e)
    (hu : at? q t = some u) (hq : ¬ q <+: path) : at? q t' = some u := by
  rcases h.affects_or hu (.inr hq) with ⟨r, _, rfl, -, -⟩ | ⟨-, hu'⟩
  · exact absurd (List.prefix_append q r) hq
  · exact hu'

/-- An answer touches a task only from within. -/
theorem Answers.affects {r : Except StepError Json} {path q : List Nat} {t t' u : Task}
    (h : Answers r path t t') (hu : at? q t = some u) : Affects (Answers r) path q u t' := by
  induction h generalizing q with
  | here =>
    cases q with
    | nil =>
      cases hu
      exact .inl ⟨[], _, rfl, .here, rfl⟩
    | cons => cases hu
  | inner hi h ih =>
    refine .setWorker (.inner hi h) hi rfl hu ?_
    rintro index t q' - ⟨⟩ hq
    exact ⟨_, rfl, ih hq⟩

/-- An answer leaves the tasks of the other threads alone. -/
theorem Answers.at?_eq {r : Except StepError Json} {path q : List Nat} {t t' u : Task}
    (h : Answers r path t t') (hu : at? q t = some u) (hq : ¬ q <+: path) : at? q t' = some u := by
  rcases h.affects hu with ⟨r, _, rfl, -, -⟩ | ⟨-, hu'⟩
  · exact absurd (List.prefix_append q r) hq
  · exact hu'

/-- The thread that tells of the end of a step has a task before and after that, and it waits for no
workers. -/
theorem Moves.at?_of_finished {path : List Nat} {t t' : Task} {s : Step} {d ms : Nat} {o : Outcome}
    (h : Moves env m path t t' (.finished s d o ms)) :
    (at? path t').isSome = true ∧
      ∃ c fs, at? path t = some (.mk c (.settled o) (.finish s d :: fs)) := by
  generalize he : Effect.finished s d o ms = e at h
  induction h with
  | here h =>
    subst he
    obtain ⟨c, fs, rfl, -, -⟩ := advance_eq_finished h
    exact ⟨rfl, c, fs, rfl⟩
  | inner hi _ _ ih =>
    obtain ⟨hat', c, fs, hat⟩ := ih he
    refine ⟨?_, c, fs, (at?_of_running hi).trans hat⟩
    rw [at?, Block.getElem?_setWorker hi]
    exact hat'
  | _ => cases he

/-- The task of a thread is placed within the tree of the step that it runs. -/
theorem Placed.at? {path : List Nat} {t u : Task} (ht : Placed root d₀ t)
    (hu : at? path t = some u) : ∃ root d₀, Placed root d₀ u := by
  induction path generalizing root d₀ t with
  | nil =>
    cases hu
    exact ⟨root, d₀, ht⟩
  | cons i path ih =>
    obtain ⟨c, b, fs, index, t', rfl, hi, he⟩ := exists_worker_of_at? (Option.isSome_of_mem hu)
    cases ht with
    | joining hs hd hb hw =>
      obtain ⟨s, hx⟩ := hb _ _ _ hi
      exact ih (hw _ _ _ s hi hx) (he ▸ hu)

end Task

end WorkflowEngine
