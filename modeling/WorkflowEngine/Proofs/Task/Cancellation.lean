import WorkflowEngine.Proofs.Task.Place

/-!
# Cancelled tasks

While a run is cancelled, its tasks only wind up: every motion brings the tree closer to its end,
and no simple step begins. A step that has ended as cancelled makes every step around it end so,
whatever the policies of those are.

## Main definitions

* `Task.rank`: how many motions a tree of tasks can still make while its run is cancelled
* `Task.Cancelling`: a step of the tree has ended as cancelled

## Main results

* `Task.Moves.rank_lt`, `Task.Answers.rank_lt`: every motion brings the tree closer to its end
* `Task.Moves.callAt?_of_cancelled`: no simple step begins
* `Task.Cancelling.moves`, `Task.Cancelling.answers`: a cancelled step is passed on to those around
-/

namespace WorkflowEngine

/-! ### The rank -/

/-- What the steps around a task can still do: a step is told of, and a branch or a loop that goes
on after its step ends then. -/
def Frame.rank : Frame → Nat
  | .finish .. => 1
  | .branch _ => 2
  | .loop _ => 3

/-- What a task does next neither begins a step nor waits. -/
inductive Control.IsQuiet {τ : Type} : Control τ → Prop where
  | proceed : IsQuiet .proceed
  | iterate : IsQuiet .iterate
  | settled {o} : IsQuiet (.settled o)

/-- The rank of frames. -/
def Frame.rankAll : List Frame → Nat
  | [] => 0
  | f :: fs => f.rank + rankAll fs

mutual
/-- **How many motions a tree of tasks can still make** while its run is cancelled. -/
def Task.rank : Task → Nat
  | .mk _ control fs => Control.rank control + Frame.rankAll fs

/-- The rank of what a task does next. -/
def Control.rank : Control Task → Nat
  | .enter .. => 4
  | .calling .. => 3
  | .joining b => 3 + Block.rank b
  | .proceed => 1
  | .iterate => 0
  | .settled _ => 2

/-- The rank of a block is that of its workers. -/
def Block.rank : Block Task → Nat
  | ⟨_, _, _, _, _, workers⟩ => Worker.rankAll workers

/-- The rank of workers. -/
def Worker.rankAll : List (Worker Task) → Nat
  | [] => 0
  | w :: ws => Worker.rank w + Worker.rankAll ws

/-- The rank of a worker: one that looks for a step finds none. -/
def Worker.rank : Worker Task → Nat
  | .idle => 1
  | .running _ t => Task.rank t
  | .stopped => 0
end

@[simp] theorem Frame.rankAll_cons (f : Frame) (fs : List Frame) :
    rankAll (f :: fs) = f.rank + rankAll fs := rfl

theorem Block.rank_eq (b : Block Task) : b.rank = Worker.rankAll b.workers := by
  obtain ⟨_, _, _, _, _, _⟩ := b
  rw [Block.rank]

/-- The rank of workers of which one changes. -/
theorem Worker.rankAll_set {ws : List (Worker Task)} {i : Nat} {v : Worker Task}
    (h : ws[i]? = some v) (w : Worker Task) :
    rankAll (ws.set i w) + v.rank = rankAll ws + w.rank := by
  -- Induction on the workers, down to the one that changes.
  induction ws generalizing i with
  | nil => cases h
  | cons u ws ih =>
    cases i with
    | zero =>
      cases h
      simp only [List.set_cons_zero, rankAll]
      omega
    | succ i =>
      have := ih h
      simp only [List.set_cons_succ, rankAll]
      omega

namespace Task

theorem rank_mk (c : Context) (control : Control Task) (fs : List Frame) :
    rank (.mk c control fs) = Control.rank control + Frame.rankAll fs := by rw [rank]

/-- A worker that changes into one of lower rank brings the parallel step closer to its end. -/
theorem rank_setWorker {c : Context} {fs : List Frame} {b b' : Block Task} {i : Nat}
    {v w : Worker Task} (hb : b'.workers = (b.setWorker i w).workers) (hi : b.workers[i]? = some v)
    (hlt : w.rank < v.rank) : rank (.mk c (.joining b') fs) < rank (.mk c (.joining b) fs) := by
  -- the others keep their rank
  have hset := Worker.rankAll_set hi w
  have hb' : b'.rank = Worker.rankAll (b.workers.set i w) := b'.rank_eq.trans (congrArg _ hb)
  simp only [rank_mk, Control.rank, hb', b.rank_eq]
  omega

/-- A task that is over has a rank, since it is still handed in or told of. -/
theorem rank_of_outcome? {t : Task} {o : Outcome} (h : t.outcome? = some o) : t.rank = 2 := by
  obtain ⟨c, control, fs⟩ := t
  cases control with
  | settled o =>
    cases fs with
    | nil => rfl
    | cons f fs => cases h
  | _ => cases h

theorem rank_leaveLoop (c : Context) (f : LoopFrame) (result : Except StepError (Nat × LoopExit))
    (fs : List Frame) : rank (leaveLoop c f result fs) = 2 + Frame.rankAll fs := rfl

/-! ### Motions of cancelled runs -/

variable {env : Env} {m : Moment}

/-- **A task of a cancelled run that moves by itself** comes closer to its end, and neither begins a
step nor waits. -/
theorem advance_cancelled {t t' : Task} {e : Effect} (hm : m.cancelled = true)
    (h : t.advance env m = some (t', e)) : t'.rank < t.rank ∧ t'.control.IsQuiet := by
  -- The frame on top or the control itself goes, and what follows is of lower rank.
  match t, h with
  | .mk c (.enter s d) fs, h =>
    have he := enters_enter env m c s d fs
    rw [show Task.enter env m c s d fs = _ from Option.some.inj h] at he
    -- a step that begins is cancelled at once; all other ways to begin need a run that is not
    cases he with
    | cancelled =>
      refine ⟨?_, .settled⟩
      simp only [rank_mk, Control.rank, Frame.rankAll_cons, Frame.rank]
      omega
    | _ => simp_all
  | .mk c (.joining b) fs, h =>
    simp only [Task.advance] at h
    split at h
    · cases h
      refine ⟨?_, .settled⟩
      simp only [rank_mk, Control.rank]
      omega
    · cases h
  | .mk c .proceed (.branch f :: fs), h =>
    obtain rfl : proceedBranch m c f fs = t' := congrArg Prod.fst (Option.some.inj h)
    have hlt : 2 + Frame.rankAll fs < rank (.mk c .proceed (.branch f :: fs)) := by
      simp only [rank_mk, Control.rank, Frame.rankAll_cons, Frame.rank]
      omega
    rcases proceedBranch_cases m c f fs with ⟨-, he⟩ | ⟨-, he⟩ | ⟨s, rest, -, hm', -⟩
    · rw [he]
      exact ⟨hlt, .settled⟩
    · rw [he]
      exact ⟨hlt, .settled⟩
    · rw [hm] at hm'
      cases hm'
  | .mk c .proceed (.loop f :: fs), h =>
    obtain rfl : proceedLoop env m c f fs = t' := congrArg Prod.fst (Option.some.inj h)
    rcases proceedLoop_cases env m c f fs with ⟨result, he⟩ | he | ⟨s, rest, -, hm', -⟩
    · rw [he]
      refine ⟨?_, .settled⟩
      simp only [rank_leaveLoop, rank_mk, Control.rank, Frame.rankAll_cons, Frame.rank]
      omega
    · rw [he]
      refine ⟨?_, .iterate⟩
      simp only [rank_mk, Control.rank]
      omega
    · rw [hm] at hm'
      cases hm'
  | .mk c .iterate (.loop f :: fs), h =>
    obtain rfl : Task.iterate env m c f fs = t' := congrArg Prod.fst (Option.some.inj h)
    have hlt : 2 + Frame.rankAll fs < rank (.mk c .iterate (.loop f :: fs)) := by
      simp only [rank_mk, Control.rank, Frame.rankAll_cons, Frame.rank]
      omega
    rcases iterate_cases env m c f fs with ⟨result, he⟩ | ⟨result, he⟩ | ⟨hm', -⟩
    · rw [he]
      exact ⟨hlt, .settled⟩
    · rw [he]
      exact ⟨hlt, .settled⟩
    · rw [hm] at hm'
      cases hm'
  | .mk c (.settled o) (.finish s d :: fs), h =>
    cases h
    refine ⟨?_, .settled⟩
    simp only [rank_mk, Control.rank, Frame.rankAll_cons, Frame.rank]
    omega
  | .mk c (.settled o) (.branch f :: fs), h =>
    obtain rfl : returnToBranch c f o fs = t' := congrArg Prod.fst (Option.some.inj h)
    have hlt : 2 + Frame.rankAll fs < rank (.mk c (.settled o) (.branch f :: fs)) := by
      simp only [rank_mk, Control.rank, Frame.rankAll_cons, Frame.rank]
      omega
    rcases returnToBranch_cases c f o fs with ⟨-, he⟩ | ⟨e, -, he⟩ | ⟨e, -, -, -, he⟩ <;> rw [he]
    · exact ⟨Nat.add_lt_add_right (by decide : 1 < 2) _, .proceed⟩
    · exact ⟨hlt, .settled⟩
    · exact ⟨hlt, .settled⟩
  | .mk c (.settled o) (.loop f :: fs), h =>
    obtain rfl : returnToLoop c f o fs = t' := congrArg Prod.fst (Option.some.inj h)
    have hlt : 2 + Frame.rankAll fs < rank (.mk c (.settled o) (.loop f :: fs)) := by
      simp only [rank_mk, Control.rank, Frame.rankAll_cons, Frame.rank]
      omega
    rcases returnToLoop_cases c f o fs with
      ⟨-, he⟩ | ⟨e, -, he⟩ | ⟨e, -, -, -, he⟩ | ⟨e, -, -, -, he⟩ <;> rw [he]
    · exact ⟨Nat.add_lt_add_right (by decide : 1 < 2) _, .proceed⟩
    · exact ⟨hlt, .settled⟩
    · exact ⟨Nat.add_lt_add_right (by decide : 1 < 2) _, .proceed⟩
    · exact ⟨hlt, .settled⟩
  | .mk _ (.calling ..) _, h | .mk _ .proceed [], h | .mk _ .proceed (.finish .. :: _), h
  | .mk _ .iterate [], h | .mk _ .iterate (.finish .. :: _), h
  | .mk _ .iterate (.branch _ :: _), h | .mk _ (.settled _) [], h => cases h

/-- **Every motion of a cancelled run brings the tree closer to its end.** -/
theorem Moves.rank_lt {path : List Nat} {t t' : Task} {e : Effect} (hm : m.cancelled = true)
    (h : Moves env m path t t' e) : t'.rank < t.rank := by
  -- Every motion lowers the rank of one worker, or that of the task itself.
  induction h with
  | here h => exact (advance_cancelled hm h).1
  | stop hi => exact rank_setWorker rfl hi Nat.zero_lt_one
  | skip hi => exact rank_setWorker rfl hi Nat.zero_lt_one
  | take _ _ hm' => rw [hm] at hm'; cases hm'
  | @handIn i path c fs index t o b hi ho =>
    refine rank_setWorker rfl hi ?_
    -- the task that is handed in still counts, the worker that looks for a step counts less
    have ht := rank_of_outcome? ho
    simp only [Worker.rank]
    omega
  | inner hi _ _ ih => exact rank_setWorker rfl hi ih

/-- Answers bring the tree closer to its end. -/
theorem Answers.rank_lt {r : Except StepError Json} {path : List Nat} {t t' : Task}
    (h : Answers r path t t') : t'.rank < t.rank := by
  induction h with
  | here =>
    simp only [rank_mk, Control.rank]
    omega
  | inner hi _ ih => exact rank_setWorker rfl hi ih

/-! ### Simple steps of cancelled runs -/

/-- A task that neither begins a step nor waits has no simple step that waits. -/
theorem callAt?_of_isQuiet {c : Context} {control : Control Task} {fs : List Frame}
    (h : control.IsQuiet) (path : List Nat) : callAt? path (.mk c control fs) = none := by
  cases h <;> cases path <;> rfl

/-- A simple step that waits after a worker has changed has waited before. -/
theorem callAt?_of_setWorker {path : List Nat} {c : Context} {fs : List Frame} {b b' : Block Task}
    {i : Nat} {v w : Worker Task} {x : Head × Leaf × Nat × Context}
    (hc : callAt? path (.mk c (.joining b') fs) = some x)
    (hb : b'.workers = (b.setWorker i w).workers) (hi : b.workers[i]? = some v)
    (hw : ∀ path' index t, w = .running index t → callAt? path' t = some x →
      ∃ index' t', v = .running index' t' ∧ callAt? path' t' = some x) :
    callAt? path (.mk c (.joining b) fs) = some x := by
  have hlen := (List.getElem?_eq_some_iff.mp hi).1
  -- the change is undone by setting the worker back
  have hback : b.workers = (b'.setWorker i v).workers := by
    rw [Block.setWorker, hb, Block.setWorker, set_set_of_getElem? hi]
  refine callAt?_setWorker hc hback fun path' index t _ hi' ht => hw path' index t ?_ ht
  rw [hb, Block.setWorker, List.getElem?_set_self hlen] at hi'
  exact Option.some.inj hi'

/-- **No simple step begins in a cancelled run.** -/
theorem Moves.callAt?_of_cancelled {path path' : List Nat} {t t' : Task} {e : Effect}
    {x : Head × Leaf × Nat × Context} (hm : m.cancelled = true) (h : Moves env m path t t' e)
    (hc : callAt? path' t' = some x) : callAt? path' t = some x := by
  -- A simple step that waits in a worker afterwards has waited there before.
  induction h generalizing path' with
  | @here _ t' _ h =>
    obtain ⟨c, control, fs⟩ := t'
    -- after a move by itself the task neither begins a step nor waits
    have hquiet : control.IsQuiet := (advance_cancelled hm h).2
    rw [callAt?_of_isQuiet hquiet] at hc
    cases hc
  | stop hi => exact callAt?_of_setWorker hc rfl hi fun _ _ _ hw => by cases hw
  | skip hi => exact callAt?_of_setWorker hc rfl hi fun _ _ _ hw => by cases hw
  | take _ _ hm' => rw [hm] at hm'; cases hm'
  | handIn hi => exact callAt?_of_setWorker hc rfl hi fun _ _ _ hw => by cases hw
  | inner hi _ _ ih =>
    refine callAt?_of_setWorker hc rfl hi fun path' index t hw ht => ?_
    cases hw
    exact ⟨_, _, rfl, ih ht⟩

/-- No simple step begins by an answer. -/
theorem Answers.callAt?_of_eq {r : Except StepError Json} {path path' : List Nat} {t t' : Task}
    {x : Head × Leaf × Nat × Context} (h : Answers r path t t') (hc : callAt? path' t' = some x) :
    callAt? path' t = some x := by
  induction h generalizing path' with
  | here =>
    rw [callAt?_of_isQuiet .settled] at hc
    cases hc
  | inner hi _ ih =>
    refine callAt?_of_setWorker hc rfl hi fun path' index t hw ht => ?_
    cases hw
    exact ⟨_, _, rfl, ih ht⟩

/-- A simple step that was answered does not wait any more. -/
theorem Answers.callAt?_eq_none {r : Except StepError Json} {path : List Nat} {t t' : Task}
    (h : Answers r path t t') : callAt? path t' = none := by
  induction h with
  | here => rfl
  | inner hi _ ih =>
    rw [callAt?_cons_joining, Block.getElem?_setWorker hi]
    exact ih

/-! ### Cancelled steps -/

/-- **A step of the tree has ended as cancelled**, and what waits for it has not met that yet. -/
inductive Cancelling : Task → Prop where
  | settled {c fs} : Cancelling (.mk c (.settled (.error .cancelled)) fs)
  | collected {c fs f} {b : Block Task} (hf : f ∈ b.finished) (he : f.outcome = .error .cancelled) :
      Cancelling (.mk c (.joining b) fs)
  | inner {c fs} {i index : Nat} {t : Task} {b : Block Task}
      (hi : b.workers[i]? = some (.running index t)) (h : Cancelling t) :
      Cancelling (.mk c (.joining b) fs)

/-- A step that is over and has met a cancelled step is cancelled. -/
theorem Cancelling.outcome? {t : Task} {o : Outcome} (h : Cancelling t)
    (ho : t.outcome? = some o) : o = .error .cancelled := by
  cases h with
  | @settled c fs =>
    cases fs with
    | nil => cases ho; rfl
    | cons f fs => cases ho
  | collected => cases ho
  | inner => cases ho

/-- A cancelled step is met in the block when another worker changes, or that of the step itself. -/
theorem Cancelling.setWorker {c : Context} {fs : List Frame} {b b' : Block Task} {i : Nat}
    {v w : Worker Task} (h : Cancelling (.mk c (.joining b) fs))
    (hfinished : ∀ f ∈ b.finished, f ∈ b'.finished)
    (hworkers : b'.workers = (b.setWorker i w).workers) (hi : b.workers[i]? = some v)
    (hw : ∀ index t, v = .running index t → Cancelling t → Cancelling (.mk c (.joining b') fs)) :
    Cancelling (.mk c (.joining b') fs) := by
  cases h with
  | collected hf he => exact .collected (hfinished _ hf) he
  | @inner _ _ j index t _ hj h =>
    -- the cancelled step is within the changed worker, or within another one
    by_cases hij : i = j
    · subst hij
      rw [hi] at hj
      exact hw index t (Option.some.inj hj) h
    · rw [← List.getElem?_set_ne hij] at hj
      exact .inner ((congrArg (·[j]?) hworkers).trans hj) h

/-- **What waits for a cancelled step ends as cancelled**, whatever its policy. -/
theorem Cancelling.advance {t t' : Task} {e : Effect} (hc : Cancelling t)
    (h : t.advance env m = some (t', e)) : Cancelling t' := by
  cases hc with
  | @settled c fs =>
    -- the outcome is told of, or meets a conditional or a loop, whose policy is not asked
    match fs, h with
    | .finish s d :: fs, h => cases h; exact .settled
    | .branch f :: fs, h => cases h; exact .settled
    | .loop f :: fs, h => cases h; exact .settled
    | [], h => cases h
  | @collected c fs f b hf he =>
    simp only [Task.advance] at h
    split at h
    · cases h
      -- one cancelled step among the collected ones cancels the parallel step
      have hany : b.finished.any (fun f => f.outcome.isCancelled) = true :=
        List.any_eq_true.mpr ⟨f, hf, by rw [he]; rfl⟩
      rw [Block.outcome, if_pos hany]
      exact .settled
    · cases h
  | inner hi => simp [Task.advance, Block.isOver_eq_false hi] at h

theorem Cancelling.moves {path : List Nat} {t t' : Task} {e : Effect} (hc : Cancelling t)
    (h : Moves env m path t t' e) : Cancelling t' := by
  -- Induction on the path, with the cancelled step in any worker.
  induction h with
  | here h => exact hc.advance h
  | stop hi => exact hc.setWorker (fun _ hf => hf) rfl hi fun _ _ hv => by cases hv
  | skip hi =>
    exact hc.setWorker (fun _ hf => List.mem_append_left _ hf) rfl hi fun _ _ hv => by cases hv
  | take hi => exact hc.setWorker (fun _ hf => hf) rfl hi fun _ _ hv => by cases hv
  | handIn hi ho =>
    refine hc.setWorker (fun _ hf => List.mem_append_left _ hf) rfl hi fun _ _ hv ht => ?_
    cases hv
    exact .collected (List.mem_append_right _ (List.mem_singleton.mpr rfl)) (ht.outcome? ho)
  | inner hi _ _ ih =>
    refine hc.setWorker (fun _ hf => hf) rfl hi fun _ _ hv ht => ?_
    cases hv
    exact .inner (Block.getElem?_setWorker hi _) (ih ht)

theorem Cancelling.answers {r : Except StepError Json} {path : List Nat} {t t' : Task}
    (hc : Cancelling t) (h : Answers r path t t') : Cancelling t' := by
  induction h with
  | here => cases hc
  | inner hi _ ih =>
    refine hc.setWorker (fun _ hf => hf) rfl hi fun _ _ hv ht => ?_
    cases hv
    exact .inner (Block.getElem?_setWorker hi _) (ih ht)

/-- **A step that is told of as cancelled is passed on.** -/
theorem cancelling_of_finished {path : List Nat} {t t' : Task} {s : Step} {d ms : Nat}
    (h : Moves env m path t t' (.finished s d (.error .cancelled) ms)) : Cancelling t' := by
  generalize he : Effect.finished s d (.error .cancelled) ms = e at h
  -- The outcome that is told of stays that of the task.
  induction h with
  | here h =>
    subst he
    obtain ⟨c, fs, -, rfl, -⟩ := advance_eq_finished h
    exact .settled
  | inner hi _ _ ih => exact .inner (Block.getElem?_setWorker hi _) (ih he)
  | _ => cases he

/-- **The step that is run ends as cancelled** if a step within it has. -/
theorem Cancelling.eq_cancelled {root s : Step} {d₀ ms : Nat} {path : List Nat} {t t' : Task}
    {o : Outcome} (ht : Placed root d₀ t) (hc : Cancelling t)
    (h : Moves env m path t t' (.finished s d₀ o ms)) : o = .error .cancelled := by
  generalize he : Effect.finished s d₀ o ms = e at h
  -- the step that is run is told of by the task itself
  cases h with
  | here h =>
    subst he
    obtain ⟨c, fs, rfl, -⟩ := advance_eq_finished h
    cases hc
    rfl
  | @inner i path c fs index t t' _ b hi _ h =>
    -- a step within is deeper than the one that is run
    subst he
    cases ht with
    | joining hs hd hb hw =>
      obtain ⟨s', hs'⟩ := hb i index t hi
      obtain ⟨l, -, -, hlen⟩ := (hw i index t s' hi hs').lineage h
      have hdepth := hs.lineage.2
      omega
  | _ => cases he

end Task

end WorkflowEngine
