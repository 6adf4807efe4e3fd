import Mathlib.Data.List.Sort
import WorkflowEngine.Proofs.Task.Place

/-!
# Schedules of the tree of tasks

While a run is not cancelled, any thread of its tree of tasks may move next, and any simple step
that waits may be answered next. The order in which this happens is the schedule. Whoever answers
looks at the step, its depth and its context only, and the time that a step takes is told by its
outcome and these.

The workers of a parallel step take its steps one by one and hand each in once. So every step that
has been taken is in exactly one place, and when the workers have stopped, the steps that were
handed in are those of the list, each of them once.

## Main definitions

* `Delegate`, `Clock`: how simple steps are answered, and how long steps take
* `Conditions`: what runs depend on besides the schedule
* `Task.Acts`, `Task.Runs`, `Task.ComesTo`: one move of a schedule, many of them, and all to the end
* `Task.Goes`: the move as a motion of the tree
* `Block.IsTracked`, `Block.IsOrderly`, `Task.Orderly`: every step that has been taken is in exactly
  one place

## Main results

* `Task.Acts.goes`: moves are motions of the tree
* `Task.Placed.exists_acts`: a task that is not over can go on
* `Task.Orderly.goes`: moves keep parallel steps orderly
* `Block.IsOrderly.map_index_inOrder`: each step is handed in once
-/

namespace WorkflowEngine

/-- How simple steps are answered, by the step, its depth and its context. -/
abbrev Delegate := Head → Leaf → Nat → Context → Except StepError Json

/-- How long a step takes, by the step, its depth, its outcome and the context that it leaves. -/
abbrev Clock := Step → Nat → Outcome → Context → Nat

/-- What the tasks of a run do depends on these and on the schedule. -/
structure Conditions where
  env : Env
  answer : Delegate
  clock : Clock

namespace Task

variable {κ : Conditions}

/-! ### Moves of a schedule -/

/-- How long the step has taken that is told of when a task moves by itself. -/
def elapsed (clock : Clock) : Task → Nat
  | .mk c (.settled o) (.finish s d :: _) => clock s d o c
  | _ => 0

/-- The moment at which the thread at a path moves in a run that is not cancelled. -/
def momentAt (clock : Clock) (path : List Nat) (t : Task) : Moment :=
  { cancelled := false, elapsedMs := (t.at? path).elim 0 (elapsed clock) }

/-- **One move of a schedule**: some thread moves by itself, or its simple step is answered. -/
inductive Acts (κ : Conditions) (t t' : Task) : Prop where
  | moves {path e} (h : advanceAt κ.env (momentAt κ.clock path t) path t = some (t', e))
  | answered {path head leaf depth c} (hc : callAt? path t = some (head, leaf, depth, c))
      (h : answerAt (κ.answer head leaf depth c) path t = some t')

/-- A number of moves. -/
inductive Runs (κ : Conditions) : Nat → Task → Task → Prop where
  | refl {t} : Runs κ 0 t t
  | cons {n t t' t''} (h : Acts κ t t') (hr : Runs κ n t' t'') :
      Runs κ (n + 1) t t''

/-- **A task comes to its end** with an outcome and a context, by some schedule. -/
def ComesTo (κ : Conditions) (t : Task) (r : Outcome × Context) :
    Prop :=
  ∃ n, Runs κ n t (.mk r.2 (.settled r.1) [])

/-- **The move as a motion of the tree**: the task moves by itself or is answered, or one of its
workers takes a step, stops, hands in a step or has its own task moved. -/
inductive Goes (κ : Conditions) : Task → Task → Prop where
  | here {t t' e} (h : t.advance κ.env (momentAt κ.clock [] t) = some (t', e)) :
      Goes κ t t'
  | answered {c head leaf depth fs} :
      Goes κ (.mk c (.calling head leaf depth) fs)
        (.mk c (.settled (leafOutcome head (κ.answer head leaf depth c))) fs)
  | stop {i c fs} {b : Block Task} (hi : b.workers[i]? = some .idle)
      (hs : b.body[b.taken]? = none) :
      Goes κ (.mk c (.joining b) fs)
        (.mk c (.joining ({ b with taken := b.taken + 1 }.setWorker i .stopped)) fs)
  | take {i c fs s} {b : Block Task} (hi : b.workers[i]? = some .idle)
      (hs : b.body[b.taken]? = some s) :
      Goes κ (.mk c (.joining b) fs)
        (.mk c (.joining
          ({ b with taken := b.taken + 1 }.setWorker i (.running b.taken (start s c b.depth)))) fs)
  | handIn {i c fs index t o} {b : Block Task} (hi : b.workers[i]? = some (.running index t))
      (ho : t.outcome? = some o) :
      Goes κ (.mk c (.joining b) fs) (.mk c (.joining (Task.handIn c b i index t o)) fs)
  | inner {i c fs index t t'} {b : Block Task} (hi : b.workers[i]? = some (.running index t))
      (h : Goes κ t t') :
      Goes κ (.mk c (.joining b) fs)
        (.mk c (.joining (b.setWorker i (.running index t'))) fs)

theorem Goes.of_moves {path : List Nat} {t t' : Task} {e : Effect} {m : Moment}
    (h : Moves κ.env m path t t' e) (hm : m = momentAt κ.clock path t) :
    Goes κ t t' := by
  -- Induction on the path; the moment is that of the thread, however deep it is.
  induction h with
  | here h => exact .here (hm ▸ h)
  | stop hi hs => exact .stop hi hs
  | skip _ _ hc =>
    rw [hm] at hc
    cases hc
  | take hi hs => exact .take hi hs
  | handIn hi ho => exact .handIn hi ho
  | inner hi _ _ ih =>
    refine .inner hi (ih (hm.trans ?_))
    rw [momentAt, at?, hi]
    rfl

theorem Goes.of_answers {path : List Nat} {t t' : Task} {r : Except StepError Json} {head : Head}
    {leaf : Leaf} {depth : Nat} {c : Context} (h : Answers r path t t')
    (hc : callAt? path t = some (head, leaf, depth, c)) (hr : r = κ.answer head leaf depth c) :
    Goes κ t t' := by
  -- The answer is that to the simple step at the end of the path.
  induction h with
  | here =>
    cases hc
    rw [hr]
    exact .answered
  | inner hi _ ih =>
    rw [callAt?_cons_joining, hi] at hc
    exact .inner hi (ih hc)

/-- **Moves of a schedule are motions of the tree.** -/
theorem Acts.goes {t t' : Task} (h : Acts κ t t') : Goes κ t t' := by
  cases h with
  | moves h => exact .of_moves (advanceAt_eq_some_iff.mp h) rfl
  | answered hc h => exact .of_answers (answerAt_eq_some_iff.mp h) hc rfl

/-- **A task that is not over can go on.** -/
theorem Placed.exists_acts {root : Step} {d : Nat} {t : Task} (ht : Placed root d t)
    (ho : t.outcome? = none) : ∃ t', Acts κ t t' := by
  obtain ⟨path, hp | hp⟩ := ht.exists_thread κ.env ho
  · obtain ⟨⟨t', e⟩, h⟩ := Option.isSome_iff_exists.mp (hp (momentAt κ.clock path t))
    exact ⟨t', .moves h⟩
  · obtain ⟨⟨head, leaf, depth, c⟩, hc⟩ := Option.isSome_iff_exists.mp hp
    obtain ⟨t', h⟩ := exists_answers_of_callAt? hc (κ.answer head leaf depth c)
    exact ⟨t', .answered hc h⟩

/-- Moves keep tasks placed. -/
theorem Placed.acts {root : Step} {d : Nat} {t t' : Task} (ht : Placed root d t)
    (h : Acts κ t t') : Placed root d t' := by
  cases h with
  | moves h => exact ht.moves (advanceAt_eq_some_iff.mp h)
  | answered _ h => exact ht.answers (answerAt_eq_some_iff.mp h)

theorem Placed.runs {root : Step} {d n : Nat} {t t' : Task} (ht : Placed root d t)
    (h : Runs κ n t t') : Placed root d t' := by
  induction h with
  | refl => exact ht
  | cons h _ ih => exact ih (ht.acts h)

end Task

/-! ### Orderly parallel steps -/

/-- The number of steps of a parallel step that may be under way at once. -/
def ParallelRule.limit (r : ParallelRule) (total : Nat) : Nat :=
  match r.maxConcurrency with
  | some n => if 0 < n then n.toNat else total
  | none => total

theorem ParallelRule.workers_eq (r : ParallelRule) (total : Nat) :
    r.workers total = min (r.limit total) total := by
  unfold workers limit
  cases r.maxConcurrency with
  | none => exact (Nat.min_self total).symm
  | some n =>
    dsimp only
    split
    · rfl
    · exact (Nat.min_self total).symm

/-- The place in the list of the step that a worker runs. -/
def Worker.index? {τ : Type} : Worker τ → Option Nat
  | .running index _ => some index
  | _ => none

/-- Every step that has been taken is in exactly one place. -/
def Block.IsTracked {τ : Type} (b : Block τ) : Prop :=
  (b.finished.map Finished.index ++ b.workers.filterMap Worker.index?).Perm
    (List.range (min b.taken b.body.length))

/-- **Every step that has been taken is in exactly one place**: it is run by a worker or has been
handed in. Workers stop only when there is no step left to take. -/
structure Block.IsOrderly {τ : Type} (b : Block τ) : Prop where
  perm : (b.finished.map Finished.index ++ b.workers.filterMap Worker.index?).Perm
    (List.range (min b.taken b.body.length))
  stopped : .stopped ∈ b.workers → b.body.length ≤ b.taken
  workers : b.workers ≠ []

/-- An element of a list, and what becomes of the list when it changes. -/
theorem exists_append_of_getElem? {α : Type} {l : List α} {i : Nat} {x : α}
    (h : l[i]? = some x) : ∃ l₁ l₂, l = l₁ ++ x :: l₂ ∧ ∀ y, l.set i y = l₁ ++ y :: l₂ := by
  obtain ⟨hi, hx⟩ := List.getElem?_eq_some_iff.mp h
  -- The list is cut before and after the element.
  refine ⟨l.take i, l.drop (i + 1), ?_, fun y => ?_⟩
  · rw [← hx, ← List.drop_eq_getElem_cons hi, List.take_append_drop]
  · rw [List.set_eq_take_append_cons_drop, if_pos hi]

/-- What is found in a list when one of its elements changes. -/
theorem exists_filterMap_set_perm {α β : Type} (f : α → Option β) {l : List α} {i : Nat} {x : α}
    (h : l[i]? = some x) : ∃ rest, (l.filterMap f).Perm ((f x).toList ++ rest) ∧
      ∀ y, ((l.set i y).filterMap f).Perm ((f y).toList ++ rest) := by
  obtain ⟨l₁, l₂, hl, hset⟩ := exists_append_of_getElem? h
  -- what the element gives is brought in front of the rest
  have hmid : ∀ y, ((l₁ ++ y :: l₂).filterMap f).Perm
      ((f y).toList ++ (l₁.filterMap f ++ l₂.filterMap f)) := by
    intro y
    rw [List.filterMap_append, List.filterMap_cons]
    cases f y with
    | none => exact .refl _
    | some z => exact List.perm_middle
  exact ⟨_, hl ▸ hmid x, fun y => hset y ▸ hmid y⟩

namespace Block

variable {τ : Type} {b : Block τ}

theorem isOver_iff : b.isOver = true ↔ ∀ w ∈ b.workers, w = .stopped := by
  refine List.all_eq_true.trans (forall₂_congr fun w _ => ?_)
  cases w <;> simp

/-- There is no step left to take when the workers have stopped. -/
theorem IsOrderly.length_le_taken (h : b.IsOrderly) (ho : b.isOver = true) :
    b.body.length ≤ b.taken := by
  obtain ⟨w, hw⟩ := List.exists_mem_of_ne_nil _ h.workers
  exact h.stopped (isOver_iff.mp ho w hw ▸ hw)

/-- The steps that have been taken were handed in when the workers have stopped. -/
theorem IsTracked.map_index_perm (h : b.IsTracked) (ho : b.isOver = true) :
    (b.finished.map Finished.index).Perm (List.range (min b.taken b.body.length)) := by
  -- no worker runs a step any more
  have hnone : b.workers.filterMap Worker.index? = [] := by
    refine List.filterMap_eq_nil_iff.mpr fun w hw => ?_
    rw [isOver_iff.mp ho w hw]
    rfl
  rw [IsTracked, hnone, List.append_nil] at h
  exact h

/-- In order, the steps that were handed in are those taken from the front of the list. -/
theorem IsTracked.map_index_inOrder (h : b.IsTracked) (ho : b.isOver = true) :
    b.inOrder.map Finished.index = List.range (min b.taken b.body.length) := by
  -- The places are sorted, and they are those of the list in some order.
  have hsorted : (b.inOrder.map Finished.index).Pairwise (· ≤ ·) := by
    have hle : b.inOrder.Pairwise fun x y => decide (x.index ≤ y.index) = true :=
      List.pairwise_mergeSort (fun x y z => by simpa using Nat.le_trans)
        (fun x y => by simpa using Nat.le_total _ _) b.finished
    exact List.pairwise_map.mpr (hle.imp of_decide_eq_true)
  have hperm : (b.inOrder.map Finished.index).Perm (List.range (min b.taken b.body.length)) :=
    ((List.mergeSort_perm _ _).map _).trans (h.map_index_perm ho)
  exact hperm.eq_of_pairwise (fun _ _ _ _ => Nat.le_antisymm) hsorted List.pairwise_le_range

/-- **Each step is handed in once**: in order, these are the places of the list. -/
theorem IsOrderly.map_index_inOrder (h : b.IsOrderly) (ho : b.isOver = true) :
    b.inOrder.map Finished.index = List.range b.body.length := by
  have hindex := IsTracked.map_index_inOrder h.perm ho
  rwa [Nat.min_eq_right (h.length_le_taken ho)] at hindex

/-- Steps stay tracked when a worker changes and its step is in one place before and after. -/
theorem IsTracked.setWorker {b' : Block τ} {i : Nat} {v w : Worker τ} (h : b.IsTracked)
    (hi : b.workers[i]? = some v) (hbody : b'.body = b.body)
    (hworkers : b'.workers = (b.setWorker i w).workers)
    (hperm : ∀ rest, (b.finished.map Finished.index ++ (v.index?.toList ++ rest)).Perm
        (List.range (min b.taken b.body.length)) →
      (b'.finished.map Finished.index ++ (w.index?.toList ++ rest)).Perm
        (List.range (min b'.taken b.body.length))) : b'.IsTracked := by
  obtain ⟨rest, hrest, hset⟩ := exists_filterMap_set_perm Worker.index? hi
  rw [IsTracked, hbody, hworkers]
  refine ((hset w).append_left _).trans (hperm rest ?_)
  exact (hrest.append_left _).symm.trans h

/-- There is no step left to take. -/
theorem IsTracked.stop {i : Nat} (h : b.IsTracked) (hi : b.workers[i]? = some .idle)
    (hs : b.body[b.taken]? = none) :
    ({ b with taken := b.taken + 1 }.setWorker i .stopped).IsTracked := by
  have htaken : b.body.length ≤ b.taken := List.getElem?_eq_none_iff.mp hs
  refine h.setWorker hi rfl rfl fun rest hp => ?_
  rw [Nat.min_eq_right htaken] at hp
  show (b.finished.map Finished.index ++ rest).Perm (List.range (min (b.taken + 1) b.body.length))
  rwa [Nat.min_eq_right (htaken.trans (Nat.le_succ _))]

/-- The step that is taken is the one after those taken so far. -/
theorem IsTracked.perm_succ {l : List Nat} {s : Step} (hs : b.body[b.taken]? = some s)
    (h : l.Perm (List.range (min b.taken b.body.length))) :
    (b.taken :: l).Perm (List.range (min (b.taken + 1) b.body.length)) := by
  have htaken : b.taken < b.body.length := (List.getElem?_eq_some_iff.mp hs).1
  rw [Nat.min_eq_left htaken.le] at h
  rw [Nat.min_eq_left htaken, List.range_succ]
  exact (h.cons _).trans (List.perm_append_singleton _ _).symm

/-- A worker takes the next step. -/
theorem IsTracked.take {i : Nat} {s : Step} (h : b.IsTracked) (hi : b.workers[i]? = some .idle)
    (hs : b.body[b.taken]? = some s) (t : τ) :
    ({ b with taken := b.taken + 1 }.setWorker i (.running b.taken t)).IsTracked :=
  h.setWorker hi rfl rfl fun _ hp => List.perm_middle.trans (perm_succ hs hp)

/-- A step that is taken in vain is handed in at once. -/
theorem IsTracked.skip {i : Nat} {s : Step} (h : b.IsTracked) (hi : b.workers[i]? = some .idle)
    (hs : b.body[b.taken]? = some s) (o : Outcome) (results : List StepResult) :
    ({ b with
        taken := b.taken + 1
        finished := b.finished ++ [(⟨b.taken, o, results⟩ : Finished)] }.setWorker i
      .stopped).IsTracked := by
  refine h.setWorker hi rfl rfl fun rest hp => ?_
  show ((b.finished ++ [(⟨b.taken, o, results⟩ : Finished)]).map Finished.index ++ rest).Perm _
  rw [List.map_append, List.append_assoc]
  exact List.perm_middle.trans (perm_succ hs hp)

/-- The step of a worker is handed in. -/
theorem IsTracked.handIn {i index : Nat} {t : τ} (h : b.IsTracked)
    (hi : b.workers[i]? = some (.running index t)) (o : Outcome) (results : List StepResult) :
    ({ b with finished := b.finished ++ [(⟨index, o, results⟩ : Finished)] }.setWorker i
      .idle).IsTracked := by
  refine h.setWorker hi rfl rfl fun rest hp => ?_
  show ((b.finished ++ [(⟨index, o, results⟩ : Finished)]).map Finished.index ++ rest).Perm _
  rw [List.map_append, List.append_assoc]
  exact hp

/-- A worker goes on with its step. -/
theorem IsTracked.inner {i index : Nat} {t : τ} (h : b.IsTracked)
    (hi : b.workers[i]? = some (.running index t)) (t' : τ) :
    (b.setWorker i (.running index t')).IsTracked :=
  h.setWorker hi rfl rfl fun _ hp => hp

/-- The step that a worker runs is one of those that have been taken. -/
theorem IsTracked.lt_of_running {i index : Nat} {t : τ} (h : b.IsTracked)
    (hi : b.workers[i]? = some (.running index t)) : index < min b.taken b.body.length := by
  refine List.mem_range.mp (h.mem_iff.mp (List.mem_append_right _ ?_))
  exact List.mem_filterMap.mpr ⟨_, List.mem_of_getElem? hi, rfl⟩

/-- The step that a worker runs was not handed in. -/
theorem IsTracked.ne_of_finished {i index : Nat} {t : τ} {f : Finished} (h : b.IsTracked)
    (hi : b.workers[i]? = some (.running index t)) (hf : f ∈ b.finished) : f.index ≠ index := by
  have hn := h.nodup_iff.mpr List.nodup_range
  refine (List.nodup_append.mp hn).2.2 _ (List.mem_map_of_mem hf) _ ?_
  exact List.mem_filterMap.mpr ⟨_, List.mem_of_getElem? hi, rfl⟩

/-- Two workers run different steps. -/
theorem IsTracked.ne_of_running {i j index index' : Nat} {t t' : τ} (h : b.IsTracked)
    (hi : b.workers[i]? = some (.running index t)) (hj : b.workers[j]? = some (.running index' t'))
    (hij : i ≠ j) : index' ≠ index := by
  have hn := (List.nodup_append.mp (h.nodup_iff.mpr List.nodup_range)).2.1
  rw [List.Nodup, List.pairwise_filterMap, List.pairwise_iff_getElem] at hn
  obtain ⟨hil, hi⟩ := List.getElem?_eq_some_iff.mp hi
  obtain ⟨hjl, hj⟩ := List.getElem?_eq_some_iff.mp hj
  rcases Nat.lt_or_gt_of_ne hij with hlt | hlt
  · exact (hn i j hil hjl hlt index (by rw [hi]; rfl) index' (by rw [hj]; rfl)).symm
  · exact hn j i hjl hil hlt index' (by rw [hj]; rfl) index (by rw [hi]; rfl)

/-- A block stays orderly when a worker changes and steps stay tracked. -/
theorem IsOrderly.setWorker {b' : Block τ} {i : Nat} {v w : Worker τ} (h : b.IsOrderly)
    (hi : b.workers[i]? = some v) (hbody : b'.body = b.body) (htaken : b.taken ≤ b'.taken)
    (hworkers : b'.workers = (b.setWorker i w).workers)
    (hstopped : w = .stopped → b.body.length ≤ b'.taken) (hb' : b'.IsTracked) :
    b'.IsOrderly := by
  obtain ⟨l₁, l₂, hl, hset⟩ := exists_append_of_getElem? hi
  have hworkers' : b'.workers = l₁ ++ w :: l₂ := hworkers.trans (hset w)
  refine ⟨hb', fun hmem => ?_, ?_⟩
  · rw [hbody]
    rw [hworkers', List.mem_append, List.mem_cons] at hmem
    rcases hmem with hmem | hw | hmem
    · exact (h.stopped (by simp [hl, hmem])).trans htaken
    · exact hstopped hw.symm
    · exact (h.stopped (by simp [hl, hmem])).trans htaken
  · rw [hworkers']
    exact List.append_ne_nil_of_right_ne_nil _ (List.cons_ne_nil _ _)

end Block

namespace Task

variable {κ : Conditions}

/-- **All parallel steps of a tree of tasks are orderly.** -/
inductive Orderly : Task → Prop where
  | enter {c s d fs} : Orderly (.mk c (.enter s d) fs)
  | calling {c head leaf d fs} : Orderly (.mk c (.calling head leaf d) fs)
  | joining {c fs} {b : Block Task} (hb : b.IsOrderly)
      (hw : ∀ (i index : Nat) (t : Task), b.workers[i]? = some (.running index t) → Orderly t) :
      Orderly (.mk c (.joining b) fs)
  | proceed {c fs} : Orderly (.mk c .proceed fs)
  | iterate {c fs} : Orderly (.mk c .iterate fs)
  | settled {c o fs} : Orderly (.mk c (.settled o) fs)

theorem Orderly.start (s : Step) (c : Context) (d : Nat) : Orderly (start s c d) := .enter

theorem Orderly.block {c : Context} {b : Block Task} {fs : List Frame}
    (h : Orderly (.mk c (.joining b) fs)) : b.IsOrderly := by
  cases h with
  | joining hb => exact hb

theorem Orderly.worker {c : Context} {b : Block Task} {fs : List Frame} {i index : Nat} {t : Task}
    (h : Orderly (.mk c (.joining b) fs)) (hi : b.workers[i]? = some (.running index t)) :
    Orderly t := by
  cases h with
  | joining _ hw => exact hw i index t hi

/-- A parallel step has a worker, unless it is empty. -/
theorem workers_pos (rule : ParallelRule) {total : Nat} (h : 0 < total) :
    0 < rule.workers total := by
  unfold ParallelRule.workers
  split
  · split <;> omega
  · exact h

/-- A parallel step that begins is orderly. -/
theorem isOrderly_opened (head : Head) (rule : ParallelRule) {body : List Step} (depth : Nat)
    (h : body ≠ []) : Block.IsOrderly (τ := Task) ⟨head, body, depth, 0, [],
      List.replicate (rule.workers body.length) .idle⟩ := by
  -- No step has been taken, and there is at least one worker.
  have hpos := workers_pos rule (List.length_pos_of_ne_nil h)
  refine ⟨?_, fun hmem => ?_, ?_⟩
  · simp [List.filterMap_replicate, Worker.index?]
  · cases List.eq_of_mem_replicate hmem
  · simpa using hpos.ne'

/-- A task that moves by itself is orderly, since its parallel step, if there is one, begins. -/
theorem advance_orderly {env : Env} {m : Moment} {t t' : Task} {e : Effect}
    (h : t.advance env m = some (t', e)) : Orderly t' := by
  -- A parallel step that waits for workers has just begun in the first case, and is none later.
  match t, h with
  | .mk c (.enter s d) fs, h =>
    have he := enters_enter env m c s d fs
    rw [show Task.enter env m c s d fs = _ from Option.some.inj h] at he
    cases he with
    | @parallel head rule body _ hb =>
      refine .joining (isOrderly_opened head rule _ hb) fun i index t hi => ?_
      cases List.eq_of_mem_replicate (List.mem_of_getElem? hi)
    | simple => exact .calling
    | branch => exact .proceed
    | loop => exact .iterate
    | cancelled | failed | skipped | empty => exact .settled
  | .mk c (.joining b) fs, h =>
    simp only [Task.advance] at h
    split at h
    · cases h
      exact .settled
    · cases h
  | .mk c .proceed (.branch f :: fs), h =>
    obtain rfl : proceedBranch m c f fs = t' := congrArg Prod.fst (Option.some.inj h)
    rcases proceedBranch_cases m c f fs with ⟨-, he⟩ | ⟨-, he⟩ | ⟨s, rest, -, -, he⟩ <;> rw [he]
    · exact .settled
    · exact .settled
    · exact .enter
  | .mk c .proceed (.loop f :: fs), h =>
    obtain rfl : proceedLoop env m c f fs = t' := congrArg Prod.fst (Option.some.inj h)
    rcases proceedLoop_cases env m c f fs with ⟨result, he⟩ | he | ⟨s, rest, -, -, he⟩ <;> rw [he]
    · exact .settled
    · exact .iterate
    · exact .enter
  | .mk c .iterate (.loop f :: fs), h =>
    obtain rfl : Task.iterate env m c f fs = t' := congrArg Prod.fst (Option.some.inj h)
    rcases iterate_cases env m c f fs with ⟨result, he⟩ | ⟨result, he⟩ | ⟨-, he⟩ <;> rw [he]
    · exact .settled
    · exact .settled
    · exact .proceed
  | .mk c (.settled o) (.finish s d :: fs), h =>
    cases h
    exact .settled
  | .mk c (.settled o) (.branch f :: fs), h =>
    obtain rfl : returnToBranch c f o fs = t' := congrArg Prod.fst (Option.some.inj h)
    rcases returnToBranch_cases c f o fs with ⟨-, he⟩ | ⟨e, -, he⟩ | ⟨e, -, -, -, he⟩ <;> rw [he]
    · exact .proceed
    · exact .settled
    · exact .settled
  | .mk c (.settled o) (.loop f :: fs), h =>
    obtain rfl : returnToLoop c f o fs = t' := congrArg Prod.fst (Option.some.inj h)
    rcases returnToLoop_cases c f o fs with
      ⟨-, he⟩ | ⟨e, -, he⟩ | ⟨e, -, -, -, he⟩ | ⟨e, -, -, -, he⟩ <;> rw [he]
    · exact .proceed
    · exact .settled
    · exact .proceed
    · exact .settled
  | .mk _ (.calling ..) _, h | .mk _ .proceed [], h | .mk _ .proceed (.finish .. :: _), h
  | .mk _ .iterate [], h | .mk _ .iterate (.finish .. :: _), h
  | .mk _ .iterate (.branch _ :: _), h | .mk _ (.settled _) [], h => cases h

/-- The tasks of the workers stay orderly when one of these changes. -/
theorem Orderly.setWorker {c : Context} {fs : List Frame} {b b' : Block Task} {i : Nat}
    {w : Worker Task} (h : Orderly (.mk c (.joining b) fs)) (hb' : b'.IsOrderly)
    (hworkers : b'.workers = (b.setWorker i w).workers)
    (hw : ∀ index t, w = .running index t → Orderly t) : Orderly (.mk c (.joining b') fs) := by
  refine .joining hb' fun j index t hj => ?_
  rw [hworkers] at hj
  rcases Block.workers_setWorker hj with he | hj
  · exact hw index t he.symm
  · exact h.worker hj

/-- **Moves keep parallel steps orderly.** -/
theorem Orderly.goes {t t' : Task} (ht : Orderly t) (h : Goes κ t t') : Orderly t' := by
  -- Steps move from the list to a worker and from there to those that were handed in.
  induction h with
  | here h => exact advance_orderly h
  | answered => exact .settled
  | @stop i c fs b hi hs =>
    have htaken : b.body.length ≤ b.taken := List.getElem?_eq_none_iff.mp hs
    exact ht.setWorker (ht.block.setWorker hi rfl (Nat.le_succ _) rfl
      (fun _ => htaken.trans (Nat.le_succ _)) (Block.IsTracked.stop ht.block.perm hi hs)) rfl nofun
  | @take i c fs s b hi hs =>
    refine ht.setWorker (ht.block.setWorker hi rfl (Nat.le_succ _) rfl nofun
      (Block.IsTracked.take ht.block.perm hi hs _)) rfl fun index t he => ?_
    cases he
    exact .start s c _
  | @handIn i c fs index t o b hi ho =>
    exact ht.setWorker (ht.block.setWorker hi rfl le_rfl rfl nofun
      (Block.IsTracked.handIn ht.block.perm hi o _)) rfl nofun
  | @inner i c fs index t t' b hi h ih =>
    refine ht.setWorker (ht.block.setWorker hi rfl le_rfl rfl nofun
      (Block.IsTracked.inner ht.block.perm hi _)) rfl fun index t he => ?_
    cases he
    exact ih (ht.worker hi)

end Task

end WorkflowEngine
