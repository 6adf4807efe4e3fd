import WorkflowEngine.Proofs.Task.Schedule

/-!
# Parallel steps as sequences

The steps of a parallel step do not see one another: each is run in a copy of the context at the
beginning, and its results are put in order when all are over. So whatever the schedule, a parallel
step does what its steps do one after the other, each by itself from that context.

What a task comes to is told by a relation that follows the task while it is by itself, and that
takes apart a parallel step into its steps. A move brings a task one move closer to what it comes
to, and a task that comes to something after a move comes to it before.

## Main definitions

* `Part`: what one of the steps has produced
* `sequential`: what the steps come to one after the other
* `Task.Yields`: what a task comes to, and in how many moves, whatever the schedule

## Main results

* `Block.IsOrderly.outcome_eq`: the outcome of a parallel step is that of the sequence
* `Task.Yields.goes`, `Task.Yields.of_goes`: moves do not change what a task comes to
* `Task.ComesTo.eq`: what a task comes to does not depend on the schedule
* `Task.parallel_eq_sequential`: a parallel step does what its steps do one after the other
-/

namespace WorkflowEngine

/-! ### The sequence -/

/-- What one step of a parallel step has produced: its outcome, and the results recorded by it. -/
structure Part where
  outcome : Outcome
  results : List StepResult

/-- What a step has produced that was run by itself from a context. -/
def Part.since (c : Context) (r : Outcome × Context) : Part :=
  ⟨r.1, r.2.results.drop c.results.length⟩

/-- What a step has produced that was handed in. -/
def Finished.part (f : Finished) : Part := ⟨f.outcome, f.results⟩

/-- The reason of a failure, unless the step was cancelled. -/
def Part.reason? (p : Part) : Option String :=
  match p.outcome with
  | .ok _ => none
  | .error e => if e.isCancelled then none else some e.reason

/-- The failing steps with their reasons, in the order of the list. -/
def failuresOf (body : List Step) (ps : List Part) : List (String × String) :=
  ((body.map Step.id).zip ps).filterMap fun x => x.2.reason?.map (x.1, ·)

/-- **The outcome of a sequence of steps** all of which are run, whether they fail or not: their
number, or the failing ones. -/
def outcomeOf (head : Head) (body : List Step) (ps : List Part) : Outcome :=
  if ps.any fun p => p.outcome.isCancelled then .error .cancelled
  else if (failuresOf body ps).isEmpty then .ok (.parallel body.length)
  else .error (.parallelFailure head.id (failuresOf body ps))

/-- The context with the results of one step after the other. -/
def Context.recordParts (c : Context) (ps : List Part) : Context :=
  ps.foldl (fun c p => p.results.foldl Context.record c) c

/-- **A sequence of steps, each run by itself** from the same context: its outcome, and the context
with their results in the order of the list. -/
def sequential (head : Head) (body : List Step) (c : Context) (rs : List (Outcome × Context)) :
    Outcome × Context :=
  (outcomeOf head body (rs.map (.since c)), c.recordParts (rs.map (.since c)))

/-- What a step has come to when its own result is recorded too. -/
def told (clock : Clock) (s : Step) (d : Nat) (r : Outcome × Context) : Outcome × Context :=
  (r.1,
    if r.1.isCancelled then r.2 else r.2.record (.ofOutcome s.id r.1 (clock s d r.1 r.2)))

namespace Block

variable {b : Block Task} {c : Context}

theorem recordAll_eq (b : Block Task) (c : Context) :
    b.recordAll c = c.recordParts (b.inOrder.map Finished.part) := by
  rw [recordAll, Context.recordParts, List.foldl_map]
  rfl

/-- The step that was handed in at a place is that of the list. -/
theorem IsOrderly.index_eq (h : b.IsOrderly) (ho : b.isOver = true) {i : Nat} {f : Finished}
    (hf : b.inOrder[i]? = some f) : f.index = i := by
  have hi := congrArg (·[i]?) (h.map_index_inOrder ho)
  simp only [List.getElem?_map, hf, Option.map_some] at hi
  obtain ⟨hlt, hi⟩ := List.getElem?_eq_some_iff.mp hi.symm
  rw [← hi, List.getElem_range]

theorem IsOrderly.length_inOrder (h : b.IsOrderly) (ho : b.isOver = true) :
    b.inOrder.length = b.body.length := by
  simpa using congrArg List.length (h.map_index_inOrder ho)

/-- What the steps have produced is told by what was handed in, in any order. -/
theorem IsOrderly.parts_eq (h : b.IsOrderly) (ho : b.isOver = true) {ps : List Part}
    (hlen : ps.length = b.body.length) (hps : ∀ f ∈ b.finished, ps[f.index]? = some f.part) :
    b.inOrder.map Finished.part = ps := by
  -- Place by place: the step at a place was handed in with what is claimed of it.
  refine List.ext_getElem? fun i => ?_
  rw [List.getElem?_map]
  cases hf : b.inOrder[i]? with
  | some f =>
    rw [← h.index_eq ho hf, hps f (Task.Block.mem_inOrder.mp (List.mem_of_getElem? hf))]
    rfl
  | none =>
    rw [List.getElem?_eq_none_iff, h.length_inOrder ho, ← hlen] at hf
    exact (List.getElem?_eq_none hf).symm

theorem IsOrderly.getElem?_parts (h : b.IsOrderly) (ho : b.isOver = true) {f : Finished}
    (hf : f ∈ b.finished) : (b.inOrder.map Finished.part)[f.index]? = some f.part := by
  obtain ⟨i, hi⟩ := List.getElem?_of_mem (Task.Block.mem_inOrder.mpr hf)
  rw [h.index_eq ho hi, List.getElem?_map, hi]
  rfl

theorem IsOrderly.failures_eq (h : b.IsOrderly) (ho : b.isOver = true) :
    b.failures = failuresOf b.body (b.inOrder.map Finished.part) := by
  -- The ids of the steps, read off those that were handed in.
  have hids : b.body.map Step.id =
      b.inOrder.map fun f => ((b.body[f.index]?).map Step.id).getD "" := by
    have hmap := congrArg (List.map fun i => ((b.body[i]?).map Step.id).getD "")
      (h.map_index_inOrder ho)
    rw [List.map_map] at hmap
    refine Eq.trans ?_ hmap.symm
    refine List.ext_getElem (by simp) fun i hi _ => ?_
    have hi : i < b.body.length := by simpa using hi
    simp [hi]
  rw [failuresOf, hids, List.zip_map', List.filterMap_map, failures]
  refine List.filterMap_congr fun f _ => ?_
  simp only [Function.comp, Finished.part, Part.reason?]
  cases f.outcome with
  | ok v => rfl
  | error e => cases he : e.isCancelled <;> simp [he]

/-- If no step failed, all have completed. -/
theorem completed_eq (hc : ¬ b.finished.any (fun f => f.outcome.isCancelled) = true)
    (hf : b.failures = []) : b.completed = b.finished.length := by
  -- A step that does not count is cancelled or listed among the failures.
  refine congrArg List.length (List.filter_eq_self.mpr fun f hmem => ?_)
  cases hof : f.outcome with
  | ok v => rfl
  | error e =>
    have hnone := List.filterMap_eq_nil_iff.mp hf f (Task.Block.mem_inOrder.mpr hmem)
    simp only [hof] at hnone
    split at hnone
    next he => exact absurd (List.any_eq_true.mpr ⟨f, hmem, by rw [hof]; exact he⟩) hc
    next => cases hnone

/-- **The outcome of a parallel step is that of the sequence.** -/
theorem IsOrderly.outcome_eq (h : b.IsOrderly) (ho : b.isOver = true) :
    b.outcome = outcomeOf b.head b.body (b.inOrder.map Finished.part) := by
  -- Whether a step was cancelled does not depend on the order.
  have hany : (b.inOrder.map Finished.part).any (fun p => p.outcome.isCancelled) =
      b.finished.any fun f => f.outcome.isCancelled := by
    rw [List.any_map]
    exact (List.mergeSort_perm _ _).any_eq
  rw [outcome, outcomeOf, hany, ← h.failures_eq ho]
  split
  next => rfl
  next hc =>
    cases hf : b.failures with
    | cons x xs => rfl
    | nil =>
      rw [completed_eq hc hf, ← List.length_mergeSort, ← h.length_inOrder ho]
      rfl

end Block

namespace Task

variable {κ : Conditions}

/-! ### What tasks come to -/

mutual

/-- **What a task comes to, whatever the schedule**: it makes a number of moves, and ends with an
outcome and a context. A parallel step comes to what its steps come to by themselves. -/
inductive Yields (κ : Conditions) : Nat → Task → Outcome × Context → Prop where
  | ended {c o} : Yields κ 0 (.mk c (.settled o) []) (o, c)
  | advance {n t t' e r} (ht : ∀ b, t.control ≠ .joining b)
      (h : t.advance κ.env (momentAt κ.clock [] t) = some (t', e)) (hy : Yields κ n t' r) :
      Yields κ (n + 1) t r
  | answered {n c head leaf depth fs r}
      (hy : Yields κ n
        (.mk c (.settled (leafOutcome head (κ.answer head leaf depth c))) fs) r) :
      Yields κ (n + 1) (.mk c (.calling head leaf depth) fs) r
  | joining {c fs ps k l m n r} {b : Block Task} (hlen : ps.length = b.body.length)
      (hps : ∀ f ∈ b.finished, ps[f.index]? = some f.part)
      (hw : WorkersYield κ c ps k b.workers)
      (hs : StepsYield κ c ps b.depth l b.taken (b.body.drop b.taken))
      (hy : Yields κ m
        (.mk (c.recordParts ps) (.settled (outcomeOf b.head b.body ps)) fs) r)
      (hn : n = k + l + m + 1) : Yields κ n (.mk c (.joining b) fs) r

/-- What the workers of a parallel step come to with the steps that they run. -/
inductive WorkersYield (κ : Conditions) :
    Context → List Part → Nat → List (Worker Task) → Prop where
  | nil {c ps} : WorkersYield κ c ps 0 []
  | idle {c ps k ws} (h : WorkersYield κ c ps k ws) :
      WorkersYield κ c ps (k + 1) (.idle :: ws)
  | stopped {c ps k ws} (h : WorkersYield κ c ps k ws) :
      WorkersYield κ c ps k (.stopped :: ws)
  | running {c ps k n index t r ws} (hy : Yields κ n t r)
      (hp : ps[index]? = some (.since c r)) (h : WorkersYield κ c ps k ws) :
      WorkersYield κ c ps (n + 2 + k) (.running index t :: ws)

/-- What the steps of a parallel step come to, from the one at a place of the list on. -/
inductive StepsYield (κ : Conditions) :
    Context → List Part → Nat → Nat → Nat → List Step → Prop where
  | nil {c ps d i} : StepsYield κ c ps d 0 i []
  | cons {c ps d l n i s r steps} (hy : Yields κ n (start s c d) r)
      (hp : ps[i]? = some (.since c r)) (h : StepsYield κ c ps d l (i + 1) steps) :
      StepsYield κ c ps d (n + 2 + l) i (s :: steps)

end

/-- A worker in front of others. -/
theorem WorkersYield.cons {c : Context} {ps : List Part} {w : Worker Task} {k' k : Nat}
    {ws : List (Worker Task)} (hw : WorkersYield κ c ps k' [w]) (h : WorkersYield κ c ps k ws) :
    WorkersYield κ c ps (k' + k) (w :: ws) := by
  cases hw with
  | idle hn =>
    cases hn
    rw [Nat.add_comm]
    exact .idle h
  | stopped hn =>
    cases hn
    rw [Nat.zero_add]
    exact .stopped h
  | running hy hp hn =>
    cases hn
    exact .running hy hp h

theorem WorkersYield.of_cons {c : Context} {ps : List Part} {w : Worker Task} {k : Nat}
    {ws : List (Worker Task)} (h : WorkersYield κ c ps k (w :: ws)) :
    ∃ k₁ k₂, k = k₁ + k₂ ∧ WorkersYield κ c ps k₁ [w] ∧
      WorkersYield κ c ps k₂ ws := by
  cases h with
  | idle h => exact ⟨1, _, Nat.add_comm _ _, .idle .nil, h⟩
  | stopped h => exact ⟨0, _, (Nat.zero_add _).symm, .stopped .nil, h⟩
  | running hy hp h => exact ⟨_, _, rfl, .running hy hp .nil, h⟩

/-- **One of the workers**, and what the workers come to when it changes. -/
theorem WorkersYield.set {c : Context} {ps : List Part} {k i : Nat} {ws : List (Worker Task)}
    {v : Worker Task} (h : WorkersYield κ c ps k ws) (hi : ws[i]? = some v) :
    ∃ k₁ k₂, k = k₁ + k₂ ∧ WorkersYield κ c ps k₁ [v] ∧
      ∀ w k', WorkersYield κ c ps k' [w] →
        WorkersYield κ c ps (k' + k₂) (ws.set i w) := by
  -- Induction on the workers, down to the one that changes; those in front keep what they come to.
  induction ws generalizing k i with
  | nil => cases hi
  | cons u ws ih =>
    obtain ⟨k₁, k₂, rfl, hu, hws⟩ := h.of_cons
    cases i with
    | zero =>
      cases hi
      exact ⟨k₁, k₂, rfl, hu, fun w k' hw => hw.cons hws⟩
    | succ i =>
      obtain ⟨l₁, l₂, rfl, hv, hset⟩ := ih hws hi
      refine ⟨l₁, k₁ + l₂, Nat.add_left_comm .., hv, fun w k' hw => ?_⟩
      rw [Nat.add_left_comm]
      exact hu.cons (hset w k' hw)

/-- One of the workers, and what the workers have come to before it changed. -/
theorem WorkersYield.unset {c : Context} {ps : List Part} {k i : Nat} {ws : List (Worker Task)}
    {v w : Worker Task} (hi : ws[i]? = some v) (h : WorkersYield κ c ps k (ws.set i w)) :
    ∃ k₁ k₂, k = k₁ + k₂ ∧ WorkersYield κ c ps k₁ [w] ∧
      ∀ k', WorkersYield κ c ps k' [v] → WorkersYield κ c ps (k' + k₂) ws := by
  have hlen := (List.getElem?_eq_some_iff.mp hi).1
  obtain ⟨k₁, k₂, hk, hw, hset⟩ := h.set (List.getElem?_set_self hlen)
  refine ⟨k₁, k₂, hk, hw, fun k' hv => ?_⟩
  -- setting the worker back gives the workers as they were
  have hback := hset v k' hv
  rwa [set_set_of_getElem? hi] at hback

theorem WorkersYield.of_idle {c : Context} {ps : List Part} (n : Nat) :
    WorkersYield κ c ps n (List.replicate n .idle) := by
  induction n with
  | zero => exact .nil
  | succ n ih => exact .idle ih

theorem WorkersYield.eq_one {c : Context} {ps : List Part} {k : Nat}
    (h : WorkersYield κ c ps k [.idle]) : k = 1 := by
  cases h with
  | idle h => cases h; rfl

theorem WorkersYield.eq_zero {c : Context} {ps : List Part} {k : Nat} {ws : List (Worker Task)}
    (h : WorkersYield κ c ps k ws) (hws : ∀ w ∈ ws, w = .stopped) : k = 0 := by
  induction ws generalizing k with
  | nil => cases h; rfl
  | cons w ws ih =>
    obtain rfl := hws w (List.mem_cons_self ..)
    cases h with
    | stopped h => exact ih h fun w hw => hws w (List.mem_cons_of_mem _ hw)

theorem WorkersYield.of_stopped {c : Context} {ps : List Part} {ws : List (Worker Task)}
    (hws : ∀ w ∈ ws, w = .stopped) : WorkersYield κ c ps 0 ws := by
  induction ws with
  | nil => exact .nil
  | cons w ws ih =>
    obtain rfl := hws w (List.mem_cons_self ..)
    exact .stopped (ih fun w hw => hws w (List.mem_cons_of_mem _ hw))

theorem WorkersYield.of_running {c : Context} {ps : List Part} {k index : Nat} {t : Task}
    (h : WorkersYield κ c ps k [.running index t]) :
    ∃ n r, k = n + 2 ∧ Yields κ n t r ∧ ps[index]? = some (.since c r) := by
  cases h with
  | running hy hp h =>
    cases h
    exact ⟨_, _, rfl, hy, hp⟩

/-- A task that is over has come to its outcome. -/
theorem Yields.of_outcome? {n : Nat} {t : Task} {r : Outcome × Context} {o : Outcome}
    (h : Yields κ n t r) (ho : t.outcome? = some o) : n = 0 ∧ r = (o, t.context) := by
  cases h with
  | ended => cases ho; exact ⟨rfl, rfl⟩
  | advance _ h =>
    -- a task that is over does not move
    obtain ⟨c, control, fs⟩ := t
    cases control with
    | settled o =>
      cases fs with
      | nil => cases h
      | cons f fs => cases ho
    | _ => cases ho
  | answered => cases ho
  | joining => cases ho

theorem Yields.of_ended {t : Task} {o : Outcome} (ho : t.outcome? = some o) :
    Yields κ 0 t (o, t.context) := by
  obtain ⟨c, control, fs⟩ := t
  cases control with
  | settled o =>
    cases fs with
    | nil => cases ho; exact .ended
    | cons f fs => cases ho
  | _ => cases ho

/-- **A move brings the task one move closer** to what it comes to. -/
theorem Yields.goes {n : Nat} {t t' : Task} {r : Outcome × Context} (ht : Orderly t)
    (h : Goes κ t t') (hy : Yields κ n t r) :
    ∃ n', n = n' + 1 ∧ Yields κ n' t' r := by
  -- Induction on the motion: each takes one move off what the task or one worker still owes.
  induction h generalizing n r with
  | @here t t' e h =>
    cases hy with
    | ended => cases h
    | advance _ h' hy =>
      rw [h] at h'
      cases h'
      exact ⟨_, rfl, hy⟩
    | answered => cases h
    | @joining c fs ps k l m _ _ b hlen hps hw hs hy hn =>
      -- the workers have stopped: what was handed in is what the steps come to, in order
      simp only [Task.advance] at h
      split at h
      next ho =>
        cases h
        have hb := ht.block
        obtain rfl : k = 0 := hw.eq_zero (Block.isOver_iff.mp ho)
        rw [List.drop_eq_nil_of_le (hb.length_le_taken ho)] at hs
        cases hs
        rw [Block.recordAll_eq, hb.outcome_eq ho, hb.parts_eq ho hlen hps]
        exact ⟨m, by omega, hy⟩
      next => cases h
  | answered =>
    cases hy with
    | advance _ h => cases h
    | answered hy => exact ⟨_, rfl, hy⟩
  | @stop i c fs b hi hs =>
    cases hy with
    | advance hne => exact absurd rfl (hne b)
    | joining hlen hps hw hst hy hn =>
      -- a worker that stops finds no step, so that none is left
      have hnil : b.body.drop b.taken = [] :=
        List.drop_eq_nil_of_le (List.getElem?_eq_none_iff.mp hs)
      rw [hnil] at hst
      cases hst
      obtain ⟨k₁, k₂, rfl, hv, hset⟩ := hw.set hi
      obtain rfl := hv.eq_one
      refine ⟨_, ?_, .joining (l := 0) hlen hps (hset _ _ (.stopped .nil)) ?_ hy rfl⟩
      · omega
      · show StepsYield κ c _ b.depth 0 (b.taken + 1) (b.body.drop (b.taken + 1))
        rw [← List.drop_drop, hnil]
        exact .nil
  | @take i c fs s b hi hs =>
    cases hy with
    | advance hne => exact absurd rfl (hne b)
    | joining hlen hps hw hst hy hn =>
      -- the step that is taken is the first one left, and the worker now owes what it comes to
      rw [List.drop_eq_getElem?_toList_append, hs] at hst
      cases hst with
      | cons hys hp hst =>
        obtain ⟨k₁, k₂, rfl, hv, hset⟩ := hw.set hi
        obtain rfl := hv.eq_one
        refine ⟨_, ?_, .joining hlen hps (hset _ _ (.running hys hp .nil)) hst hy rfl⟩
        omega
  | @handIn i c fs index t o b hi ho =>
    cases hy with
    | advance hne => exact absurd rfl (hne b)
    | joining hlen hps hw hst hy hn =>
      obtain ⟨k₁, k₂, rfl, hv, hset⟩ := hw.set hi
      obtain ⟨n', r', rfl, hyt, hp⟩ := hv.of_running
      -- the task that is handed in owes nothing more, and has come to its own outcome
      obtain ⟨rfl, rfl⟩ : n' = 0 ∧ r' = (o, t.context) := hyt.of_outcome? ho
      refine ⟨_, ?_, .joining hlen (fun f hf => ?_) (hset _ _ (.idle .nil)) hst hy rfl⟩
      · omega
      · rcases List.mem_append.mp hf with hf | hf
        · exact hps f hf
        · rw [List.mem_singleton.mp hf]
          exact hp
  | @inner i c fs index t t' b hi h ih =>
    cases hy with
    | advance hne => exact absurd rfl (hne b)
    | joining hlen hps hw hst hy hn =>
      obtain ⟨k₁, k₂, rfl, hv, hset⟩ := hw.set hi
      obtain ⟨n', r', rfl, hyt, hp⟩ := hv.of_running
      obtain ⟨n'', rfl, hyt'⟩ := ih (ht.worker hi) hyt
      refine ⟨_, ?_, .joining hlen hps (hset _ _ (.running hyt' hp .nil)) hst hy rfl⟩
      omega

/-- **What a task comes to after a move, it comes to with that move.** -/
theorem Yields.of_goes {n : Nat} {t t' : Task} {r : Outcome × Context} (ht : Orderly t)
    (h : Goes κ t t') (hy : Yields κ n t' r) : Yields κ (n + 1) t r := by
  -- The same motions backwards: what the changed worker has come to is known afterwards.
  induction h generalizing n r with
  | @here t t' e h =>
    -- a parallel step that is over comes to what its workers have handed in
    by_cases hb : ∃ b, t.control = .joining b
    · obtain ⟨b, hb⟩ := hb
      obtain ⟨c, control, fs⟩ := t
      obtain rfl : control = .joining b := hb
      simp only [Task.advance] at h
      split at h
      next ho =>
        cases h
        have hb := ht.block
        rw [Block.recordAll_eq, hb.outcome_eq ho] at hy
        refine .joining (k := 0) (l := 0) ?_ (fun f hf => hb.getElem?_parts ho hf)
          (.of_stopped (Block.isOver_iff.mp ho)) ?_ hy (by omega)
        · rw [List.length_map, hb.length_inOrder ho]
        · rw [List.drop_eq_nil_of_le (hb.length_le_taken ho)]
          exact .nil
      next => cases h
    · exact .advance (fun b hb' => hb ⟨b, hb'⟩) h hy
  | answered => exact .answered hy
  | @stop i c fs b hi hs =>
    cases hy with
    | advance hne => exact absurd rfl (hne _)
    | joining hlen hps hw hst hy hn =>
      obtain ⟨k₁, k₂, rfl, hv, hset⟩ := WorkersYield.unset hi hw
      obtain rfl := hv.eq_zero (by simp)
      have hnil : b.body.drop b.taken = [] :=
        List.drop_eq_nil_of_le (List.getElem?_eq_none_iff.mp hs)
      have hst : StepsYield κ c _ b.depth _ (b.taken + 1) (b.body.drop (b.taken + 1)) :=
        hst
      rw [← List.drop_drop, hnil] at hst
      cases hst
      refine .joining (l := 0) hlen hps (hset _ (.idle .nil)) ?_ hy (by omega)
      rw [hnil]
      exact .nil
  | @take i c fs s b hi hs =>
    cases hy with
    | advance hne => exact absurd rfl (hne _)
    | @joining _ _ ps _ l _ _ _ _ hlen hps hw hst hy hn =>
      obtain ⟨k₁, k₂, rfl, hv, hset⟩ := WorkersYield.unset hi hw
      obtain ⟨n', r', rfl, hys, hp⟩ := hv.of_running
      -- the step goes back to the front of those that are left
      have hst' : StepsYield κ c ps b.depth (n' + 2 + l) b.taken (b.body.drop b.taken) := by
        rw [List.drop_eq_getElem?_toList_append, hs]
        exact .cons hys hp hst
      refine .joining hlen hps (hset _ (.idle .nil)) hst' hy ?_
      omega
  | @handIn i c fs index t o b hi ho =>
    cases hy with
    | advance hne => exact absurd rfl (hne _)
    | joining hlen hps hw hst hy hn =>
      obtain ⟨k₁, k₂, rfl, hv, hset⟩ := WorkersYield.unset hi hw
      obtain rfl := hv.eq_one
      -- what was handed in is what the task had come to
      have hp := hps ⟨index, o, _⟩ (List.mem_append_right _ (List.mem_singleton.mpr rfl))
      refine .joining hlen (fun f hf => hps f (List.mem_append_left _ hf))
        (hset _ (.running (.of_ended ho) hp .nil)) hst hy ?_
      omega
  | @inner i c fs index t t' b hi h ih =>
    cases hy with
    | advance hne => exact absurd rfl (hne _)
    | joining hlen hps hw hst hy hn =>
      obtain ⟨k₁, k₂, rfl, hv, hset⟩ := WorkersYield.unset hi hw
      obtain ⟨n', r', rfl, hyt, hp⟩ := hv.of_running
      refine .joining hlen hps (hset _ (.running (ih (ht.worker hi) hyt) hp .nil)) hst hy ?_
      omega

/-! ### Runs -/

theorem Yields.runs {n k : Nat} {t t' : Task} {r : Outcome × Context} (ht : Orderly t)
    (hy : Yields κ n t r) (h : Runs κ k t t') :
    ∃ n', n = k + n' ∧ Yields κ n' t' r := by
  induction h generalizing n with
  | refl => exact ⟨n, (Nat.zero_add n).symm, hy⟩
  | cons h _ ih =>
    obtain ⟨n', rfl, hy'⟩ := hy.goes ht h.goes
    obtain ⟨n'', rfl, hy''⟩ := ih (ht.goes h.goes) hy'
    exact ⟨n'', by omega, hy''⟩

theorem Yields.of_runs {n k : Nat} {t t' : Task} {r : Outcome × Context} (ht : Orderly t)
    (h : Runs κ k t t') (hy : Yields κ n t' r) :
    Yields κ (k + n) t r := by
  induction h with
  | refl => exact (Nat.zero_add n).symm ▸ hy
  | @cons k t t₁ t₂ h _ ih =>
    have := Yields.of_goes ht h.goes (ih (ht.goes h.goes) hy)
    rwa [Nat.add_right_comm] at this

/-- What a task comes to, it comes to by some schedule. -/
theorem Yields.comesTo {root : Step} {d n : Nat} {t : Task} {r : Outcome × Context}
    (h : Yields κ n t r) (hp : Placed root d t) (ht : Orderly t) :
    ComesTo κ t r := by
  -- Induction on the number of moves that are left; any move that is possible will do.
  induction n generalizing t with
  | zero =>
    cases h with
    | ended => exact ⟨0, .refl⟩
    | joining _ _ _ _ _ hn => omega
  | succ n ih =>
    have ho : t.outcome? = none := by
      cases ho : t.outcome? with
      | none => rfl
      | some o => cases (h.of_outcome? ho).1
    obtain ⟨t', ha⟩ : ∃ t', Acts κ t t' := hp.exists_acts ho
    obtain ⟨n', hn, h'⟩ := h.goes ht ha.goes
    cases hn
    obtain ⟨k, hr⟩ := ih h' (hp.acts ha) (ht.goes ha.goes)
    exact ⟨k + 1, .cons ha hr⟩

theorem ComesTo.yields {t : Task} {r : Outcome × Context} (h : ComesTo κ t r)
    (ht : Orderly t) : ∃ n, Yields κ n t r := by
  obtain ⟨n, h⟩ := h
  exact ⟨n + 0, .of_runs ht h .ended⟩

/-- **What a task comes to does not depend on the schedule.** -/
theorem ComesTo.eq {t : Task} {r r' : Outcome × Context} (h : ComesTo κ t r) (h' : ComesTo κ t r')
    (ht : Orderly t) : r = r' := by
  obtain ⟨n, hy⟩ := h.yields ht
  obtain ⟨k, hr⟩ := h'
  obtain ⟨n', -, hy'⟩ := hy.runs ht hr
  exact (hy'.of_outcome? rfl).2

/-- A step whose outcome is there is told of. -/
theorem yields_told_iff {s : Step} {d n : Nat} {o : Outcome} {c : Context}
    {r : Outcome × Context} :
    Yields κ n (.mk c (.settled o) [.finish s d]) r ↔ n = 1 ∧ r = told κ.clock s d (o, c) := by
  constructor
  · intro h
    cases h with
    | advance _ h hy =>
      cases h
      cases hy with
      | ended => exact ⟨rfl, rfl⟩
      | advance _ h => cases h
  · rintro ⟨rfl, rfl⟩
    exact .advance nofun rfl .ended

/-- A simple step comes to its answer. -/
theorem comesTo_simple (κ : Conditions) (head : Head) (leaf : Leaf) (c : Context) (d : Nat) :
    ComesTo κ (start (.simple head leaf) c d)
      (told κ.clock (.simple head leaf) d (leafOutcome head (κ.answer head leaf d c), c)) := by
  have hy : Yields κ 3 (start (.simple head leaf) c d)
      (told κ.clock (.simple head leaf) d (leafOutcome head (κ.answer head leaf d c), c)) :=
    .advance nofun rfl (.answered (yields_told_iff.mpr ⟨rfl, rfl⟩))
  exact hy.comesTo (.start ..) (.start ..)

/-! ### Parallel steps -/

/-- The steps of a parallel step come to what each of them comes to by itself. -/
theorem StepsYield.of_forall₂ {c : Context} {d : Nat} {body : List Step}
    {rs : List (Outcome × Context)}
    (h : List.Forall₂ (fun s r => ComesTo κ (start s c d) r) body rs) (ps : List Part) :
    ∃ l, StepsYield κ c (ps ++ rs.map (.since c)) d l ps.length body := by
  -- Induction on the steps, with what those in front have produced put before the rest.
  induction h generalizing ps with
  | nil => exact ⟨0, .nil⟩
  | @cons s r body rs hr _ ih =>
    obtain ⟨n, hy⟩ := hr.yields (.start s c d)
    obtain ⟨l, hs⟩ := ih (ps ++ [.since c r])
    rw [List.append_assoc, List.length_append] at hs
    exact ⟨n + 2 + l, .cons hy (by simp) hs⟩

theorem StepsYield.forall₂ {c : Context} {d l : Nat} {body : List Step} {before ps : List Part}
    (h : StepsYield κ c (before ++ ps) d l before.length body)
    (hlen : ps.length = body.length) :
    ∃ rs, List.Forall₂ (fun s r => ComesTo κ (start s c d) r) body rs ∧
      ps = rs.map (.since c) := by
  -- As above, place by place from the front.
  induction body generalizing before ps l with
  | nil => exact ⟨[], .nil, List.length_eq_zero_iff.mp hlen⟩
  | cons s body ih =>
    match ps, hlen with
    | p :: ps, hlen =>
      cases h with
      | @cons _ _ _ l n _ _ r _ hy hp h =>
        obtain rfl : p = .since c r := by simpa using hp
        have h' : StepsYield κ c ((before ++ [.since c r]) ++ ps) d l
            (before ++ [Part.since c r]).length body := by
          simpa using h
        obtain ⟨rs, hrs, rfl⟩ := ih h' (Nat.succ.inj hlen)
        exact ⟨r :: rs, .cons (hy.comesTo (.start s c d) (.start s c d)) hrs, rfl⟩

/-- **What a parallel step comes to**, by what its steps come to. -/
theorem yields_parallel_iff {head : Head} {rule : ParallelRule} {body : List Step} {c : Context}
    {d : Nat} {r : Outcome × Context} :
    (∃ n, Yields κ n (start (.parallel head rule body) c d) r) ↔
      ∃ ps l, ps.length = body.length ∧ StepsYield κ c ps (d + 1) l 0 body ∧
        r = told κ.clock (.parallel head rule body) d
          (outcomeOf head body ps, c.recordParts ps) := by
  -- An empty step is over at once; any other waits for its workers and then is.
  cases body with
  | nil =>
    constructor
    · rintro ⟨n, hy⟩
      cases hy with
      | advance _ h hy =>
        cases h
        exact ⟨[], 0, rfl, .nil, (yields_told_iff.mp hy).2⟩
    · rintro ⟨ps, l, hlen, -, rfl⟩
      obtain rfl := List.length_eq_zero_iff.mp hlen
      exact ⟨2, .advance nofun rfl (yields_told_iff.mpr ⟨rfl, rfl⟩)⟩
  | cons s body =>
    constructor
    · rintro ⟨n, hy⟩
      cases hy with
      | advance _ h hy =>
        cases h
        cases hy with
        | advance hne => exact absurd rfl (hne _)
        | joining hlen _ _ hs hy _ => exact ⟨_, _, hlen, hs, (yields_told_iff.mp hy).2⟩
    · rintro ⟨ps, l, hlen, hs, rfl⟩
      exact ⟨_, .advance nofun rfl
        (.joining hlen nofun (.of_idle _) hs (yields_told_iff.mpr ⟨rfl, rfl⟩) rfl)⟩

/-- **A parallel step does what its steps do one after the other**, each by itself from the context
at the beginning, whatever the schedule, the number of workers and whether it is to fail fast. If
every step comes to its end by itself, the parallel step comes to its end by every schedule, with
the outcome and the context of the sequence; and it comes to no other end. -/
theorem parallel_eq_sequential (κ : Conditions) (head : Head) (rule : ParallelRule)
    (body : List Step) (c : Context) (d : Nat) :
    (∀ rs, List.Forall₂ (fun s r => ComesTo κ (start s c (d + 1)) r) body rs →
      ∃ n, ∀ k t, Runs κ k (start (.parallel head rule body) c d) t →
        k ≤ n ∧ (t.outcome? = none → ∃ t', Acts κ t t') ∧
          ∀ o, t.outcome? = some o →
            (o, t.context) =
              told κ.clock (.parallel head rule body) d (sequential head body c rs)) ∧
    ∀ r, ComesTo κ (start (.parallel head rule body) c d) r →
      ∃ rs, List.Forall₂ (fun s r => ComesTo κ (start s c (d + 1)) r) body rs ∧
        r = told κ.clock (.parallel head rule body) d (sequential head body c rs) := by
  have hp : Placed (.parallel head rule body) d (start (.parallel head rule body) c d) := .start ..
  have ht : Orderly (start (.parallel head rule body) c d) := .start ..
  constructor
  · intro rs hrs
    obtain ⟨l, hs⟩ := StepsYield.of_forall₂ hrs []
    obtain ⟨n, hy⟩ := yields_parallel_iff.mpr
      ⟨rs.map (.since c), l, (List.length_map ..).trans hrs.length_eq.symm, hs, rfl⟩
    refine ⟨n, fun k t hrun => ?_⟩
    obtain ⟨n', rfl, hy'⟩ := hy.runs ht hrun
    exact ⟨Nat.le_add_right k n', (hp.runs hrun).exists_acts,
      fun o ho => (hy'.of_outcome? ho).2.symm⟩
  · intro r hr
    obtain ⟨ps, l, hlen, hs, rfl⟩ := yields_parallel_iff.mp (hr.yields ht)
    have hs : StepsYield κ c ([] ++ ps) (d + 1) l 0 body := hs
    obtain ⟨rs, hrs, rfl⟩ := hs.forall₂ hlen
    exact ⟨rs, hrs, rfl⟩

end Task

/-- A simple step with a name. -/
def Step.simpleNamed (id : String) : Step :=
  .simple ⟨id, none, default⟩ ⟨.command, "run", [], none, none⟩

/-- One step fails, and all others succeed at once. -/
def Conditions.failing (id : String) : Conditions where
  env := ⟨fun _ _ => .ok .null, 1⟩
  answer head _ _ _ := if head.id = id then .error (.executionFailed id "no") else .ok .null
  clock _ _ _ _ := 0

namespace Task

/-- Of two steps that are run at once the second one fails. -/
theorem parallel_eq_sequential_pair :
    ∃ n, ∀ k t, Runs (.failing "b") k
        (start (.parallel ⟨"p", none, default⟩ ⟨none, true⟩ [.simpleNamed "a", .simpleNamed "b"])
          {} 0) t →
      k ≤ n ∧ ∀ o, t.outcome? = some o → o = .error (.parallelFailure "p" [("b", "no")]) := by
  obtain ⟨n, h⟩ := (parallel_eq_sequential (.failing "b") ⟨"p", none, default⟩ ⟨none, true⟩
    [.simpleNamed "a", .simpleNamed "b"] {} 0).1 [_, _]
    (.cons (comesTo_simple ..) (.cons (comesTo_simple ..) .nil))
  refine ⟨n, fun k t hr => ⟨(h k t hr).1, fun o ho => ?_⟩⟩
  have hend := congrArg Prod.fst ((h k t hr).2.2 o ho)
  exact hend

end Task

end WorkflowEngine
