import WorkflowEngine.Proofs.Task.Place

/-!
# Failures in the tree of tasks

A step that fails makes the step around it fail, and so on up the tree, unless a step on the way
does not count failures. Until then the failure is pending: some task has it as its outcome, or a
parallel step has collected it.

## Main definitions

* `Step.Forgives`: a step that does not count the failures of the steps it holds
* `Task.MaskedWithin`: a failing step, or a step around it, does not count the failure
* `Task.Pending`: the failure of a step has not been masked yet

## Main results

* `Task.Pending.moves`, `Task.Pending.answers`: a pending failure stays pending until it is masked
* `Task.pending_of_finished`: a step that fails is masked or its failure is pending
-/

namespace WorkflowEngine

/-- A step that does not count the failures of the steps it holds. -/
inductive Step.Forgives : Step → Prop where
  | conditional {head condition ifSteps elseSteps cases defaultSteps}
      (h : head.policy.continueOnError = true) :
      Forgives (.conditional head condition ifSteps elseSteps cases defaultSteps)
  | loop {head rule body} (h : rule.onError ≠ .fail) : Forgives (.loop head rule body)

namespace Task

/-- **A failure is masked** by the failing step itself, which comes first, or by one around it. -/
inductive MaskedWithin : List Step → Prop where
  | own {s l} (h : s.Recovers) : MaskedWithin (s :: l)
  | around {s p l} (hp : p ∈ l) (h : p.Forgives) : MaskedWithin (s :: l)

theorem MaskedWithin.append {l : List Step} (h : MaskedWithin l) (l' : List Step) :
    MaskedWithin (l ++ l') := by
  cases h with
  | own h => exact .own h
  | around hp h => exact .around (List.mem_append_left l' hp) h

theorem MaskedWithin.of_mem {l l' : List Step} {p : Step} (hl : l ≠ []) (hp : p ∈ l')
    (h : p.Forgives) : MaskedWithin (l ++ l') := by
  cases l with
  | nil => exact absurd rfl hl
  | cons s l => exact .around (List.mem_append_right l hp) h

/-- **The failure of a step is pending**: a task around it fails, or a parallel step around it has
collected a failure. The steps are those up from the failing one. -/
inductive Pending : Task → List Step → Prop where
  | settled {c e fs l} (hl : l ≠ []) :
      Pending (.mk c (.settled (.error e)) fs) (l ++ stepsOf fs)
  | collected {c fs f e l} {b : Block Task} (hf : f ∈ b.finished) (he : f.outcome = .error e)
      (hl : l ≠ []) : Pending (.mk c (.joining b) fs) (l ++ stepsOf fs)
  | inner {c fs l} {i index : Nat} {t : Task} {b : Block Task}
      (hi : b.workers[i]? = some (.running index t)) (h : Pending t l) :
      Pending (.mk c (.joining b) fs) (l ++ stepsOf fs)

theorem Pending.ne_nil {t : Task} {l : List Step} (h : Pending t l) : l ≠ [] := by
  induction h with
  | settled hl => exact List.append_ne_nil_of_left_ne_nil hl _
  | collected _ _ hl => exact List.append_ne_nil_of_left_ne_nil hl _
  | inner _ _ ih => exact List.append_ne_nil_of_left_ne_nil ih _

/-- A step that is over with a pending failure has failed. -/
theorem Pending.outcome? {t : Task} {l : List Step} {o : Outcome} (h : Pending t l)
    (ho : t.outcome? = some o) : ∃ e, o = .error e := by
  cases h with
  | @settled c e fs l hl =>
    cases fs with
    | nil => cases ho; exact ⟨e, rfl⟩
    | cons f fs => cases ho
  | collected => cases ho
  | inner => cases ho

/-! ### A parallel step fails if one of its steps does -/

theorem Block.outcome_of_failed {b : Block Task} {f : Finished} {e : StepError}
    (hf : f ∈ b.finished) (he : f.outcome = .error e) : ∃ e', b.outcome = .error e' := by
  -- A cancelled step cancels the parallel step; any other failure is among those it fails with.
  unfold Block.outcome
  split
  · exact ⟨_, rfl⟩
  next hc =>
    have hcancelled : e.isCancelled = false := by
      cases h : e.isCancelled with
      | false => rfl
      | true => exact absurd (List.any_eq_true.mpr ⟨f, hf, by rw [he]; exact h⟩) hc
    -- the failing step is listed, so that the list is not empty
    have hmem : (((b.body[f.index]?).map Step.id).getD "", e.reason) ∈ b.failures := by
      refine List.mem_filterMap.mpr ⟨f, Block.mem_inOrder.mpr hf, ?_⟩
      simp [he, hcancelled]
    cases hfail : b.failures with
    | nil => rw [hfail] at hmem; cases hmem
    | cons x xs => exact ⟨_, rfl⟩

/-! ### Pending failures stay so -/

variable {env : Env} {m : Moment}

/-- A failure that is pending in the block stays so when a worker changes that has not failed. -/
theorem Pending.setWorker {c : Context} {fs : List Frame} {b b' : Block Task} {i : Nat}
    {w : Worker Task} {l : List Step} (h : Pending (.mk c (.joining b) fs) l)
    (hfinished : ∀ f ∈ b.finished, f ∈ b'.finished)
    (hworkers : b'.workers = (b.setWorker i w).workers)
    (hw : ∀ index t l', b.workers[i]? = some (.running index t) → Pending t l' →
      Pending (.mk c (.joining b') fs) (l' ++ stepsOf fs) ∨ MaskedWithin l') :
    Pending (.mk c (.joining b') fs) l ∨ MaskedWithin l := by
  -- A collected failure stays collected; a pending one is in the changed worker or in another.
  cases h with
  | collected hf he hl => exact .inl (.collected (hfinished _ hf) he hl)
  | @inner _ _ l' j index t _ hj h =>
    by_cases hij : i = j
    · subst hij
      exact (hw index t l' hj h).imp_right fun h => h.append _
    · rw [← List.getElem?_set_ne hij] at hj
      exact .inl (.inner ((congrArg (·[j]?) hworkers).trans hj) h)

/-- **A failure that is pending in a task that moves by itself** stays so, or is masked. -/
theorem Pending.advance {root : Step} {d₀ : Nat} {t t' : Task} {e : Effect} {l : List Step}
    (ht : Placed root d₀ t) (h : t.advance env m = some (t', e)) (hp : Pending t l) :
    Pending t' l ∨ MaskedWithin l := by
  -- The failure is the outcome of the task, was collected by it, or is in one of its workers.
  cases hp with
  | @settled c e fs l hl =>
    -- an outcome meets the frame on top: it is told of, or the conditional or loop around takes it
    cases ht with
    | @ended _ _ s c o d fs hs ho =>
      cases h
      refine .inl ?_
      rw [stepsOf_finish, List.append_cons]
      exact .settled (by simp)
    | @returned _ _ s c o d fs hs =>
      cases hs with
      | root => cases h
      | @branch p s f d fs hs hf =>
        obtain rfl : returnToBranch c f (.error e) (.finish p d :: fs) = t' :=
          congrArg Prod.fst (Option.some.inj h)
        rcases returnToBranch_cases c f (.error e) (.finish p d :: fs) with
          ⟨⟨v, hv⟩, -⟩ | ⟨e', -, he⟩ | ⟨e', -, -, hpolicy, -⟩
        · cases hv
        · rw [he]
          exact .inl (.settled hl)
        · obtain ⟨_, _, _, _, _, rfl⟩ := hf.step
          exact .inr (.of_mem hl (List.mem_cons_self ..) (.conditional hpolicy))
      | @loop p s f d fs hs hf =>
        obtain rfl : returnToLoop c f (.error e) (.finish p d :: fs) = t' :=
          congrArg Prod.fst (Option.some.inj h)
        obtain rfl := hf.step
        rcases returnToLoop_cases c f (.error e) (.finish _ d :: fs) with
          ⟨⟨v, hv⟩, -⟩ | ⟨e', -, he⟩ | ⟨e', -, -, hrule, -⟩ | ⟨e', -, -, hrule, -⟩
        · cases hv
        · rw [he]
          exact .inl (.settled hl)
        · exact .inr (.of_mem hl (List.mem_cons_self ..) (.loop (by rw [hrule]; rintro ⟨⟩)))
        · exact .inr (.of_mem hl (List.mem_cons_self ..) (.loop (by rw [hrule]; rintro ⟨⟩)))
  | @collected c fs f e l b hf he hl =>
    simp only [Task.advance] at h
    split at h
    · cases h
      -- the parallel step is over and fails with what it has collected
      obtain ⟨e', he'⟩ := Block.outcome_of_failed hf he
      rw [he']
      exact .inl (.settled hl)
    · cases h
  | inner hi =>
    -- a parallel step whose worker still runs does not move
    simp [Task.advance, Block.isOver_eq_false hi] at h

/-- **A pending failure stays so until it is masked.** -/
theorem Pending.moves {root : Step} {d₀ : Nat} {path : List Nat} {t t' : Task} {e : Effect}
    {l : List Step} (ht : Placed root d₀ t) (h : Moves env m path t t' e) (hp : Pending t l) :
    Pending t' l ∨ MaskedWithin l := by
  -- Induction on the path; masking within a worker is masking further up.
  induction h generalizing root d₀ l with
  | here h => exact hp.advance ht h
  | stop hi | take hi =>
    refine hp.setWorker (fun _ hf => hf) rfl fun _ _ _ hi' => ?_
    rw [hi] at hi'
    cases hi'
  | skip hi =>
    refine hp.setWorker (fun _ hf => List.mem_append_left _ hf) rfl fun _ _ _ hi' => ?_
    rw [hi] at hi'
    cases hi'
  | @handIn i path c fs index t o b hi ho =>
    refine hp.setWorker (fun _ hf => List.mem_append_left _ hf) rfl fun _ _ l' hi' hp' => .inl ?_
    rw [hi] at hi'
    cases hi'
    -- the step that is handed in has failed, so the parallel step collects the failure
    obtain ⟨e, rfl⟩ := hp'.outcome? ho
    exact .collected (List.mem_append_right _ (List.mem_singleton.mpr rfl)) rfl hp'.ne_nil
  | @inner i path c fs index t t' e b hi ho _ ih =>
    refine hp.setWorker (fun _ hf => hf) rfl fun _ _ l' hi' hp' => ?_
    rw [hi] at hi'
    cases hi'
    cases ht with
    | joining _ _ hb hw =>
      obtain ⟨s, hs⟩ := hb i _ _ hi
      exact (ih (hw i _ _ s hi hs) hp').imp_left fun h => .inner (Block.getElem?_setWorker hi _) h

/-- Answers leave pending failures alone. -/
theorem Pending.answers {r : Except StepError Json} {path : List Nat} {t t' : Task} {l : List Step}
    (h : Answers r path t t') (hp : Pending t l) : Pending t' l ∨ MaskedWithin l := by
  induction h generalizing l with
  | here => cases hp
  | @inner i path c fs index t t' b hi _ ih =>
    refine hp.setWorker (fun _ hf => hf) rfl fun _ _ l' hi' hp' => ?_
    rw [hi] at hi'
    cases hi'
    exact (ih hp').imp_left fun h => .inner (Block.getElem?_setWorker hi _) h

/-- **A step that fails is masked, or its failure is pending.** -/
theorem pending_of_finished {root : Step} {d₀ : Nat} {path : List Nat} {t t' : Task} {s : Step}
    {d ms : Nat} {o : Outcome} (ht : Placed root d₀ t)
    (h : Moves env m path t t' (.finished s d o ms)) (ho : o.failure?.isSome = true) :
    Pending t' (around path t) ∨ MaskedWithin (around path t) := by
  generalize he : Effect.finished s d o ms = e at h
  -- Induction on the path to the thread whose step is over.
  induction h generalizing root d₀ with
  | @here t t' e h =>
    subst he
    obtain ⟨c, fs, rfl, rfl, -⟩ := advance_eq_finished h
    rw [around_nil]
    cases ht with
    | returned hs => cases hs
    | ended hs hr =>
      -- it fails, or it is a simple step that has recovered from its own failure
      match o, ho with
      | .error e, _ => exact .inl (.settled (l := [s]) (by simp))
      | .ok (.recovered e), _ => exact .inr (.own (hr e rfl))
  | stop => cases he
  | skip => cases he
  | take => cases he
  | handIn => cases he
  | @inner i path c fs index t t' e b hi _ _ ih =>
    rw [around_cons hi]
    cases ht with
    | joining _ _ hb hw =>
      obtain ⟨s', hs'⟩ := hb i _ _ hi
      rcases ih (hw i _ _ s' hi hs') he with h | h
      · exact .inl (.inner (Block.getElem?_setWorker hi _) h)
      · exact .inr (h.append _)

end Task

end WorkflowEngine
