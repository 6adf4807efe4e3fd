import WorkflowEngine.Proofs.Task.Motion

/-!
# Places in the tree of tasks

The frames of a task and the steps of a workflow fit together: what waits for a step is the step
that holds it. So the steps around a thread can be read off its task, and they are a line of steps
each of which holds the one before it. A task that is not over always has a thread that can move or
waits for an answer.

## Main definitions

* `Step.Holds`: a step is among those that another one holds
* `Task.around`: the steps around a thread
* `Task.Hosts`, `Task.Placed`: the frames and the control of a task fit the steps of a tree

## Main results

* `Task.Placed.moves`, `Task.Placed.answers`: motions keep tasks placed
* `Task.Placed.lineage`: the steps around are a line of steps
* `Task.Placed.exists_thread`: a task that is not over can go on
* `Task.Moves.callAt?_eq`: threads leave each other's simple steps alone
* `Task.Placed.eq_finished`: the step that is run ends when it is told of
-/

namespace WorkflowEngine

@[simp] theorem StepResult.durationMs_ofOutcome (stepId : String) (o : Outcome) (ms : Nat) :
    (StepResult.ofOutcome stepId o ms).durationMs = ms := by
  cases o with
  | error e => rfl
  | ok output => cases output <;> rfl

@[simp] theorem Context.lastDurationMs_record (c : Context) (r : StepResult) :
    (c.record r).lastDurationMs = r.durationMs := by
  simp [lastDurationMs, record]

/-- A step is among those that another one holds. -/
def Step.Holds (s child : Step) : Prop := ∃ steps ∈ s.children, child ∈ steps

/-- A line of steps from one in the tree of a step up to that step itself. -/
inductive Step.Lineage (root : Step) : List Step → Prop where
  | root : Lineage root [root]
  | child {s p l} (h : Lineage root (p :: l)) (hs : p.Holds s) : Lineage root (s :: p :: l)

theorem Step.Lineage.append {root p s : Step} {l l' : List Step} (h : Lineage s l)
    (hp : Lineage root (p :: l')) (hs : p.Holds s) : Lineage root (l ++ p :: l') := by
  induction h with
  | root => exact .child hp hs
  | child _ hs ih => exact .child ih hs

/-- A simple step whose own failures do not count. -/
def Step.Recovers (s : Step) : Prop :=
  ∃ head leaf, s = .simple head leaf ∧ head.policy.continueOnError = true

/-- The step that a frame tells of, if it tells of one. -/
def Frame.step? : Frame → Option Step
  | .finish s _ => some s
  | _ => none

/-- A frame is that of a conditional at a depth. -/
structure BranchFrame.Of (f : BranchFrame) (s : Step) (d : Nat) : Prop where
  step : ∃ condition ifSteps elseSteps cases defaultSteps,
    s = .conditional f.head condition ifSteps elseSteps cases defaultSteps
  depth : f.depth = d + 1
  rest : ∀ x ∈ f.rest, s.Holds x

/-- A frame is that of a loop at a depth. -/
structure LoopFrame.Of (f : LoopFrame) (s : Step) (d : Nat) : Prop where
  step : s = .loop f.head f.rule f.body
  depth : f.depth = d + 1
  rest : ∀ x ∈ f.rest, s.Holds x

theorem LoopFrame.Of.holds_body {f : LoopFrame} {s : Step} {d : Nat} (h : f.Of s d) :
    ∀ x ∈ f.body, s.Holds x := by
  intro x hx
  rw [h.step]
  exact ⟨f.body, by simp [Step.children], hx⟩

namespace Env

variable {env : Env}

/-- The branch that is taken is one of the lists that the conditional holds. -/
theorem mem_children_of_selectBranch {head : Head} {condition : String}
    {ifSteps elseSteps : Option (List Step)} {cases : Option (List (String × List Step))}
    {defaultSteps : Option (List Step)} {c : Context} {name : String} {steps : List Step}
    (h : env.selectBranch head.id condition ifSteps elseSteps cases defaultSteps c =
      .ok (some (name, steps))) :
    steps ∈ (Step.conditional head condition ifSteps elseSteps cases defaultSteps).children := by
  unfold selectBranch at h
  simp only [Step.children, List.mem_append, Option.mem_toList]
  -- By value, one of the cases or the default is taken; by truth, one of the two lists.
  cases cases with
  | some cases =>
    cases hv : (Template.evaluate env.engine condition c.toJson).mapError
      (expressionError head.id) with
    | error e => simp [hv, bind, Except.bind] at h
    | ok v =>
      simp only [hv, bind, Except.bind] at h
      split at h
      next steps' hl =>
        obtain ⟨rfl, rfl⟩ : v.display = name ∧ steps' = steps := by
          simpa [pure, Except.pure] using h
        obtain ⟨l, r, hlr, -⟩ := List.lookup_eq_some_iff.mp hl
        exact .inl (.inr (by simp [hlr]))
      next =>
        cases defaultSteps with
        | none => cases h
        | some d =>
          obtain ⟨-, rfl⟩ : "default" = name ∧ d = steps := by simpa [pure, Except.pure] using h
          exact .inr rfl
  | none =>
    cases hv : env.condition head.id condition c with
    | error e => simp [hv, bind, Except.bind] at h
    | ok holds =>
      simp only [hv, bind, Except.bind, pure, Except.pure] at h
      cases holds <;> cases ifSteps <;> cases elseSteps <;> simp_all

end Env

namespace Task

/-! ### The steps around -/

/-- The steps that frames tell of, the innermost first. -/
def stepsOf (fs : List Frame) : List Step := fs.filterMap Frame.step?

@[simp] theorem stepsOf_nil : stepsOf [] = [] := rfl

@[simp] theorem stepsOf_finish (s : Step) (d : Nat) (fs : List Frame) :
    stepsOf (.finish s d :: fs) = s :: stepsOf fs := rfl

@[simp] theorem stepsOf_branch (f : BranchFrame) (fs : List Frame) :
    stepsOf (.branch f :: fs) = stepsOf fs := rfl

@[simp] theorem stepsOf_loop (f : LoopFrame) (fs : List Frame) :
    stepsOf (.loop f :: fs) = stepsOf fs := rfl

/-- The steps around the thread at a path, the innermost first. -/
def around : List Nat → Task → List Step
  | i :: path, .mk _ (.joining b) fs =>
    match b.workers[i]? with
    | some (.running _ t) => around path t ++ stepsOf fs
    | _ => stepsOf fs
  | _, t => stepsOf t.frames

@[simp] theorem around_nil (t : Task) : around [] t = stepsOf t.frames := by
  rw [around]
  rintro _ _ _ _ _ ⟨⟩

theorem around_cons {i : Nat} {path : List Nat} {c : Context} {b : Block Task} {fs : List Frame}
    {index : Nat} {t : Task} (hi : b.workers[i]? = some (.running index t)) :
    around (i :: path) (.mk c (.joining b) fs) = around path t ++ stepsOf fs := by
  rw [around, hi]

/-! ### Placed tasks -/

/-- **Frames in which a step may begin** at a depth when the tree of a step is run: the step is that
step itself, or the frames are those of steps that hold one another. -/
inductive Hosts (root : Step) (d₀ : Nat) : Step → Nat → List Frame → Prop where
  | root : Hosts root d₀ root d₀ []
  | branch {p s f d fs} (h : Hosts root d₀ p d fs) (hf : BranchFrame.Of f p d) (hs : p.Holds s) :
      Hosts root d₀ s f.depth (.branch f :: .finish p d :: fs)
  | loop {p s f d fs} (h : Hosts root d₀ p d fs) (hf : LoopFrame.Of f p d) (hs : p.Holds s) :
      Hosts root d₀ s f.depth (.loop f :: .finish p d :: fs)

/-- **A task that runs the tree of a step** at a depth: what it does fits its frames, and the tasks
of its workers run the steps that these have taken. -/
inductive Placed : Step → Nat → Task → Prop where
  | enter {root d₀ c s d fs} (h : Hosts root d₀ s d fs) : Placed root d₀ (.mk c (.enter s d) fs)
  | calling {root d₀ c head leaf d fs} (h : Hosts root d₀ (.simple head leaf) d fs) :
      Placed root d₀ (.mk c (.calling head leaf d) (.finish (.simple head leaf) d :: fs))
  | joining {root d₀ c rule d fs} {b : Block Task}
      (h : Hosts root d₀ (.parallel b.head rule b.body) d fs) (hd : b.depth = d + 1)
      (hb : ∀ (i index : Nat) (t : Task), b.workers[i]? = some (.running index t) →
        ∃ s, b.body[index]? = some s)
      (hw : ∀ (i index : Nat) (t : Task) (s : Step), b.workers[i]? = some (.running index t) →
        b.body[index]? = some s → Placed s b.depth t) :
      Placed root d₀ (.mk c (.joining b) (.finish (.parallel b.head rule b.body) d :: fs))
  | branch {root d₀ p c f d fs} (h : Hosts root d₀ p d fs) (hf : BranchFrame.Of f p d) :
      Placed root d₀ (.mk c .proceed (.branch f :: .finish p d :: fs))
  | loop {root d₀ p c f d fs} (h : Hosts root d₀ p d fs) (hf : LoopFrame.Of f p d) :
      Placed root d₀ (.mk c .proceed (.loop f :: .finish p d :: fs))
  | iterate {root d₀ p c f d fs} (h : Hosts root d₀ p d fs) (hf : LoopFrame.Of f p d) :
      Placed root d₀ (.mk c .iterate (.loop f :: .finish p d :: fs))
  /-- The outcome of a step is about to be told. -/
  | ended {root d₀ s c o d fs} (h : Hosts root d₀ s d fs)
      (ho : ∀ e, o = .ok (.recovered e) → s.Recovers) :
      Placed root d₀ (.mk c (.settled o) (.finish s d :: fs))
  /-- The outcome of a step has been told. -/
  | returned {root d₀ s c o d fs} (h : Hosts root d₀ s d fs) :
      Placed root d₀ (.mk c (.settled o) fs)

theorem Placed.start (s : Step) (c : Context) (d : Nat) : Placed s d (start s c d) :=
  .enter .root

/-- A loop that ends is over. -/
theorem Placed.leaveLoop {root s : Step} {c : Context} {f : LoopFrame}
    {result : Except StepError (Nat × LoopExit)} {d₀ d : Nat} {fs : List Frame}
    (h : Hosts root d₀ s d fs) : Placed root d₀ (leaveLoop c f result (.finish s d :: fs)) := by
  refine .ended h fun e he => ?_
  cases result <;> cases he

theorem Block.outcome_ne_recovered (b : Block Task) (e : StepError) :
    b.outcome ≠ .ok (.recovered e) := by
  unfold Block.outcome
  split
  · rintro ⟨⟩
  · split <;> rintro ⟨⟩

/-! ### Motions keep tasks placed -/

variable {env : Env} {m : Moment}

theorem Placed.enter_placed {root s : Step} {d₀ d : Nat} {fs : List Frame}
    (h : Hosts root d₀ s d fs) (c : Context) : Placed root d₀ (Task.enter env m c s d fs).1 := by
  -- By how the step begins: its frame stands on those of the steps around.
  have he := enters_enter env m c s d fs
  generalize Task.enter env m c s d fs = p at he ⊢
  cases he with
  | cancelled => exact .ended h fun e he => by cases he
  | simple hs => subst hs; exact .calling h
  | failed => exact .ended h fun e he => by cases he
  | skipped => exact .ended h fun e he => by cases he
  | branch hs hb =>
    refine .branch h ⟨⟨_, _, _, _, _, hs⟩, rfl, fun x hx => ⟨_, ?_, hx⟩⟩
    rw [hs]
    exact Env.mem_children_of_selectBranch hb
  | loop hs => exact .iterate h ⟨hs, rfl, fun x hx => by cases hx⟩
  | empty => exact .ended h fun e he => by cases he
  | parallel hs =>
    subst hs
    -- no worker runs a step yet
    have hi : ∀ {n i index : Nat} {t : Task},
        (List.replicate n (Worker.idle (τ := Task)))[i]? ≠ some (.running index t) := by
      intro n i index t hi
      cases List.eq_of_mem_replicate (List.mem_of_getElem? hi)
    exact .joining h rfl (fun _ _ _ h => absurd h hi) fun _ _ _ _ h => absurd h hi

/-- A task that moves by itself stays placed. -/
theorem Placed.advance {root : Step} {d₀ : Nat} {t t' : Task} {e : Effect} (ht : Placed root d₀ t)
    (h : t.advance env m = some (t', e)) : Placed root d₀ t' := by
  -- By what the task does next; the frames are those around the step that is run.
  cases ht with
  | @enter _ _ c s d fs hs =>
    obtain rfl : (Task.enter env m c s d fs).1 = t' := congrArg Prod.fst (Option.some.inj h)
    exact .enter_placed hs c
  | calling hs => cases h
  | joining hs =>
    simp only [Task.advance] at h
    split at h
    · cases h
      -- the outcome of a parallel step is no recovered failure
      exact .ended hs fun e he => absurd he (Block.outcome_ne_recovered _ e)
    · cases h
  | @branch _ _ p c f d fs hs hf =>
    obtain rfl : proceedBranch m c f (.finish p d :: fs) = t' :=
      congrArg Prod.fst (Option.some.inj h)
    rcases proceedBranch_cases m c f (.finish p d :: fs) with
      ⟨-, he⟩ | ⟨-, he⟩ | ⟨s, rest, hr, -, he⟩ <;> rw [he]
    · exact .ended hs fun e he => by cases he
    · exact .ended hs fun e he => by cases he
    · exact .enter (.branch (f := { f with rest }) hs
        ⟨hf.step, hf.depth, fun x hx => hf.rest x (by simp [hr, hx])⟩ (hf.rest s (by simp [hr])))
  | @loop _ _ p c f d fs hs hf =>
    obtain rfl : proceedLoop env m c f (.finish p d :: fs) = t' :=
      congrArg Prod.fst (Option.some.inj h)
    rcases proceedLoop_cases env m c f (.finish p d :: fs) with
      ⟨result, he⟩ | he | ⟨s, rest, hr, -, he⟩ <;> rw [he]
    · exact .leaveLoop hs
    · exact .iterate hs hf
    · exact .enter (.loop (f := { f with rest }) hs
        ⟨hf.step, hf.depth, fun x hx => hf.rest x (by simp [hr, hx])⟩ (hf.rest s (by simp [hr])))
  | @iterate _ _ p c f d fs hs hf =>
    obtain rfl : Task.iterate env m c f (.finish p d :: fs) = t' :=
      congrArg Prod.fst (Option.some.inj h)
    rcases iterate_cases env m c f (.finish p d :: fs) with
      ⟨result, he⟩ | ⟨result, he⟩ | ⟨-, he⟩ <;> rw [he]
    · exact .leaveLoop hs
    · exact .leaveLoop hs
    · exact .loop hs ⟨hf.step, hf.depth, hf.holds_body⟩
  | ended hs ho =>
    cases h
    exact .returned hs
  | @returned _ _ s c o d fs hs =>
    cases hs with
    | root => cases h
    | @branch p s f d fs hs hf =>
      obtain rfl : returnToBranch c f o (.finish p d :: fs) = t' :=
        congrArg Prod.fst (Option.some.inj h)
      rcases returnToBranch_cases c f o (.finish p d :: fs) with
        ⟨-, he⟩ | ⟨e, -, he⟩ | ⟨e, -, -, -, he⟩ <;> rw [he]
      · exact .branch hs hf
      · exact .ended hs fun e he => by cases he
      · exact .ended hs fun e he => by cases he
    | @loop p s f d fs hs hf =>
      obtain rfl : returnToLoop c f o (.finish p d :: fs) = t' :=
        congrArg Prod.fst (Option.some.inj h)
      rcases returnToLoop_cases c f o (.finish p d :: fs) with
        ⟨-, he⟩ | ⟨e, -, he⟩ | ⟨e, -, -, -, he⟩ | ⟨e, -, -, -, he⟩ <;> rw [he]
      · exact .loop hs hf
      · exact .leaveLoop hs
      · exact .loop hs ⟨hf.step, hf.depth, hf.rest⟩
      · exact .leaveLoop hs

/-- The worker of a block that has changed, and the others. -/
theorem Block.workers_setWorker {b : Block Task} {i j : Nat} {v w : Worker Task}
    (h : (b.setWorker i w).workers[j]? = some v) : v = w ∨ b.workers[j]? = some v := by
  rw [Block.setWorker, List.getElem?_set] at h
  split at h
  · split at h
    · exact .inl (Option.some.inj h).symm
    · cases h
  · exact .inr h

theorem Block.getElem?_setWorker {b : Block Task} {i : Nat} {v : Worker Task}
    (h : b.workers[i]? = some v) (w : Worker Task) : (b.setWorker i w).workers[i]? = some w := by
  rw [Block.setWorker, List.getElem?_set_self (List.getElem?_eq_some_iff.mp h).1]

/-- An element of a list that has changed can be set back. -/
theorem set_set_of_getElem? {α : Type} {l : List α} {i : Nat} {x : α} (h : l[i]? = some x) (y : α) :
    (l.set i y).set i x = l := by
  rw [List.set_set, (List.getElem?_eq_some_iff.mp h).2.symm, List.set_getElem_self]

theorem Block.mem_inOrder {b : Block Task} {f : Finished} : f ∈ b.inOrder ↔ f ∈ b.finished :=
  List.mem_mergeSort

/-- A parallel step stays placed when a worker changes into one whose task is placed. -/
theorem Placed.setWorker {root : Step} {c : Context} {rule : ParallelRule} {d₀ d : Nat}
    {fs : List Frame} {b b' : Block Task} {i : Nat} {w : Worker Task}
    (h : Hosts root d₀ (.parallel b.head rule b.body) d fs) (hd : b.depth = d + 1)
    (hb : ∀ (i index : Nat) (t : Task), b.workers[i]? = some (.running index t) →
      ∃ s, b.body[index]? = some s)
    (hw : ∀ (i index : Nat) (t : Task) (s : Step), b.workers[i]? = some (.running index t) →
      b.body[index]? = some s → Placed s b.depth t)
    (hhead : b'.head = b.head) (hbody : b'.body = b.body) (hdepth : b'.depth = b.depth)
    (hworkers : b'.workers = (b.setWorker i w).workers)
    (hn : ∀ index t, w = .running index t → ∃ s, b.body[index]? = some s ∧ Placed s b.depth t) :
    Placed root d₀ (.mk c (.joining b') (.finish (.parallel b.head rule b.body) d :: fs)) := by
  -- The steps that workers run are those of the list, for the changed worker as for the others.
  rw [← hhead, ← hbody] at h ⊢
  refine .joining h (hdepth.trans hd) (fun j index t hj => ?_) fun j index t s hj hs => ?_
  · rw [hworkers] at hj
    rw [hbody]
    rcases Block.workers_setWorker hj with he | hj
    · obtain ⟨s, hs, -⟩ := hn index t he.symm
      exact ⟨s, hs⟩
    · exact hb j index t hj
  · rw [hworkers] at hj
    rw [hbody] at hs
    rw [hdepth]
    rcases Block.workers_setWorker hj with he | hj
    · obtain ⟨s', hs', ht⟩ := hn index t he.symm
      rw [hs] at hs'
      cases hs'
      exact ht
    · exact hw j index t s hj hs

/-- **Motions keep tasks placed.** -/
theorem Placed.moves {root : Step} {d₀ : Nat} {path : List Nat} {t t' : Task} {e : Effect}
    (ht : Placed root d₀ t) (h : Moves env m path t t' e) : Placed root d₀ t' := by
  -- Only a worker that takes a step or whose task moves runs something else than before.
  induction h generalizing root d₀ with
  | here h => exact ht.advance h
  | @stop i path c fs b hi hs =>
    cases ht with
    | joining h hd hb hw => exact .setWorker h hd hb hw rfl rfl rfl rfl fun _ _ he => by cases he
  | @skip i path c fs s b hi hs hm =>
    cases ht with
    | joining h hd hb hw => exact .setWorker h hd hb hw rfl rfl rfl rfl fun _ _ he => by cases he
  | @take i path c fs s b hi hs hm =>
    cases ht with
    | joining h hd hb hw =>
      refine .setWorker h hd hb hw rfl rfl rfl rfl fun index t he => ?_
      cases he
      exact ⟨s, hs, .start s c _⟩
  | @handIn i path c fs index t o b hi ho =>
    cases ht with
    | joining h hd hb hw => exact .setWorker h hd hb hw rfl rfl rfl rfl fun _ _ he => by cases he
  | @inner i path c fs index t t' e b hi ho _ ih =>
    cases ht with
    | joining h hd hb hw =>
      refine .setWorker h hd hb hw rfl rfl rfl rfl fun index t he => ?_
      cases he
      obtain ⟨s, hs⟩ := hb i _ _ hi
      exact ⟨s, hs, ih (hw i _ _ s hi hs)⟩

theorem leafOutcome_eq_recovered {head : Head} {r : Except StepError Json} {e : StepError}
    (h : leafOutcome head r = .ok (.recovered e)) : head.policy.continueOnError = true := by
  cases r with
  | ok v => cases h
  | error e' =>
    simp only [leafOutcome] at h
    split at h
    · cases h
    · split at h
      · assumption
      · cases h

/-- **Answers keep tasks placed.** -/
theorem Placed.answers {root : Step} {d₀ : Nat} {r : Except StepError Json} {path : List Nat}
    {t t' : Task} (ht : Placed root d₀ t) (h : Answers r path t t') : Placed root d₀ t' := by
  -- As for motions, along the path of the thread.
  induction h generalizing root d₀ with
  | here =>
    cases ht with
    | calling h => exact .ended h fun e he => ⟨_, _, rfl, leafOutcome_eq_recovered he⟩
  | @inner i path c fs index t t' b hi _ ih =>
    cases ht with
    | joining h hd hb hw =>
      refine .setWorker h hd hb hw rfl rfl rfl rfl fun index t he => ?_
      cases he
      obtain ⟨s, hs⟩ := hb i _ _ hi
      exact ⟨s, hs, ih (hw i _ _ s hi hs)⟩

/-! ### The steps around are a line of steps -/

theorem Hosts.lineage {root s : Step} {d₀ d : Nat} {fs : List Frame} (h : Hosts root d₀ s d fs) :
    Step.Lineage root (s :: stepsOf fs) ∧ d = d₀ + (stepsOf fs).length := by
  induction h with
  | root => exact ⟨.root, rfl⟩
  | branch _ hf hs ih => exact ⟨.child ih.1 hs, by rw [hf.depth, ih.2]; rfl⟩
  | loop _ hf hs ih => exact ⟨.child ih.1 hs, by rw [hf.depth, ih.2]; rfl⟩

/-- **A step that is over stands on top of the steps around**, as many as its depth tells, and these
are a line of steps up to the one whose tree is run. -/
theorem Placed.lineage {root : Step} {d₀ : Nat} {path : List Nat} {t t' : Task} {s : Step}
    {d ms : Nat} {o : Outcome} (ht : Placed root d₀ t)
    (h : Moves env m path t t' (.finished s d o ms)) :
    ∃ l, around path t = s :: l ∧ Step.Lineage root (s :: l) ∧ d = d₀ + l.length := by
  generalize he : Effect.finished s d o ms = e at h
  -- Induction on the path: the steps around within a worker stand on those of the parallel step.
  induction h generalizing root d₀ with
  | @here t t' e h =>
    subst he
    obtain ⟨c, fs, rfl, -, -⟩ := advance_eq_finished h
    cases ht with
    | ended hs => exact ⟨_, around_nil _, hs.lineage⟩
    | returned hs => cases hs
  | stop => cases he
  | skip => cases he
  | take => cases he
  | handIn => cases he
  | @inner i path c fs index t t' e b hi ho _ ih =>
    cases ht with
    | @joining _ _ _ rule d' fs _ h hd hb hw =>
      obtain ⟨s', hs'⟩ := hb i _ _ hi
      obtain ⟨l, hl, hc, hlen⟩ := ih (hw i _ _ s' hi hs') he
      obtain ⟨hc', hd'⟩ := h.lineage
      refine ⟨l ++ stepsOf (.finish (.parallel b.head rule b.body) d' :: fs), ?_, ?_, ?_⟩
      · rw [around_cons hi, hl, List.cons_append]
      · rw [← List.cons_append, stepsOf_finish]
        exact hc.append hc' ⟨b.body, by simp [Step.children], List.mem_of_getElem? hs'⟩
      · rw [hlen, hd, hd', List.length_append, stepsOf_finish, List.length_cons]
        omega

/-! ### Threads -/

/-- **A task that is not over can go on**: one of its threads moves or waits for an answer. -/
theorem Placed.exists_thread {root : Step} {d₀ : Nat} {t : Task} (ht : Placed root d₀ t)
    (env : Env) (ho : t.outcome? = none) :
    ∃ path, (∀ m, (advanceAt env m path t).isSome = true) ∨ (callAt? path t).isSome = true := by
  -- Induction on the tree: a parallel step goes on with a worker that has not stopped.
  induction ht with
  | enter => exact ⟨[], .inl fun _ => rfl⟩
  | calling => exact ⟨[], .inr rfl⟩
  | @joining root d₀ c rule d fs b h hd hb hw ih =>
    cases hover : b.isOver with
    | true => exact ⟨[], .inl fun m => by simp [advanceAt, Task.advance, hover]⟩
    | false =>
    obtain ⟨w, hmem, hw'⟩ := List.all_eq_false.mp hover
    obtain ⟨i, hi⟩ := List.getElem?_of_mem hmem
    cases w with
    | stopped => exact absurd rfl hw'
    | idle => exact ⟨[i], .inl fun m => by simp [advanceAt, advanceWorker, hi]⟩
    | running index t =>
      cases hto : t.outcome? with
      | some o => exact ⟨[i], .inl fun m => by simp [advanceAt, advanceWorker, hi, hto]⟩
      | none =>
        obtain ⟨s, hs⟩ := hb i index t hi
        obtain ⟨path, hp⟩ := ih i index t s hi hs hto
        refine ⟨i :: path, hp.imp (fun hp m => ?_) fun hp => ?_⟩
        · simpa [advanceAt, advanceWorker, hi, hto] using hp m
        · simpa [hi] using hp
  | branch => exact ⟨[], .inl fun _ => rfl⟩
  | loop => exact ⟨[], .inl fun _ => rfl⟩
  | iterate => exact ⟨[], .inl fun _ => rfl⟩
  | ended => exact ⟨[], .inl fun _ => rfl⟩
  | returned h =>
    cases h with
    | root => cases ho
    | branch => exact ⟨[], .inl fun _ => rfl⟩
    | loop => exact ⟨[], .inl fun _ => rfl⟩

/-- A simple step that waits can be answered. -/
theorem exists_answers_of_callAt? {path : List Nat} {t : Task}
    {x : Head × Leaf × Nat × Context} (h : t.callAt? path = some x) (r : Except StepError Json) :
    ∃ t', t.answerAt r path = some t' := by
  induction path generalizing t with
  | nil =>
    obtain ⟨c, control, fs⟩ := t
    cases control with
    | calling => exact ⟨_, rfl⟩
    | _ => cases h
  | cons i path ih =>
    obtain ⟨c, control, fs⟩ := t
    cases control with
    | joining b =>
      rw [callAt?_cons_joining] at h
      split at h
      next index t hi =>
        obtain ⟨t', ht'⟩ := ih h
        exact ⟨_, by rw [answerAt, hi]; exact congrArg (Option.map _) ht'⟩
      next => cases h
    | _ => cases h

/-- A parallel step with a worker that runs is not over. -/
theorem Block.isOver_eq_false {b : Block Task} {i index : Nat} {t : Task}
    (hi : b.workers[i]? = some (.running index t)) : b.isOver = false :=
  List.all_eq_false.mpr ⟨_, List.mem_of_getElem? hi, by simp⟩

/-- A task that moves by itself waits for no answer, nor does a task within it. -/
theorem callAt?_of_advance {path : List Nat} {t t' : Task} {e : Effect}
    (h : t.advance env m = some (t', e)) : callAt? path t = none := by
  obtain ⟨c, control, fs⟩ := t
  cases path with
  | nil =>
    cases control with
    | calling => cases h
    | _ => rfl
  | cons i path =>
    cases control with
    | joining b =>
      rw [callAt?_cons_joining]
      split
      next index t hi => simp [Task.advance, Block.isOver_eq_false hi] at h
      next => rfl
    | _ => rfl

/-- A task that is over waits for no answer. -/
theorem callAt?_of_outcome? {path : List Nat} {t : Task} {o : Outcome} (h : t.outcome? = some o) :
    callAt? path t = none := by
  obtain ⟨c, control, fs⟩ := t
  cases control with
  | settled o =>
    cases path with
    | nil => rfl
    | cons i path => rfl
  | _ => cases h

/-- The task of a thread that waits for an answer. -/
theorem exists_at?_of_callAt? {path : List Nat} {t : Task} {head : Head} {leaf : Leaf} {d : Nat}
    {c : Context} (h : callAt? path t = some (head, leaf, d, c)) :
    ∃ fs, at? path t = some (.mk c (.calling head leaf d) fs) := by
  unfold callAt? at h
  split at h
  next hu =>
    cases h
    exact ⟨_, hu⟩
  next => cases h

/-- A thread that moves by itself waits for no answer. -/
theorem Moves.callAt?_eq_none {path : List Nat} {t t' : Task} {e : Effect}
    (h : Moves env m path t t' e) : callAt? path t = none := by
  induction h with
  | here h => exact callAt?_of_advance h
  | stop hi | skip hi | take hi => simp [hi]
  | handIn hi ho => simpa [hi] using callAt?_of_outcome? ho
  | inner hi _ _ ih => simpa [hi] using ih

/-- A worker that changes leaves the simple steps alone that its own task does not wait for. -/
theorem callAt?_setWorker {path : List Nat} {c : Context} {fs : List Frame} {b b' : Block Task}
    {i : Nat} {w : Worker Task} {x : Head × Leaf × Nat × Context}
    (hc : callAt? path (.mk c (.joining b) fs) = some x)
    (hb : b'.workers = (b.setWorker i w).workers)
    (hw : ∀ path' index t, path = i :: path' → b.workers[i]? = some (.running index t) →
      callAt? path' t = some x → ∃ index' t', w = .running index' t' ∧ callAt? path' t' = some x) :
    callAt? path (.mk c (.joining b') fs) = some x := by
  cases path with
  | nil => cases hc
  | cons j path =>
    rw [callAt?_cons_joining] at hc ⊢
    rw [hb, Block.setWorker, List.getElem?_set]
    -- the path leads to the changed worker, or to another one
    by_cases hij : i = j
    · subst hij
      split at hc
      next index t hi =>
        obtain ⟨index', t', rfl, ht'⟩ := hw path index t rfl hi hc
        simpa [(List.getElem?_eq_some_iff.mp hi).1] using ht'
      next => cases hc
    · rwa [if_neg hij]

/-- **Threads leave each other's simple steps alone.** -/
theorem Moves.callAt?_eq {path path' : List Nat} {t t' : Task} {e : Effect}
    {x : Head × Leaf × Nat × Context} (h : Moves env m path t t' e)
    (hc : callAt? path' t = some x) : callAt? path' t' = some x := by
  -- Only the changed worker matters, and its own motion does not meet another thread.
  induction h generalizing path' with
  | here h => rw [callAt?_of_advance h] at hc; cases hc
  | stop hi | skip hi | take hi =>
    refine callAt?_setWorker hc rfl fun _ _ _ _ hi' => ?_
    rw [hi] at hi'
    cases hi'
  | handIn hi ho =>
    refine callAt?_setWorker hc rfl fun path' index t _ hi' ht => ?_
    rw [hi] at hi'
    cases hi'
    rw [callAt?_of_outcome? ho] at ht
    cases ht
  | inner hi _ _ ih =>
    refine callAt?_setWorker hc rfl fun path' index t _ hi' ht => ?_
    rw [hi] at hi'
    cases hi'
    exact ⟨_, _, rfl, ih ht⟩

/-- An answer leaves the simple steps alone that other threads wait for. -/
theorem Answers.callAt?_eq {r : Except StepError Json} {path path' : List Nat} {t t' : Task}
    {x : Head × Leaf × Nat × Context} (h : Answers r path t t') (hp : path' ≠ path)
    (hc : callAt? path' t = some x) : callAt? path' t' = some x := by
  induction h generalizing path' with
  | here =>
    cases path' with
    | nil => exact absurd rfl hp
    | cons i path' => cases hc
  | inner hi _ ih =>
    refine callAt?_setWorker hc rfl fun path'' index t he hi' ht => ?_
    rw [hi] at hi'
    cases hi'
    exact ⟨_, _, rfl, ih (fun h => hp (by rw [he, h])) ht⟩

/-! ### The end -/

/-- A task that is over does not move. -/
theorem not_moves_of_outcome? {path : List Nat} {t t' : Task} {e : Effect} {o : Outcome}
    (ho : t.outcome? = some o) : ¬ Moves env m path t t' e := by
  obtain ⟨c, control, fs⟩ := t
  intro h
  cases control with
  | settled o' =>
    cases fs with
    | nil =>
      cases h with
      | here h => cases h
    | cons f fs => cases ho
  | _ => cases ho

/-- Nor is it answered. -/
theorem not_answers_of_outcome? {r : Except StepError Json} {path : List Nat} {t t' : Task}
    {o : Outcome} (ho : t.outcome? = some o) : ¬ Answers r path t t' := by
  intro h
  cases h <;> cases ho

/-- An answer does not end the step that is run, which is told of first. -/
theorem Placed.outcome?_of_answers {root : Step} {d₀ : Nat} {r : Except StepError Json}
    {path : List Nat} {t t' : Task} (ht : Placed root d₀ t) (h : Answers r path t t') :
    t'.outcome? = none := by
  cases h with
  | here => cases ht with | calling => rfl
  | inner => rfl

/-- **The step that is run ends when it is told of.** -/
theorem Placed.eq_finished {root : Step} {d₀ : Nat} {path : List Nat} {t t' : Task} {e : Effect}
    {o : Outcome} (ht : Placed root d₀ t) (h : Moves env m path t t' e)
    (ho : t'.outcome? = some o) :
    path = [] ∧ around path t = [root] ∧ e = .finished root d₀ o m.elapsedMs := by
  -- Only when its own outcome is told of does a transition leave the task without frames.
  cases h with
  | here h =>
    -- the task was about to be told of, with no other frame left
    suffices hs : ∃ c, t = .mk c (.settled o) [.finish root d₀] by
      obtain ⟨c, rfl⟩ := hs
      cases h
      exact ⟨rfl, around_nil _, rfl⟩
    cases ht with
    | @enter _ _ c s d fs hs =>
      have he := enters_enter env m c s d fs
      obtain rfl : (Task.enter env m c s d fs).1 = t' := congrArg Prod.fst (Option.some.inj h)
      generalize Task.enter env m c s d fs = p at he ho
      cases he <;> cases ho
    | calling => cases h
    | joining hs =>
      simp only [Task.advance] at h
      split at h
      · cases h
        cases ho
      · cases h
    | @branch _ _ p c f d fs hs hf =>
      obtain rfl : proceedBranch m c f (.finish p d :: fs) = t' :=
        congrArg Prod.fst (Option.some.inj h)
      rcases proceedBranch_cases m c f (.finish p d :: fs) with
        ⟨-, he⟩ | ⟨-, he⟩ | ⟨s, rest, hr, -, he⟩ <;> rw [he] at ho <;> cases ho
    | @loop _ _ p c f d fs hs hf =>
      obtain rfl : proceedLoop env m c f (.finish p d :: fs) = t' :=
        congrArg Prod.fst (Option.some.inj h)
      rcases proceedLoop_cases env m c f (.finish p d :: fs) with
        ⟨result, he⟩ | he | ⟨s, rest, hr, -, he⟩ <;> rw [he] at ho <;> cases ho
    | @iterate _ _ p c f d fs hs hf =>
      obtain rfl : Task.iterate env m c f (.finish p d :: fs) = t' :=
        congrArg Prod.fst (Option.some.inj h)
      rcases iterate_cases env m c f (.finish p d :: fs) with
        ⟨result, he⟩ | ⟨result, he⟩ | ⟨-, he⟩ <;> rw [he] at ho <;> cases ho
    | @ended _ _ s c o' d fs hs =>
      cases h
      cases hs with
      | root => cases ho; exact ⟨c, rfl⟩
      | branch => cases ho
      | loop => cases ho
    | @returned _ _ s c o' d fs hs =>
      cases hs with
      | root => cases h
      | @branch p s f d fs hs hf =>
        obtain rfl : returnToBranch c f o' (.finish p d :: fs) = t' :=
          congrArg Prod.fst (Option.some.inj h)
        rcases returnToBranch_cases c f o' (.finish p d :: fs) with
          ⟨-, he⟩ | ⟨e, -, he⟩ | ⟨e, -, -, -, he⟩ <;> rw [he] at ho <;> cases ho
      | @loop p s f d fs hs hf =>
        obtain rfl : returnToLoop c f o' (.finish p d :: fs) = t' :=
          congrArg Prod.fst (Option.some.inj h)
        rcases returnToLoop_cases c f o' (.finish p d :: fs) with
          ⟨-, he⟩ | ⟨e, -, he⟩ | ⟨e, -, -, -, he⟩ | ⟨e, -, -, -, he⟩ <;> rw [he] at ho <;> cases ho
  | _ => cases ho

/-- **A step that is over has left its duration in its last result**, unless it was cancelled. -/
theorem Placed.lastDurationMs_eq {root : Step} {d₀ : Nat} {path : List Nat} {t t' : Task}
    {e : Effect} {o : Outcome} (ht : Placed root d₀ t) (h : Moves env m path t t' e)
    (ho : t'.outcome? = some o) (hc : o.isCancelled = false) :
    t'.context.lastDurationMs = m.elapsedMs := by
  obtain ⟨rfl, -, rfl⟩ := ht.eq_finished h ho
  cases h with
  | here h =>
    obtain ⟨c, fs, rfl, rfl, -⟩ := advance_eq_finished h
    simp [finish, context, hc]

/-- **What is told of at the depth of the step that is run** is that step, which ends then. -/
theorem Placed.outcome?_of_finished {root s : Step} {d₀ ms : Nat} {path : List Nat} {t t' : Task}
    {o : Outcome} (ht : Placed root d₀ t) (h : Moves env m path t t' (.finished s d₀ o ms)) :
    s = root ∧ t'.outcome? = some o := by
  obtain ⟨l, hl, hlin, hd⟩ := ht.lineage h
  obtain rfl : l = [] := List.length_eq_zero_iff.mp (by omega)
  refine ⟨by cases hlin; rfl, ?_⟩
  generalize he : Effect.finished s d₀ o ms = e at h
  cases h with
  | here h =>
    subst he
    obtain ⟨c, fs, rfl, rfl, -⟩ := advance_eq_finished h
    -- no frame is left below that of the step
    have hfs : fs = [] := by
      rw [around_nil] at hl
      cases ht with
      | ended hs =>
        cases hs with
        | root => rfl
        | branch => cases hl
        | loop => cases hl
      | returned hs => cases hs
    rw [hfs]
    rfl
  | @inner i path c fs index t t' _ b hi _ h =>
    subst he
    -- a step within a parallel step is deeper
    cases ht with
    | joining hh hbd hb hw =>
      obtain ⟨s', hs'⟩ := hb i _ _ hi
      obtain ⟨l, -, -, hlen⟩ := (hw i _ _ s' hi hs').lineage h
      have hd' := hh.lineage.2
      omega
  | _ => cases he

end Task

end WorkflowEngine
