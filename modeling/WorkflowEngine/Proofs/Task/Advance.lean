import WorkflowEngine.Proofs.Task.Account

/-!
# What tasks become by themselves

A task that moves by itself begins a step, goes on with a list, or comes to an outcome. The last it
does only with what the step may end with, which depends on the type of the step; and the lists that
it goes on with are what is left of the lists that the steps around hold.

What tasks have in the beginning, and keep when they move by themselves or are answered, holds of
all tasks of a tree at any time.

## Main definitions

* `Frame.rest?`: what is left of the list of a frame
* `Step.EndsWith`: one of the lists that a step holds ends with certain steps
* `Step.MayEnd`: what a step may end with
* `Task.Advances`: what a task becomes when it moves by itself
* `Task.IsKept`: a property of tasks that their motions keep

## Main results

* `Task.Placed.advances`: tasks that fit the tree of a step become that
* `Task.IsKept.moves`, `Task.IsKept.answers`: what motions keep holds throughout the tree of tasks
-/

namespace WorkflowEngine

/-- A step begins. -/
def Control.isEntry {τ : Type} : Control τ → Bool
  | .enter .. => true
  | _ => false

/-- A step has an outcome. -/
def Control.isSettled {τ : Type} : Control τ → Bool
  | .settled _ => true
  | _ => false

/-- The steps of a list go on. -/
def Control.isList {τ : Type} : Control τ → Bool
  | .proceed => true
  | .iterate => true
  | _ => false

theorem Control.isEntry_of_isList {τ : Type} {control : Control τ} (h : control.isList = true) :
    control.isEntry = false := by
  cases control <;> first | rfl | cases h

theorem Control.isSettled_of_isList {τ : Type} {control : Control τ} (h : control.isList = true) :
    control.isSettled = false := by
  cases control <;> first | rfl | cases h

/-- What is left of the list of a frame. -/
def Frame.rest? : Frame → Option (List Step)
  | .finish .. => none
  | .branch f => some f.rest
  | .loop f => some f.rest

namespace Step

variable {env : Env}

/-- **One of the lists that a step holds ends with these steps.** -/
def EndsWith (p : Step) (steps : List Step) : Prop := ∃ l ∈ p.children, steps <:+ l

theorem EndsWith.of_mem {p : Step} {l : List Step} (h : l ∈ p.children) : p.EndsWith l :=
  ⟨l, h, List.suffix_rfl⟩

theorem EndsWith.tail {p s : Step} {steps : List Step} (h : p.EndsWith (s :: steps)) :
    p.EndsWith steps := by
  obtain ⟨l, hl, hsuffix⟩ := h
  exact ⟨l, hl, (List.suffix_cons s steps).trans hsuffix⟩

/-- **What a step may end with**, by its type. -/
inductive MayEnd (env : Env) : Step → Outcome → Prop where
  | cancelled {s} : MayEnd env s (.error .cancelled)
  | answered {head leaf r} : MayEnd env (.simple head leaf) (Task.leafOutcome head r)
  | branch {head condition ifSteps elseSteps cases defaultSteps name executed} :
      MayEnd env (.conditional head condition ifSteps elseSteps cases defaultSteps)
        (.ok (.branch name executed none))
  /-- It cannot be decided which branch is taken. -/
  | undecided {head condition ifSteps elseSteps cases defaultSteps c e}
      (h : env.selectBranch head.id condition ifSteps elseSteps cases defaultSteps c = .error e) :
      MayEnd env (.conditional head condition ifSteps elseSteps cases defaultSteps) (.error e)
  /-- A step of the branch has failed. -/
  | failed {head condition ifSteps elseSteps cases defaultSteps e}
      (h : head.policy.continueOnError = false) :
      MayEnd env (.conditional head condition ifSteps elseSteps cases defaultSteps) (.error e)
  | masked {head condition ifSteps elseSteps cases defaultSteps name} {e : StepError}
      (h : head.policy.continueOnError = true) :
      MayEnd env (.conditional head condition ifSteps elseSteps cases defaultSteps)
        (.ok (.branch (some name) 0 (some e.message)))
  | loop {head rule body} {result : Except StepError (Nat × LoopExit)} :
      MayEnd env (.loop head rule body) (result.map fun (n, exit) => .loop n exit)
  | parallel {head rule body} {result : Except StepError Nat} :
      MayEnd env (.parallel head rule body) (result.map .parallel)

end Step

theorem LoopFrame.Of.body_mem {f : LoopFrame} {s : Step} {d : Nat} (h : f.Of s d) :
    f.body ∈ s.children := by
  rw [h.step, Step.children]
  exact List.mem_singleton_self _

/-- A parallel step ends with the number of its steps, or fails. -/
theorem Block.exists_outcome_eq (b : Block Task) :
    ∃ result : Except StepError Nat, b.outcome = result.map .parallel := by
  unfold Block.outcome
  split
  · exact ⟨.error .cancelled, rfl⟩
  · split
    · exact ⟨.ok b.completed, rfl⟩
    · exact ⟨.error _, rfl⟩

namespace Task

variable {env : Env} {m : Moment} {root : Step} {d₀ : Nat}

/-! ### What a task becomes -/

/-- **What a task becomes when it moves by itself.** -/
inductive Advances (env : Env) : Task → Task → Prop where
  /-- A step begins that has no list to go on with, or comes to an outcome at once. -/
  | enter {c s d fs} {control : Control Task} (hc : control.isEntry = false)
      (ho : ∀ o, control = .settled o → s.MayEnd env o) :
      Advances env (.mk c (.enter s d) fs) (.mk c control (.finish s d :: fs))
  /-- A step begins with one of its lists. -/
  | list {c s d fs f rest} {control : Control Task} (hc : control.isList = true)
      (hf : Frame.rest? f = some rest) (h : s.EndsWith rest) :
      Advances env (.mk c (.enter s d) fs) (.mk c control (f :: .finish s d :: fs))
  /-- The next step of a list begins. -/
  | next {c f f' s rest d' p d fs} (hf : Frame.rest? f = some (s :: rest))
      (hf' : Frame.rest? f' = some rest) :
      Advances env (.mk c .proceed (f :: .finish p d :: fs))
        (.mk c (.enter s d') (f' :: .finish p d :: fs))
  /-- A list goes on with what is left of it, or begins once more. -/
  | turn {c c' f f' rest rest' p d fs} {control control' : Control Task}
      (hc : control'.isList = true) (hf : Frame.rest? f = some rest)
      (hf' : Frame.rest? f' = some rest') (h : rest' = rest ∨ rest' ∈ p.children) :
      Advances env (.mk c control (f :: .finish p d :: fs))
        (.mk c' control' (f' :: .finish p d :: fs))
  /-- The step that holds a list comes to an outcome. -/
  | leave {c c' f rest p d fs o} {control : Control Task} (hf : Frame.rest? f = some rest)
      (ho : p.MayEnd env o) :
      Advances env (.mk c control (f :: .finish p d :: fs))
        (.mk c' (.settled o) (.finish p d :: fs))
  /-- A parallel step comes to an outcome. -/
  | join {c c' b s d fs o} (ho : s.MayEnd env o) :
      Advances env (.mk c (.joining b) (.finish s d :: fs))
        (.mk c' (.settled o) (.finish s d :: fs))
  /-- The outcome of a step is told. -/
  | tell {c c' o s d fs} :
      Advances env (.mk c (.settled o) (.finish s d :: fs)) (.mk c' (.settled o) fs)

/-- A step that begins. -/
theorem Enters.advances {c : Context} {s : Step} {d : Nat} {fs : List Frame} {t : Task} {e : Effect}
    (h : Enters env m c s d fs (t, e)) : Advances env (.mk c (.enter s d) fs) t := by
  cases h with
  | cancelled => exact .enter rfl (by rintro _ ⟨⟩; exact .cancelled)
  | simple | parallel => exact .enter rfl nofun
  | failed hs hb =>
    subst hs
    exact .enter rfl (by rintro _ ⟨⟩; exact .undecided hb)
  | skipped hs =>
    subst hs
    exact .enter rfl (by rintro _ ⟨⟩; exact .branch)
  | branch hs hb =>
    subst hs
    exact .list rfl rfl (.of_mem (Env.mem_children_of_selectBranch hb))
  | loop hs =>
    subst hs
    exact .list rfl rfl ⟨_, List.mem_singleton_self _, List.nil_suffix⟩
  | empty hs =>
    subst hs
    exact .enter rfl (by rintro _ ⟨⟩; exact @Step.MayEnd.parallel _ _ _ _ (.ok 0))

/-- **What tasks become that fit the tree of a step.** -/
theorem Placed.advances {t t' : Task} {e : Effect} (ht : Placed root d₀ t)
    (h : t.advance env m = some (t', e)) : Advances env t t' := by
  -- By what the task does next; the frame below a list is that of the step that holds it.
  cases ht with
  | @enter _ _ c s d fs =>
    have he := enters_enter env m c s d fs
    rw [show Task.enter env m c s d fs = (t', e) from Option.some.inj h] at he
    exact he.advances
  | calling => cases h
  | @joining _ _ c rule d fs b =>
    simp only [Task.advance] at h
    split at h
    · cases h
      obtain ⟨result, hr⟩ := b.exists_outcome_eq
      rw [hr]
      exact .join .parallel
    · cases h
  | @branch _ _ p c f d fs hs hf =>
    obtain ⟨_, _, _, _, _, rfl⟩ := hf.step
    obtain rfl : proceedBranch m c f (.finish _ d :: fs) = t' :=
      congrArg Prod.fst (Option.some.inj h)
    rcases proceedBranch_cases m c f (.finish _ d :: fs) with
      ⟨-, he⟩ | ⟨-, he⟩ | ⟨s, rest, hrest, -, he⟩ <;> rw [he]
    · exact .leave rfl .branch
    · exact .leave rfl .cancelled
    · exact .next (congrArg some hrest) rfl
  | @loop _ _ p c f d fs hs hf =>
    obtain rfl := hf.step
    obtain rfl : proceedLoop env m c f (.finish _ d :: fs) = t' :=
      congrArg Prod.fst (Option.some.inj h)
    rcases proceedLoop_cases env m c f (.finish _ d :: fs) with
      ⟨result, he⟩ | he | ⟨s, rest, hrest, -, he⟩ <;> rw [he]
    · exact .leave rfl .loop
    · exact .turn rfl rfl rfl (.inl rfl)
    · exact .next (congrArg some hrest) rfl
  | @iterate _ _ p c f d fs hs hf =>
    have hbody := hf.body_mem
    obtain rfl := hf.step
    obtain rfl : Task.iterate env m c f (.finish _ d :: fs) = t' :=
      congrArg Prod.fst (Option.some.inj h)
    rcases iterate_cases env m c f (.finish _ d :: fs) with
      ⟨result, he⟩ | ⟨result, he⟩ | ⟨-, he⟩ <;> rw [he]
    · exact .leave rfl .loop
    · exact .leave rfl .loop
    · exact .turn rfl rfl rfl (.inr hbody)
  | ended =>
    cases h
    exact .tell
  | @returned _ _ s c o d fs hs =>
    cases hs with
    | root => cases h
    | @branch p s f d fs hs hf =>
      obtain ⟨_, _, _, _, _, rfl⟩ := hf.step
      obtain rfl : returnToBranch c f o (.finish _ d :: fs) = t' :=
        congrArg Prod.fst (Option.some.inj h)
      cases o with
      | ok v => exact .turn rfl rfl rfl (.inl rfl)
      | error e =>
        unfold returnToBranch
        dsimp only
        split
        · exact .leave rfl .cancelled
        · split
          next hp => exact .leave rfl (.masked hp)
          next hp => exact .leave rfl (.failed (by simpa using hp))
    | @loop p s f d fs hs hf =>
      obtain rfl := hf.step
      obtain rfl : returnToLoop c f o (.finish _ d :: fs) = t' :=
        congrArg Prod.fst (Option.some.inj h)
      rcases returnToLoop_cases c f o (.finish _ d :: fs) with
        ⟨-, he⟩ | ⟨e, -, he⟩ | ⟨e, -, -, -, he⟩ | ⟨e, -, -, -, he⟩ <;> rw [he]
      · exact .turn rfl rfl rfl (.inl rfl)
      · exact .leave rfl .loop
      · exact .turn rfl rfl rfl (.inl rfl)
      · exact .leave rfl .loop

/-! ### What motions keep -/

/-- **A property of tasks that their motions keep**: tasks have it in the beginning, keep it when
they move by themselves or are answered, and have it whatever becomes of the workers that they wait
for. -/
structure IsKept (env : Env) (P : Task → Prop) : Prop where
  start : ∀ s c d, P (start s c d)
  joining : ∀ {c b fs} (b'), P (.mk c (.joining b) fs) → P (.mk c (.joining b') fs)
  advance : ∀ {root d₀ t t'}, Placed root d₀ t → P t → Advances env t t' → P t'
  answer : ∀ {root d₀ c head leaf d fs} (r), Placed root d₀ (.mk c (.calling head leaf d) fs) →
    P (.mk c (.calling head leaf d) fs) → P (.mk c (.settled (leafOutcome head r)) fs)

namespace IsKept

variable {P : Task → Prop}

theorem throughout_start (hP : IsKept env P) (s : Step) (c : Context) (d : Nat) :
    Throughout P (Task.start s c d) :=
  .alone (hP.start s c d) fun _ _ => rfl

/-- **What motions keep holds throughout the tree of tasks.** -/
theorem moves (hP : IsKept env P) {path : List Nat} {t t' : Task} {e : Effect}
    (ht : Placed root d₀ t) (hr : Throughout P t) (h : Moves env m path t t' e) :
    Throughout P t' := by
  induction h generalizing root d₀ with
  | here h => exact .alone (hP.advance ht hr.here (ht.advances h)) (advance_becomes h).2
  | stop | skip | handIn => exact hr.setWorker rfl (hP.joining _ hr.here) nofun
  | take =>
    refine hr.setWorker rfl (hP.joining _ hr.here) fun index t he => ?_
    cases he
    exact hP.throughout_start _ _ _
  | @inner i path c fs index t t' e b hi _ _ ih =>
    cases ht with
    | joining hs hd hb hw =>
      obtain ⟨s, hx⟩ := hb _ _ _ hi
      refine hr.setWorker rfl (hP.joining _ hr.here) fun index t he => ?_
      cases he
      exact ih (hw _ _ _ s hi hx) (hr.worker hi)

theorem answers (hP : IsKept env P) {r : Except StepError Json} {path : List Nat} {t t' : Task}
    (ht : Placed root d₀ t) (hr : Throughout P t) (h : Answers r path t t') :
    Throughout P t' := by
  induction h generalizing root d₀ with
  | here => exact .alone (hP.answer r ht hr.here) fun _ _ => rfl
  | @inner i path c fs index t t' b hi _ ih =>
    cases ht with
    | joining hs hd hb hw =>
      obtain ⟨s, hx⟩ := hb _ _ _ hi
      refine hr.setWorker rfl (hP.joining _ hr.here) fun index t he => ?_
      cases he
      exact ih (hw _ _ _ s hi hx) (hr.worker hi)

end IsKept

end Task

end WorkflowEngine
