import WorkflowEngine.Proofs.Run.Between
import WorkflowEngine.Proofs.Run.Leaf
import WorkflowEngine.Proofs.Task.Failure

/-!
# Failures that do not count

No failure is swallowed: a run that is completed has met failures of steps only where the failing
step, a step around it, or the step at the top level does not count them. This holds in every
history, for any nesting of steps, and whatever others do meanwhile short of completing the record
themselves.

## Main definitions

* `Happening.Fails`: a step is over and has failed
* `Masked`: a failing step or a step around it does not count the failure
* `World.Accounts`: every failure that is announced has happened

## Main results

* `Passage.Run.failures`: the failures of a step are masked, or the step fails
* `run_masks_failures`: the failures of a completed run are masked, and without steps that mask
  failures there are none
-/

namespace WorkflowEngine

/-- **A step is over and has failed**, with the steps around it from the failing one on, and what is
announced of it. -/
inductive Happening.Fails : Happening → List Step → EventData → Prop where
  | intro {path l s d o ms opens} (h : Outcome.failure? o ≠ none) :
      Fails (.moved path l (.finished s d o ms) opens) l (.ofOutcome s d o ms)

/-- **What is announced of the first of a line of steps**, with the number of those around it. -/
inductive EventData.Of : EventData → List Step → Prop where
  | intro {s l o ms} : Of (.ofOutcome s l.length o ms) (s :: l)

/-- A failure of a step is announced. -/
inductive EventData.IsFailure : EventData → Prop where
  | stepExecuted {stepId stepType durationMs depth error} :
      IsFailure (.stepExecuted stepId stepType .failed durationMs depth error)

/-- **A failure is masked** within the step at the top level, or that step, which comes last, does
not count it. -/
inductive Masked (l : List Step) : Prop where
  | within (h : Task.MaskedWithin l)
  | top {s : Step} (hs : l.getLast? = some s) (h : s.policy.continueOnError = true)

/-- The happening is that of a step that is over and has failed. -/
def Happening.isFailure : Happening → Bool
  | .moved _ _ (.finished _ _ o _) _ => o.failure?.isSome
  | _ => false

theorem Happening.fails_of_isFailure {x : Happening} (h : x.isFailure = true) :
    ∃ l data, x.Fails l data := by
  unfold isFailure at h
  split at h
  · exact ⟨_, _, .intro (Option.isSome_iff_ne_none.mp h)⟩
  · cases h

theorem Happening.not_fails_silent {l : List Step} {data : EventData} :
    ¬ Happening.silent.Fails l data := by
  rintro ⟨⟩

theorem EventData.failure_of_isFailure {s : Step} {d ms : Nat} {o : Outcome}
    (h : (EventData.ofOutcome s d o ms).IsFailure) : o.failure? ≠ none := by
  intro ho
  unfold EventData.ofOutcome at h
  rw [ho] at h
  cases h

theorem Step.Lineage.getLast? {root : Step} {l : List Step} (h : root.Lineage l) :
    l.getLast? = some root := by
  induction h with
  | root => rfl
  | child _ _ ih => rw [List.getLast?_cons_cons, ih]

namespace World

/-- **Every failure that is announced since then has happened.** -/
def Accounts (id : Uuid) (w : World) (h : List Happening) (w' : World) : Prop :=
  ∀ ev ∈ w'.eventsOf id, ev.data.IsFailure →
    ev ∈ w.eventsOf id ∨ ∃ x ∈ h, ∃ l, x.Fails l ev.data

variable {id : Uuid} {w w' w'' : World} {h h' : List Happening}

theorem Accounts.of_events (he : w'.eventsOf id = w.eventsOf id) (h : List Happening) :
    Accounts id w h w' := fun _ hev _ => .inl (he ▸ hev)

theorem Accounts.trans (ha : Accounts id w h w') (ha' : Accounts id w' h' w'') :
    Accounts id w (h ++ h') w'' := by
  intro ev hev hf
  rcases ha' ev hev hf with hev' | ⟨x, hx, hl⟩
  · refine (ha ev hev' hf).imp_right ?_
    rintro ⟨x, hx, hl⟩
    exact ⟨x, List.mem_append_left _ hx, hl⟩
  · exact .inr ⟨x, List.mem_append_right _ hx, hl⟩

theorem Accounts.mono (ha : Accounts id w h w') (hh : ∀ x ∈ h, x ∈ h') : Accounts id w h' w' := by
  intro ev hev hf
  refine (ha ev hev hf).imp_right ?_
  rintro ⟨x, hx, hl⟩
  exact ⟨x, hh x hx, hl⟩

/-- One more event. -/
theorem Accounts.emit {data : EventData}
    (hd : data.IsFailure → ∃ x ∈ h, ∃ l, x.Fails l data) : Accounts id w h (w.emit id data) := by
  intro ev hev hf
  rw [eventsOf_emit] at hev
  rcases List.mem_append.mp hev with hev | hev
  · exact .inl hev
  · rw [List.mem_singleton.mp hev] at hf ⊢
    exact .inr (hd hf)

theorem Accounts.announced {s : Step} {d ms : Nat} {o : Outcome}
    (hd : o.failure? ≠ none → ∃ x ∈ h, ∃ l, x.Fails l (.ofOutcome s d o ms)) :
    Accounts id w h (w.announced id s d o ms) := by
  have he : Accounts id w h (w.emit id (.ofOutcome s d o ms)) :=
    .emit fun hf => hd (EventData.failure_of_isFailure hf)
  unfold World.announced
  split
  · exact (he.trans (.of_events (like_note rfl).events [])).mono (by simp)
  · exact he

end World

/-! ### While a step is run -/

namespace Passage

variable {engine : Expr.Engine} {config : Config} {id : Uuid}
  {rule : Execution → Execution → Prop} {a : Assignment} {st st' : Passage} {x : Happening}
  {h : List Happening} {root : WorkflowEngine.Step}

/-- A pending failure stays so until it is masked. -/
theorem Step.pending {S : Surroundings} {l : List WorkflowEngine.Step}
    (hp : Task.Placed root 0 st.task) (hs : Passage.Step S a st x st')
    (hl : Task.Pending st.task l) : Task.Pending st'.task l ∨ Task.MaskedWithin l := by
  cases hs with
  | advance _ h => exact hl.moves hp h
  | answer _ h => exact hl.answers h
  | _ => exact .inl hl

/-- A step that fails is masked, or its failure is pending. -/
theorem Step.fails {S : Surroundings} {l : List WorkflowEngine.Step} {data : EventData}
    (hp : Task.Placed root 0 st.task) (hs : Passage.Step S a st x st') (hx : x.Fails l data) :
    (root.Lineage l ∧ data.Of l) ∧ (Task.Pending st'.task l ∨ Task.MaskedWithin l) := by
  cases hs with
  | advance _ h =>
    cases hx with
    | intro ho =>
      obtain ⟨l', hl, hlin, rfl⟩ := hp.lineage h
      refine ⟨?_, Task.pending_of_finished hp h (Option.isSome_iff_ne_none.mpr ho)⟩
      rw [hl, Nat.zero_add]
      exact ⟨hlin, .intro⟩
  | call => cases hx
  | serve => cases hx
  | answer => cases hx
  | release => cases hx
  | tell => cases hx
  | cancel => cases hx
  | outside => cases hx

theorem Run.pending {S : Surroundings} {l : List WorkflowEngine.Step}
    (hp : Task.Placed root 0 st.task) (hr : Passage.Run S a st h st')
    (hl : Task.Pending st.task l ∨ Task.MaskedWithin l) :
    Task.Pending st'.task l ∨ Task.MaskedWithin l := by
  induction hr with
  | refl => exact hl
  | step hs _ ih =>
    refine ih (hs.placed hp) ?_
    rcases hl with hl | hl
    · exact hs.pending hp hl
    · exact .inr hl

/-- **The failures of a step are masked, or the step fails.** -/
theorem Run.failures {S : Surroundings} (hp : Task.Placed root 0 st.task)
    (hr : Passage.Run S a st h st') {l : List WorkflowEngine.Step} {data : EventData}
    (hx : x ∈ h) (hf : x.Fails l data) :
    (root.Lineage l ∧ data.Of l) ∧ (Task.Pending st'.task l ∨ Task.MaskedWithin l) := by
  induction hr with
  | refl => cases hx
  | step hs hr ih =>
    rcases List.mem_cons.mp hx with rfl | hx
    · obtain ⟨hlin, hl⟩ := hs.fails hp hf
      exact ⟨hlin, hr.pending (hs.placed hp) hl⟩
    · exact ih (hs.placed hp) hx

/-- A step that is over stays as it is. -/
theorem Step.task_of_over {S : Surroundings} {o : Outcome} (ho : st.task.outcome? = some o)
    (hs : Passage.Step S a st x st') : st'.task = st.task := by
  cases hs with
  | advance _ h => exact absurd h (Task.not_moves_of_outcome? ho)
  | answer _ h => exact absurd h (Task.not_answers_of_outcome? ho)
  | _ => rfl

theorem Run.task_of_over {S : Surroundings} {o : Outcome} (ho : st.task.outcome? = some o)
    (hr : Passage.Run S a st h st') : st'.task = st.task := by
  induction hr with
  | refl => rfl
  | step hs _ ih =>
    have he := hs.task_of_over ho
    exact (ih (he ▸ ho)).trans he

/-- **The step that is run is told of** before it is over, with the duration that its result
has. -/
theorem Run.told {S : Surroundings} {o : Outcome} (hp : Task.Placed root 0 st.task)
    (hr : Passage.Run S a st h st') (hn : st.task.outcome? = none)
    (ho : st'.task.outcome? = some o) (hc : o.isCancelled = false) :
    .moved [] [root] (.finished root 0 o st'.task.context.lastDurationMs) none ∈ h := by
  induction hr with
  | refl => rw [hn] at ho; cases ho
  | @step st x st₁ h st' hs hr ih =>
    cases hn₁ : st₁.task.outcome? with
    | none => exact List.mem_cons_of_mem _ (ih (hs.placed hp) hn₁ ho)
    | some o₁ =>
      rw [hr.task_of_over hn₁] at ho ⊢
      obtain rfl := Option.some.inj (hn₁.symm.trans ho)
      cases hs with
      | advance _ h =>
        have hms := hp.lastDurationMs_eq h hn₁ hc
        obtain ⟨rfl, ha, rfl⟩ := hp.eq_finished h hn₁
        rw [ha, hms]
        exact List.mem_cons_self ..
      | answer _ h => rw [hp.outcome?_of_answers h] at hn₁; cases hn₁
      | _ => cases hn.symm.trans hn₁

/-- Every failure that is announced while a step is run has happened. -/
theorem Step.accounts (ha : a.executionId = id) (hl : st.LeavesAsk a)
    (hrec : ∃ e, st.world.record? id = some e)
    (hs : Passage.Step (.ofRun engine config id rule) a st x st') :
    World.Accounts id st.world [x] st'.world := by
  subst ha
  cases hs with
  | @advance path ms t e _ h =>
    show World.Accounts _ _ _ ((Setting.ofConfig engine config).observe a st.world e)
    cases e with
    | finished s d o ms =>
      rw [Setting.observe_finished]
      split
      · exact .of_events (World.like_note rfl).events _
      · exact World.Accounts.trans (h := []) (.of_events (World.like_note rfl).events _)
          (.announced fun ho => ⟨_, List.mem_cons_self .., _, .intro ho⟩)
    | _ => exact .of_events rfl _
  | call => exact .of_events rfl _
  | @serve path r k reply w' hl' h =>
    cases (hl _ _ hl').1 with
    | isCancelled => cases h; exact .of_events rfl _
    | paused => cases h; exact .emit fun hd => by cases hd
    | resumed => cases h; exact .emit fun hd => by cases hd
    | execute => cases h
    | awaitApproval => cases h
  | answer => exact .of_events rfl _
  | release => exact .of_events rfl _
  | tell => exact .of_events rfl _
  | cancel _ h =>
    obtain ⟨e, he⟩ := hrec
    obtain ⟨r', w'', hc, hev, -⟩ := World.ends_cancel he
    have heq := hc.symm.trans h
    cases heq
    exact .of_events hev _
  | outside _ h => exact .of_events h.like.events _

end Passage

/-! ### What others do -/

variable {engine : Expr.Engine} {config : Config} {id : Uuid}
  {rule : Execution → Execution → Prop}

namespace World

/-- The record of a run can be found, and no one else has completed it. -/
def IsOpen (w : World) (id : Uuid) : Prop :=
  ∃ e, w.record? id = some e ∧ e.status ≠ .completed

variable {w w' : World}

theorem IsOpen.of_eq (h : w.IsOpen id) (he : w'.record? id = w.record? id) : w'.IsOpen id := by
  unfold IsOpen
  rw [he]
  exact h

end World

/-- **A run stays open while a step is run**, unless others complete its record. -/
theorem Surroundings.keeps_isOpen
    (hrule : ∀ e e', rule e e' → e'.status = .completed → e.status = .completed) :
    (ofRun engine config id rule).Keeps fun w => w.IsOpen id where
  note _ h := h
  emit _ h := h
  cancel := by
    rintro w w' r hc ⟨e, hr, he⟩
    obtain ⟨r', w'', hc', -, -, hcases⟩ := World.ends_cancel hr
    cases hc'.symm.trans hc
    rcases hcases with ⟨-, -, -, now, hr'⟩ | ⟨-, -, hr'⟩
    · exact ⟨_, hr', by rintro ⟨⟩⟩
    · exact ⟨e, hr', he⟩
  outside := by
    rintro w w' hm ⟨e, hr, he⟩
    obtain ⟨e', hr', hchange⟩ := hm.record e hr
    exact ⟨e', hr', fun hs => he (hrule e e' hchange hs)⟩

/-- **Every failure that is announced while a step is run has happened.** -/
theorem Passage.Run.accounts {a : Assignment} {st st' : Passage} {h : List Happening}
    (hrule : ∀ e e', rule e e' → e'.status = .completed → e.status = .completed)
    (ha : a.executionId = id) (hl : st.LeavesAsk a) (hopen : st.world.IsOpen id)
    (hr : Passage.Run (.ofRun engine config id rule) a st h st') :
    World.Accounts id st.world h st'.world := by
  induction hr with
  | refl => exact .of_events rfl []
  | step hs _ ih =>
    have ⟨e, he, _⟩ := hopen
    have hopen' := (Surroundings.keeps_isOpen hrule).step ha hl hs hopen
    exact (hs.accounts ha hl ⟨e, he⟩).trans (ih (hl.step hs) hopen')

/-! ### Between steps -/

namespace World

variable {w w' : World} {a : Assignment}

/-- A run that is cancelled is not completed. -/
theorem IsOpen.ends_finishCancelled (h : w.IsOpen a.executionId) (totalSteps : Nat)
    (stepId : Option String) :
    w.Ends (Orchestration.finishCancelled a totalSteps stepId) fun r _ =>
      ∀ summary, r = .ok summary → summary.status ≠ .completed := by
  obtain ⟨e, hr, he⟩ := h
  refine World.ends_finishCancelled hr stepId (fun _ w₁ _ _ => ?_) (fun _ now w₁ _ _ => ?_) ?_
  · -- the record is over already, and is not completed
    rintro _ ⟨⟩
    exact he
  · rintro _ ⟨⟩ ⟨⟩
  · rintro _ w₁ ⟨⟨-, err, rfl⟩, -, -⟩ _ ⟨⟩

/-- A run whose record is over already is not completed by this run. -/
theorem IsOpen.ends_finishTerminal (h : w.IsOpen a.executionId) (totalSteps : Nat)
    (status : Status) (stepId : Option String) :
    w.Ends (Orchestration.finishTerminal a totalSteps status stepId) fun r _ =>
      ∀ summary, r = .ok summary → summary.status ≠ .completed := by
  cases status with
  | cancelled => exact h.ends_finishCancelled totalSteps stepId
  | _ => exact .throw fun summary hs => by cases hs

/-- A run that fails is not completed. -/
theorem IsOpen.ends_finishFailed (h : w.IsOpen a.executionId) (totalSteps : Nat)
    (stepId : String) (error : StepError) :
    w.Ends (Orchestration.finishFailed a totalSteps stepId error) fun r _ =>
      ∀ summary, r = .ok summary → summary.status ≠ .completed := by
  have ⟨e, hr, _⟩ := h
  refine World.ends_finishFailed hr stepId error (fun _ w₁ hw => ?_) (fun _ now w₁ _ _ => ?_) ?_
  · exact (h.of_eq (hw.record _)).ends_finishTerminal totalSteps e.status (some stepId)
  · rintro _ ⟨⟩
  · rintro _ w₁ ⟨⟨-, err, rfl⟩, -, -⟩ _ ⟨⟩

/-- A run that is completed announces no failure by that. -/
theorem IsOpen.ends_finishCompleted (h : w.IsOpen a.executionId) (totalSteps : Nat) :
    w.Ends (Orchestration.finishCompleted a totalSteps) fun r w' =>
      ∀ summary, r = .ok summary → summary.status = .completed →
        Accounts a.executionId w [] w' := by
  have ⟨e, hr, _⟩ := h
  refine World.ends_finishCompleted hr (fun _ w₁ hw => ?_) (fun _ now w₁ hl _ => ?_) ?_
  · refine ((h.of_eq (hw.record _)).ends_finishTerminal totalSteps e.status none).mono ?_
    intro r w' hr summary hs hc
    exact absurd hc (hr summary hs)
  · -- the one event that is announced is that of the end
    exact fun summary _ _ => Accounts.trans (h := []) (.of_events hl.events []) (.emit nofun)
  · rintro _ w₁ ⟨⟨-, err, rfl⟩, -, -⟩ _ ⟨⟩

/-- Keeping a result leaves a run open. -/
theorem IsOpen.ends_persist {id : Uuid} (h : w.IsOpen id) (x : StepResult) :
    w.Ends (Orchestration.persist id x) fun _ w' => w'.IsOpen id ∧ Like id w w' := by
  have ⟨e, hr, he⟩ := h
  exact World.ends_persist hr x (fun now w₁ hl hr₁ => ⟨⟨_, hr₁, he⟩, hl⟩)
    fun r w₁ hs => ⟨h.of_eq hs.record, hs.like⟩

/-- Looking whether a run is cancelled leaves it as it is. -/
theorem IsOpen.ends_cancelRequested {id : Uuid} (h : w.IsOpen id) :
    w.Ends (Orchestration.cancelRequested id) fun _ w' => w'.IsOpen id ∧ Like id w w' := by
  have ⟨e, hr, _⟩ := h
  refine (World.ends_cancelRequested hr).mono ?_
  rintro r w' ⟨hw, -⟩
  exact ⟨h.of_eq (hw.record id), hw.like id⟩

end World

/-! ### Running -/

/-- No failure is among what a program does by itself. -/
theorem Happening.not_fails_of_silent {h : List Happening} (hh : ∀ x ∈ h, x = .silent)
    {x : Happening} (hx : x ∈ h) {l : List Step} {data : EventData} : ¬ x.Fails l data := by
  rw [hh x hx]
  exact not_fails_silent

/-- The failures of a history are masked, and those that are announced have happened. -/
structure MaskedIn (id : Uuid) (steps : List Step) (w : World) (h : List Happening) (w' : World) :
    Prop where
  masked : ∀ x ∈ h, ∀ l data, x.Fails l data →
    (∃ s ∈ steps, s.Lineage l) ∧ data.Of l ∧ Masked l
  accounts : w.Accounts id h w'

namespace MaskedIn

variable {steps : List Step} {w w₁ w' : World} {h h' : List Happening}

theorem append (hm : MaskedIn id steps w h w₁) (hm' : MaskedIn id steps w₁ h' w') :
    MaskedIn id steps w (h ++ h') w' where
  masked x hx := (List.mem_append.mp hx).elim (hm.masked x) (hm'.masked x)
  accounts := hm.accounts.trans hm'.accounts

theorem of_silent (hh : ∀ x ∈ h, x = .silent) (ha : w.Accounts id [] w') :
    MaskedIn id steps w h w' where
  masked _ hx _ _ hf := absurd hf (Happening.not_fails_of_silent hh hx)
  accounts := ha.mono fun x hx => by cases hx

theorem cons {s : Step} (hm : MaskedIn id steps w h w') : MaskedIn id (s :: steps) w h w' where
  masked x hx l data hf := by
    obtain ⟨⟨s', hs', hl⟩, hmask⟩ := hm.masked x hx l data hf
    exact ⟨⟨s', List.mem_cons_of_mem s hs', hl⟩, hmask⟩
  accounts := hm.accounts

end MaskedIn

/-- **A step at the top level masks its failures**, unless it counts the one it has. -/
theorem Passage.Run.maskedIn {a : Assignment} {s : WorkflowEngine.Step} {c : Context} {w : World}
    {st : Passage} {o : Outcome} {h : List Happening} (steps : List WorkflowEngine.Step)
    (hrule : ∀ e e', rule e e' → e'.status = .completed → e.status = .completed)
    (ha : a.executionId = id) (hw : w.IsOpen id)
    (hr : Passage.Run (.ofRun engine config id rule) a ⟨w, .start s c 0, []⟩ h st)
    (ho : st.task.outcome? = some o) (hc : o.isCancelled = false)
    (hp : o.failure? = none ∨ s.policy.continueOnError = true) :
    MaskedIn id (s :: steps) w (.silent :: (h ++ [.moved [] (st.task.around []) .silent none]))
      (st.world.announced id s 0 o st.task.context.lastDurationMs) where
  masked x hx l data hf := by
    have hplaced : Task.Placed s 0 (Task.start s c 0) := .start s c 0
    rcases List.mem_cons.mp hx with rfl | hx
    · exact absurd hf Happening.not_fails_silent
    rcases List.mem_append.mp hx with hx | hx
    · obtain ⟨⟨hlin, hof⟩, hl⟩ := hr.failures hplaced hx hf
      refine ⟨⟨s, List.mem_cons_self .., hlin⟩, hof, ?_⟩
      rcases hl with hl | hl
      · obtain ⟨e, rfl⟩ := hl.outcome? ho
        rcases hp with hp | hp
        · cases hp
        · exact .top hlin.getLast? hp
      · exact .within hl
    · rw [List.mem_singleton.mp hx] at hf
      cases hf
  accounts := by
    have htold := hr.told (Task.Placed.start s c 0) rfl ho hc
    have hacc := hr.accounts hrule ha (by rintro path p ⟨⟩) hw
    refine (hacc.trans (World.Accounts.announced (h := h) fun hf => ?_)).mono ?_
    · exact ⟨_, htold, _, .intro hf⟩
    · intro x hx
      have hx : x ∈ h := by simpa using hx
      exact List.mem_cons_of_mem _ (List.mem_append_left _ hx)

/-- **The steps at the top level of a completed run mask their failures.** -/
theorem Program.Reaches.masked_of_runSteps {a : Assignment} {totalSteps : Nat} {steps : List Step}
    {c : Context} {w w' : World} {h : List Happening} {summary : Summary}
    (hrule : ∀ e e', rule e e' → e'.status = .completed → e.status = .completed)
    (hw : w.IsOpen a.executionId)
    (hr : Reaches (.ofRun engine config a.executionId rule)
      (ExceptT.run (Orchestration.runSteps a totalSteps steps c)) w h
      (.ofProgram w' (.done (.ok summary))))
    (hs : summary.status = .completed) : MaskedIn a.executionId steps w h w' := by
  have hkeeps : (Surroundings.ofRun engine config a.executionId rule).Keeps fun w =>
      w.IsOpen a.executionId := Surroundings.keeps_isOpen hrule
  induction steps generalizing c w h with
  | nil =>
    rw [Orchestration.runSteps] at hr
    rcases hr.of_ends trivial hw.ends_cancelRequested with
      ⟨b, w₁, h₁, h₂, ⟨hw₁, hl₁⟩, hr, rfl, hh₁⟩ | ⟨e, w₁, -, he, -⟩
    · cases b with
      | true =>
        exact absurd hs (hr.post_of_ends (hw₁.ends_finishCancelled totalSteps none) summary rfl)
      | false =>
        have hacc := hr.post_of_ends (hw₁.ends_finishCompleted totalSteps) summary rfl hs
        obtain ⟨-, -, -, -, hh₂⟩ := hr.done_of_ends trivial (hw₁.ends_finishCompleted totalSteps)
        exact (MaskedIn.of_silent hh₁ (.of_events hl₁.events [])).append (.of_silent hh₂ hacc)
    · cases he
  | cons s steps ih =>
    rw [Orchestration.runSteps] at hr
    have ⟨e, hrec, he⟩ := hw
    rcases hr.of_ends trivial (World.ends_load hrec) with
      ⟨e₁, w₁, h₁, _, ⟨hw₁, he₁ | ⟨-, err, he₁⟩⟩, hr₁, rfl, hh₁⟩ | ⟨e₁, w₁, -, he₁, -⟩
    · cases he₁
      obtain ⟨_, hr₂, rfl⟩ := hr₁.of_lift (r := .isCancelled a.executionId) trivial rfl
      have hopen₁ := hw.of_eq (hw₁.record _)
      split at hr₂
      · exact absurd hs
          (hr₂.post_of_ends (hopen₁.ends_finishCancelled totalSteps (some s.id)) summary rfl)
      have hid : (e.atStep s.id w₁.now).id = a.executionId := (World.id_of_record? hrec :)
      rcases hr₂.of_ends trivial (World.ends_update (fun e now => e.atStep s.id now)
          ((hw₁.record _).trans hrec) hid) with
        ⟨e₂, w₂, h₂, _, ⟨hl₂, ⟨-, hrec₂⟩ | ⟨⟨-, err, he₂⟩, -⟩⟩, hr₃, rfl, hh₂⟩ | ⟨e₂, w₂, -, he₂, -⟩
      · have hopen₂ : w₂.IsOpen a.executionId := ⟨_, hrec₂, he⟩
        obtain ⟨st, o, h₃, h₄, hst, ho, hr₄, rfl⟩ := hr₃.of_runStep
        have hopen₃ := (hkeeps.run rfl (by rintro path p ⟨⟩) hst hopen₂).1
        have hbefore : MaskedIn a.executionId (s :: steps) w (h₁ ++ .silent :: h₂) w₂ := by
          refine .of_silent (fun x hx => ?_) (.of_events (hl₂.events.trans (hw₁.like _).events) [])
          rcases List.mem_append.mp hx with hx | hx
          · exact hh₁ x hx
          · exact (List.mem_cons.mp hx).elim (fun h => h) (hh₂ x)
        dsimp only at hr₄
        by_cases hc : o.isCancelled = true
        · rw [if_pos hc] at hr₄
          exact absurd hs
            (hr₄.post_of_ends (hopen₃.ends_finishCancelled totalSteps (some s.id)) summary rfl)
        rw [if_neg hc] at hr₄
        rcases hr₄.of_ends trivial (World.ends_lift (World.perform_announceStep _ a s 0 o _)) with
          ⟨_, w₄, h₅, _, ⟨-, rfl⟩, hr₅, rfl, hh₅⟩ | ⟨_, _, ⟨⟨⟩, -⟩, -⟩
        have hopen₄ := hkeeps.announced hopen₃ s 0 o st.task.context.lastDurationMs
        rcases hr₅.of_ends trivial (hopen₄.ends_persist _) with
          ⟨_, w₅, h₆, h₇, ⟨hopen₅, hl₅⟩, hr₆, rfl, hh₆⟩ | ⟨_, _, -, he₅, -⟩
        · have hafter : MaskedIn a.executionId (s :: steps)
              (st.world.announced a.executionId s 0 o st.task.context.lastDurationMs)
              (h₅ ++ h₆) w₅ :=
            .of_silent (fun x hx => (List.mem_append.mp hx).elim (hh₅ x) (hh₆ x))
              (.of_events hl₅.events [])
          have hrest : (o.failure? = none ∨ s.policy.continueOnError = true) ∧
              MaskedIn a.executionId (s :: steps) w₅ h₇ w' := by
            cases hf : o.failure? with
            | none =>
              rw [hf] at hr₆
              exact ⟨.inl rfl, (ih hopen₅ hr₆).cons⟩
            | some error =>
              rw [hf] at hr₆
              rcases hr₆.of_ends trivial hopen₅.ends_cancelRequested with
                ⟨b, w₆, h₈, h₉, ⟨hopen₆, hl₆⟩, hr₇, rfl, hh₈⟩ | ⟨_, _, -, he₆, -⟩
              · cases b with
                | true =>
                  exact absurd hs (hr₇.post_of_ends
                    (hopen₆.ends_finishCancelled totalSteps (some s.id)) summary rfl)
                | false =>
                  simp only [Bool.false_eq_true, if_false] at hr₇
                  split at hr₇
                  next hp =>
                    exact ⟨.inr hp, (MaskedIn.of_silent hh₈ (.of_events hl₆.events [])).append
                      (ih hopen₆ hr₇).cons⟩
                  next =>
                    exact absurd hs (hr₇.post_of_ends
                      (hopen₆.ends_finishFailed totalSteps s.id error) summary rfl)
              · cases he₆
          have hstep := hst.maskedIn steps hrule rfl hopen₂ ho (by simpa using hc) hrest.1
          simpa using hbefore.append (hstep.append (hafter.append hrest.2))
        · cases he₅
      · cases he₂
      · cases he₂
    · cases he₁
    · cases he₁

/-- No step of a workflow masks a failure. -/
def Workflow.CountsFailures (v : Workflow) : Prop :=
  ∀ top ∈ v.steps, top.policy.continueOnError = false ∧
    ∀ s l, top.Lineage (s :: l) → ¬ s.Recovers ∧ ¬ s.Forgives

theorem Step.Lineage.of_mem {root s : Step} {l : List Step} (h : root.Lineage l) (hs : s ∈ l) :
    ∃ l', root.Lineage (s :: l') := by
  induction h with
  | root =>
    rw [List.mem_singleton.mp hs]
    exact ⟨[], .root⟩
  | @child s' p l h hs' ih =>
    rcases List.mem_cons.mp hs with rfl | hs
    · exact ⟨_, .child h hs'⟩
    · exact ih hs

theorem Workflow.CountsFailures.not_masked {v : Workflow} (hv : v.CountsFailures) {top : Step}
    (ht : top ∈ v.steps) {l : List Step} (hl : top.Lineage l) : ¬ Masked l := by
  obtain ⟨hpolicy, hcounts⟩ := hv top ht
  rintro (hw | ⟨hs, hc⟩)
  · cases hw with
    | own h => exact (hcounts _ _ hl).1 h
    | around hp h =>
      obtain ⟨l', hl'⟩ := hl.of_mem (List.mem_cons_of_mem _ hp)
      exact (hcounts _ _ hl').2 h
  · rw [hl.getLast?] at hs
    cases hs
    rw [hpolicy] at hc
    cases hc

/-- **No failure is swallowed.** If a run of a resolved workflow is completed, every step that was
over and had failed, at whatever depth, stands in a line of steps up to one at the top level in
which the failure is masked; and every failure that the run announced is that of such a step. So if
no step of the workflow masks failures, no step has failed. Threads move and answers come in any
order, calls of the store may fail, and others may change the record as they like but for completing
it. -/
theorem run_masks_failures {w : World} {e : Execution} {v : Workflow}
    {s : System (Except RunError Summary)} {h : List Happening} {summary : Summary}
    (hrec : w.record? id = some e) (hv : w.store.resolved e.workflowId = .ok v)
    (hrule : ∀ e e', rule e e' → e'.status = .completed → e.status = .completed)
    (hr : System.Run (.ofRun engine config id rule)
      (.ofProgram w (ExceptT.run (Orchestration.run engine id))) h s)
    (hs : s.result? = some (.ok summary)) (hc : summary.status = .completed) :
    (∀ x ∈ h, ∀ l data, x.Fails l data →
      (∃ top ∈ v.steps, top.Lineage l) ∧ data.Of l ∧ Masked l) ∧
    (∀ ev ∈ s.world.eventsOf id, ev.data.IsFailure →
      ev ∈ w.eventsOf id ∨ ∃ x ∈ h, ∃ l, x.Fails l ev.data) ∧
    (v.CountsFailures → ∀ x ∈ h, ∀ l data, ¬ x.Fails l data) := by
  suffices hm : MaskedIn id v.steps w h s.world by
    refine ⟨hm.masked, hm.accounts, fun hcounts x hx l data hf => ?_⟩
    obtain ⟨⟨top, ht, hl⟩, -, hmask⟩ := hm.masked x hx l data hf
    exact hcounts.not_masked ht hl hmask
  have hr := hr.reaches
  obtain ⟨w', rfl⟩ : ∃ w', s = .ofProgram w' (.done (.ok summary)) := ⟨s.world, hr.eq_ofProgram hs⟩
  rw [Orchestration.run] at hr
  rcases hr.of_ends trivial (World.ends_load hrec) with
    ⟨e₁, w₁, h₁, _, ⟨hw₁, he₁ | ⟨-, err, he₁⟩⟩, hr₁, rfl, hh₁⟩ | ⟨_, _, -, he₁, -⟩
  · cases he₁
    cases ht : e.status.isTerminal with
    | true =>
      simp only [ht, if_true] at hr₁
      cases (Program.Reaches.of_done hr₁).2
    | false =>
      simp only [ht, Bool.false_eq_true, if_false] at hr₁
      obtain ⟨r, _, hp, hw₂, hr'⟩ := w₁.ends_runnable_resolved e.workflowId
      rcases hr₁.of_ends trivial (World.ends_lift hp) with
        ⟨_, w₂, h₂, _, ⟨⟨⟩, rfl⟩, hr₂, rfl, hh₂⟩ | ⟨_, _, ⟨⟨⟩, -⟩, -⟩
      cases r with
      | error err => obtain ⟨_, ⟨⟩⟩ := hr₂.error_of_throw
      | ok v' =>
        obtain rfl : v' = v := by
          have hv' := hr' v' rfl
          rw [hw₁.store, hv] at hv'
          exact (Except.ok.inj hv').symm
        obtain ⟨_, hr₃, rfl⟩ := hr₂.of_lift (r := .beginRun id) trivial rfl
        obtain ⟨w₃, h₃, hr₄, rfl, rfl⟩ := hr₃.of_ending
        rw [Orchestration.drive] at hr₄
        have hitem := World.ends_stored_look (w := w₂.beginRun id)
          (p := Program.request (.getWorkItem e.workItemId)) .getWorkItem
          (fun s => s.getWorkItem? e.workItemId) rfl
        rcases hr₄.of_ends trivial hitem with
          ⟨item, w₄, h₄, _, ⟨hw₄, -⟩, hr₅, rfl, hh₄⟩ | ⟨_, _, -, he₄, -⟩
        · split at hr₅
          next => obtain ⟨_, ⟨⟩⟩ := hr₅.error_of_throw
          next c hbuild =>
            obtain rfl : e.id = id := World.id_of_record? hrec
            obtain ⟨h₅, hr₆, rfl⟩ := hr₅.of_lift
              (r := .emit e.id (.started e.workflowId e.workItemId v'.steps.length)) trivial rfl
            have hrec₄ : w₄.record? e.id = some e :=
              (hw₄.record _).trans ((hw₂.record _).trans ((hw₁.record _).trans hrec))
            have hopen : (w₄.emit e.id
                (.started e.workflowId e.workItemId v'.steps.length)).IsOpen e.id :=
              ⟨e, hrec₄, by intro hcompleted; rw [hcompleted] at ht; cases ht⟩
            have hsteps := Program.Reaches.masked_of_runSteps
              (a := ⟨e.id, e.workflowId, e.workItemId⟩) hrule hopen hr₆ hc
            have hev : w₄.eventsOf e.id = w.eventsOf e.id :=
              (hw₄.like _).events.trans ((hw₂.like _).events.trans (hw₁.like _).events)
            have hbefore : World.Accounts e.id w [] (w₄.emit e.id
                (.started e.workflowId e.workItemId v'.steps.length)) :=
              .trans (h := []) (.of_events hev []) (.emit fun hd => by cases hd)
            have hpre : ∀ x ∈ h₁ ++ (h₂ ++ .silent :: (h₄ ++ [.silent])), x = .silent := by
              intro x hx
              simp only [List.mem_append, List.mem_cons, List.not_mem_nil, or_false] at hx
              rcases hx with hx | hx | hx | hx | hx
              · exact hh₁ x hx
              · exact hh₂ x hx
              · exact hx
              · exact hh₄ x hx
              · exact hx
            have hend : MaskedIn e.id v'.steps w₃ [.silent] (w₃.endRun e.id) :=
              .of_silent (fun x hx => List.mem_singleton.mp hx) (.of_events rfl [])
            have hall := ((MaskedIn.of_silent hpre hbefore).append hsteps).append hend
            simpa [System.ofProgram] using hall
        · cases he₄
  · cases he₁
  · cases he₁

/-- A step fails whose policy masks that, and its run is completed. -/
theorem run_masks_failures_single : ∃ h s summary,
    System.Run (.ofRun .null {} ⟨1⟩ Eq)
      (.ofProgram (.holding (.single ⟨none, none, true⟩ false))
        (ExceptT.run (Orchestration.run .null ⟨1⟩))) h s ∧
    s.result? = some (.ok summary) ∧ summary.status = .completed ∧
    (∃ x ∈ h, ∃ l data, x.Fails l data) ∧
    ∀ x ∈ h, ∀ l data, x.Fails l data → data.Of l ∧ Masked l := by
  have hplay : ((System.play (.ofRun .null {} ⟨1⟩ Eq)
      (.ofProgram (.holding (.single ⟨none, none, true⟩ false))
        (ExceptT.run (Orchestration.run .null ⟨1⟩)))
      (System.moves 12 ++ .respond [] false :: System.moves 17)).any fun x =>
        x.1.any Happening.isFailure &&
          (x.2.result?.bind Except.toOption).any fun r => r.status == .completed) = true := by
    decide +kernel
  obtain ⟨⟨h, s⟩, hrun, hx⟩ := (Option.any_eq_true _ _).mp hplay
  obtain ⟨hfails, hdone⟩ := Bool.and_eq_true_iff.mp hx
  obtain ⟨summary, hs, hc⟩ := (Option.any_eq_true _ _).mp hdone
  obtain ⟨r, hs, hr⟩ := Option.bind_eq_some_iff.mp hs
  obtain rfl : r = .ok summary := by
    cases r with
    | ok x => exact congrArg Except.ok (Option.some.inj hr)
    | error e => cases hr
  have hrun := System.Run.of_play hrun
  have hc : summary.status = .completed := by simpa using hc
  have hmasks := run_masks_failures rfl rfl (fun e e' he hc => by rw [he, hc]) hrun hs hc
  obtain ⟨x, hx, hf⟩ := List.any_eq_true.mp hfails
  exact ⟨h, s, summary, hrun, hs, hc, ⟨x, hx, Happening.fails_of_isFailure hf⟩,
    fun x hx l data hf => (hmasks.1 x hx l data hf).2⟩

end WorkflowEngine
