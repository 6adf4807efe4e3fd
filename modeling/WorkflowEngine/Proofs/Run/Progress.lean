import WorkflowEngine.Proofs.Run.Results
import WorkflowEngine.Proofs.Run.Suspension

/-!
# Progress of runs

The event that ends a run tells how many steps were done, and of how many, and so does what the run
reports. The first number is read off the record, where a run that was interrupted and is run again
finds the results it has kept before, and keeps those of all its steps anew.

## Main definitions

* `Execution.completedIds`, `Happening.done`: the steps that were done before a run, and in it
* `World.tallies`: the numbers that the events of a run tell
* `World.Shown`: what a run tells and reports of its progress when it ends

## Main results

* `Program.Reaches.shown_of_runSteps`: the steps at the top level that are done are counted
* `run_counts_steps`: what a run tells of its progress, and when that is right
-/

namespace WorkflowEngine

/-! ### Steps that are done -/

/-- The ids of the steps that were done, one for each result that says so. -/
def Execution.completedIds (e : Execution) : List String :=
  (e.stepResults.filter fun r => r.status = .completed).map StepResult.stepId

theorem Execution.length_completedIds (e : Execution) :
    e.completedIds.length = e.completedCount := List.length_map _

/-- The step that is over, if it was done. -/
def Ending.done? (e : Ending) : Option Step :=
  match e.outcome.failure? with
  | none => some e.step
  | some _ => none

/-- **The steps at the top level that are done in a history**, in the order in which they are
over. -/
def Happening.done (h : List Happening) : List Step := (tops h).filterMap Ending.done?

namespace Happening

@[simp] theorem done_nil : done [] = [] := rfl

@[simp] theorem done_append (h h' : List Happening) : done (h ++ h') = done h ++ done h' := by
  simp [done]

theorem done_of_silent {h : List Happening} (hh : ∀ x ∈ h, x = .silent) : done h = [] := by
  rw [done, tops_of_silent hh]
  rfl

@[simp] theorem done_silent_cons (h : List Happening) : done (.silent :: h) = done h := rfl

/-- The steps that are done are among those that are over, in the same order. -/
theorem done_sublist (h : List Happening) : List.Sublist (done h) ((tops h).map Ending.step) := by
  unfold done
  induction tops h with
  | nil => exact .slnil
  | cons e es ih =>
    rw [List.map_cons, List.filterMap_cons]
    unfold Ending.done?
    cases e.outcome.failure? with
    | none => exact ih.cons_cons _
    | some _ => exact ih.cons _

end Happening

/-- **A result counts if its step has not failed.** -/
theorem Execution.completedCount_addResult (e : Execution) (stepId : String) (o : Outcome)
    (ms : Nat) (now : Timestamp) :
    (e.addResult (.ofOutcome stepId o ms) now).completedCount =
      e.completedCount + if o.failure? = none then 1 else 0 := by
  have hcount : (e.addResult (.ofOutcome stepId o ms) now).completedCount =
      e.completedCount + ([StepResult.ofOutcome stepId o ms].filter
        fun r => r.status = .completed).length := by
    rw [completedCount, addResult, List.filter_append, List.length_append]
    rfl
  rw [hcount]
  congr 1
  cases o with
  | error e => rfl
  | ok output => cases output <;> rfl

/-! ### What is told -/

/-- How many steps were done, and of how many, if an event ends its run. -/
def EventData.tally? : EventData → Option (Nat × Nat)
  | .completed completedSteps totalSteps _ => some (completedSteps, totalSteps)
  | .failed _ _ completedSteps totalSteps => some (completedSteps, totalSteps)
  | .cancelled _ completedSteps totalSteps => some (completedSteps, totalSteps)
  | _ => none

/-- How many steps were done, and of how many. -/
def Summary.tally (s : Summary) : Nat × Nat := (s.completedSteps, s.totalSteps)

theorem EventData.IsProgress.tally? {data : EventData} (h : data.IsProgress) :
    data.tally? = none := by
  cases h <;> rfl

/-- **What a run tells and reports of its progress when it ends**: these numbers by one event, and
by its report if there is one, or nothing at all before an error. -/
inductive Tallied (tally : Nat × Nat) : Except RunError Summary → List (Nat × Nat) → Prop where
  | untold {error} : Tallied tally (.error error) []
  | failed {error} : Tallied tally (.error error) [tally]
  | reported {summary} (h : summary.tally = tally) : Tallied tally (.ok summary) [tally]

namespace World

/-- The numbers that the events of a run tell, in their order. -/
def tallies (w : World) (id : Uuid) : List (Nat × Nat) :=
  (w.eventsOf id).filterMap fun ev => ev.data.tally?

variable {w w' : World} {id : Uuid} {n : Nat} {told : List (Nat × Nat)}

theorem tallies_of_events (h : w'.eventsOf id = w.eventsOf id) : w'.tallies id = w.tallies id := by
  rw [tallies, h, tallies]

theorem tallies_emit (data : EventData) :
    (w.emit id data).tallies id = w.tallies id ++ data.tally?.toList := by
  rw [tallies, eventsOf_emit, List.filterMap_append]
  cases h : data.tally? <;> simp [tallies, nextEvent, Event.announce, h]

/-- **The record of a run counts a number of steps that were done, and its events tell certain
numbers.** -/
structure Counts (id : Uuid) (n : Nat) (told : List (Nat × Nat)) (w : World) : Prop where
  record : ∃ e, w.record? id = some e ∧ e.completedCount = n
  told : w.tallies id = told

theorem Counts.like (h : w.Counts id n told) (hl : Like id w w') {e : Execution}
    (hr : w'.record? id = some e) : w'.Counts id e.completedCount told :=
  ⟨⟨e, hr, rfl⟩, (tallies_of_events hl.events).trans h.told⟩

theorem Counts.emit (h : w.Counts id n told) {data : EventData} (hd : data.tally? = none) :
    (w.emit id data).Counts id n told := by
  refine ⟨h.record, ?_⟩
  rw [tallies_emit, hd, h.told]
  exact List.append_nil _

/-- **A run has ended** after its events have told certain numbers, and has told of its
progress. -/
def Shown (id : Uuid) (told : List (Nat × Nat)) (tally : Nat × Nat) (r : Except RunError Summary)
    (w : World) : Prop :=
  ∃ new, w.tallies id = told ++ new ∧ Tallied tally r new

/-- A run that ends with an error may tell nothing. -/
theorem Shown.untold {tally : Nat × Nat} {error : RunError} (h : w.tallies id = told) :
    w.Shown id told tally (.error error) :=
  ⟨[], h.trans (List.append_nil _).symm, .untold⟩

/-- A call of the store that fails ends a run, which tells nothing then. -/
theorem Stuck.shown {tally : Nat × Nat} {r : Except RunError Summary} (hs : Stuck id w r w')
    (h : w.tallies id = told) : w'.Shown id told tally r := by
  obtain ⟨error, rfl⟩ := hs.fails.2
  exact .untold ((tallies_of_events hs.like.events).trans h)

/-- The event that ends a run tells the numbers that the record gives. -/
theorem Counts.shown {tally : Nat × Nat} {r : Except RunError Summary} {data : EventData}
    (h : w.Counts id n told) (hl : Like id w w') (hd : data.tally? = some tally)
    (hr : Tallied tally r [tally]) : (w'.emit id data).Shown id told tally r := by
  refine ⟨[tally], ?_, hr⟩
  rw [tallies_emit, tallies_of_events hl.events, h.told, hd]
  rfl

/-! ### Programs between steps -/

variable {a : Assignment} {totalSteps : Nat}

theorem Counts.ends_finishCancelled (h : w.Counts a.executionId n told) (stepId : Option String) :
    w.Ends (Orchestration.finishCancelled a totalSteps stepId) fun r w' =>
      w'.Shown a.executionId told (n, totalSteps) r := by
  obtain ⟨e, hr, rfl⟩ := h.record
  exact World.ends_finishCancelled hr stepId (fun _ w₁ hl _ => h.shown hl rfl (.reported rfl))
    (fun _ now w₁ hl _ => h.shown hl rfl (.reported rfl)) fun r w₁ hs => hs.shown h.told

theorem Counts.ends_finishTerminal (h : w.Counts a.executionId n told) (status : Status)
    (stepId : Option String) :
    w.Ends (Orchestration.finishTerminal a totalSteps status stepId) fun r w' =>
      w'.Shown a.executionId told (n, totalSteps) r := by
  cases status with
  | cancelled => exact h.ends_finishCancelled stepId
  | _ => exact .throw (.untold h.told)

theorem Counts.ends_finishFailed (h : w.Counts a.executionId n told) (stepId : String)
    (error : StepError) :
    w.Ends (Orchestration.finishFailed a totalSteps stepId error) fun r w' =>
      w'.Shown a.executionId told (n, totalSteps) r := by
  obtain ⟨e, hr, rfl⟩ := h.record
  refine World.ends_finishFailed hr stepId error (fun _ w₁ hw => ?_)
    (fun _ now w₁ hl _ => h.shown hl rfl .failed) fun r w₁ hs => hs.shown h.told
  exact (h.like (hw.like _) ((hw.record _).trans hr)).ends_finishTerminal e.status (some stepId)

theorem Counts.ends_finishCompleted (h : w.Counts a.executionId n told) :
    w.Ends (Orchestration.finishCompleted a totalSteps) fun r w' =>
      w'.Shown a.executionId told (n, totalSteps) r := by
  obtain ⟨e, hr, rfl⟩ := h.record
  refine World.ends_finishCompleted hr (fun _ w₁ hw => ?_)
    (fun _ now w₁ hl _ => h.shown hl rfl (.reported rfl)) fun r w₁ hs => hs.shown h.told
  exact (h.like (hw.like _) ((hw.record _).trans hr)).ends_finishTerminal e.status none

/-- A run that cannot begin tells nothing. -/
theorem Counts.ends_markFailed (h : w.Counts id n told) (message : String) (error : RunError)
    (tally : Nat × Nat) :
    w.Ends (do
      Orchestration.markFailed id message
      throw error) fun r w' => w'.Shown id told tally r := by
  obtain ⟨e, hr, rfl⟩ := h.record
  have hmarked : w.Ends (Orchestration.markFailed id message) fun _ w' => w'.tallies id = told :=
    World.ends_markFailed hr message
      (fun _ w₁ hw => (tallies_of_events (hw.like id).events).trans h.told)
      (fun _ now w₁ hl _ => (tallies_of_events hl.events).trans h.told)
      fun r w₁ hs => (tallies_of_events hs.like.events).trans h.told
  exact hmarked.bind (fun _ w₁ ht => .throw (.untold ht)) fun _ w₁ ht => .untold ht

theorem Counts.ends_load (h : w.Counts id n told) :
    w.Ends (Orchestration.load id) fun r w' => w'.Counts id n told ∧
      ∀ e, r = .ok e → w'.record? id = some e := by
  obtain ⟨e, hr, rfl⟩ := h.record
  refine (World.ends_load hr).mono ?_
  rintro r w' ⟨hw, hok⟩
  have hr' := (hw.record id).trans hr
  refine ⟨h.like (hw.like id) hr', ?_⟩
  rintro e' rfl
  rcases hok with he | ⟨-, _, he⟩
  · cases he
    exact hr'
  · cases he

theorem Counts.ends_cancelRequested (h : w.Counts id n told) :
    w.Ends (Orchestration.cancelRequested id) fun _ w' => w'.Counts id n told := by
  obtain ⟨e, hr, rfl⟩ := h.record
  exact (World.ends_cancelRequested hr).mono fun r w' hw =>
    h.like (hw.1.like id) ((hw.1.record id).trans hr)

/-- A run comes to a step. -/
theorem Counts.ends_atStep (h : w.Counts id n told) {e : Execution} (hr : w.record? id = some e)
    (stepId : String) :
    w.Ends (Orchestration.update e fun e now => e.atStep stepId now) fun _ w' =>
      w'.Counts id n told := by
  obtain ⟨e', hr', rfl⟩ := h.record
  cases hr'.symm.trans hr
  refine (World.ends_update (fun e now => e.atStep stepId now) hr (id_of_record? hr :)).mono ?_
  rintro r w' ⟨hl, ⟨-, hr'⟩ | ⟨-, hr'⟩⟩
  · exact (h.like hl hr' :)
  · exact h.like hl (hr'.trans hr)

/-- **A result that is kept counts if its step has not failed.** -/
theorem Counts.ends_persist (h : w.Counts id n told) (stepId : String) (o : Outcome) (ms : Nat) :
    w.Ends (Orchestration.persist id (.ofOutcome stepId o ms)) fun r w' =>
      (r = .ok () → w'.Counts id (n + if o.failure? = none then 1 else 0) told) ∧
        w'.tallies id = told := by
  obtain ⟨e, hr, rfl⟩ := h.record
  refine World.ends_persist hr _ (fun now w₁ hl hr₁ => ?_) fun r w₁ hs => ?_
  · have hw := h.like hl hr₁
    rw [Execution.completedCount_addResult] at hw
    exact ⟨fun _ => hw, hw.told⟩
  · refine ⟨?_, (tallies_of_events hs.like.events).trans h.told⟩
    rintro rfl
    obtain ⟨_, he⟩ := hs.fails.2
    cases he

end World

/-! ### Running -/

/-- The history of a step at the top level with what comes after it: one step is done besides those
that come after, unless it has failed. -/
theorem Happening.length_done_of_over {S : Surroundings} {a : Assignment} {w : World} {s : Step}
    {c : Context} {st : Passage} {o : Outcome} {h h' : List Happening} {l : List Step}
    (hst : Passage.Run S a ⟨w, .start s c 0, []⟩ h st) (ho : st.task.outcome? = some o) :
    (done (.silent :: (h ++ .moved [] l .silent none :: h'))).length =
      (if o.failure? = none then 1 else 0) + (done h').length := by
  obtain ⟨ms, htops, -⟩ := hst.tops (.start s c 0) rfl
  rw [ho] at htops
  rw [done_silent_cons, done_append, List.length_append]
  congr 1
  rw [done, htops]
  cases hf : o.failure? <;> simp [Ending.done?, hf]

variable {engine : Expr.Engine} {config : Config} {id : Uuid}
  {rule : Execution → Execution → Prop} {n : Nat} {told : List (Nat × Nat)}

/-- **Nothing is counted or told while a step is run.** -/
theorem Surroundings.keeps_counts
    (hrule : ∀ e e', rule e e' → e'.completedCount = e.completedCount) :
    (ofRun engine config id rule).Keeps fun w => w.Counts id n told where
  note := by
    intro w x hx h
    obtain ⟨e, hr, rfl⟩ := h.record
    exact h.like (World.like_note hx) hr
  emit hd h := h.emit hd.tally?
  cancel := by
    intro w w' r hc h
    obtain ⟨e, hr, rfl⟩ := h.record
    obtain ⟨r', w'', hc', hev, -, hcases⟩ := World.ends_cancel hr
    cases hc'.symm.trans hc
    refine ⟨?_, (World.tallies_of_events hev).trans h.told⟩
    rcases hcases with ⟨-, -, -, now, hr'⟩ | ⟨-, -, hr'⟩
    · exact ⟨_, hr', rfl⟩
    · exact ⟨e, hr', rfl⟩
  outside := by
    intro w w' hm h
    obtain ⟨e, hr, rfl⟩ := h.record
    obtain ⟨e', hr', hchange⟩ := hm.record e hr
    rw [← hrule e e' hchange]
    exact h.like hm.like hr'

namespace Program.Reaches

variable {a : Assignment} {w w' : World} {h : List Happening}

/-- A program that ends without waiting does no step. -/
theorem shown_of_ends {S : Surroundings} {totalSteps : Nat} {p : Orchestration Summary}
    {r : Except RunError Summary} (hr : Reaches S (ExceptT.run p) w h (.ofProgram w' (.done r)))
    (hp : w.Ends p fun r w' => w'.Shown id told (n, totalSteps) r) :
    w'.Shown id told (n + (Happening.done h).length, totalSteps) r := by
  obtain ⟨r', w₁, hshown, he, hh⟩ := hr.done_of_ends trivial hp
  cases he
  rwa [Happening.done_of_silent hh]

/-- **The step that is over is counted if it has not failed**, and so are the steps that follow. -/
theorem shown_of_afterStep {S : Surroundings} {totalSteps : Nat} {s : Step} {steps : List Step}
    {o : Outcome} {c : Context} {r : Except RunError Summary}
    (hrest : ∀ {n w h c}, World.Counts a.executionId n told w →
      Reaches S (ExceptT.run (Orchestration.runSteps a totalSteps steps c)) w h
        (.ofProgram w' (.done r)) →
      w'.Shown a.executionId told (n + (Happening.done h).length, totalSteps) r)
    (hw : w.Counts a.executionId n told)
    (hannounced : (w.announced a.executionId s 0 o c.lastDurationMs).Counts a.executionId n told)
    (hr : Reaches S (ExceptT.run (Orchestration.afterStep a totalSteps s steps (o, c))) w h
      (.ofProgram w' (.done r))) :
    w'.Shown a.executionId told
      (n + (if o.failure? = none then 1 else 0) + (Happening.done h).length, totalSteps) r := by
  unfold Orchestration.afterStep at hr
  cases hcancelled : o.isCancelled with
  | true =>
    simp only [hcancelled, if_true] at hr
    have hf : o.failure? ≠ none := by
      cases o with
      | error => exact Option.some_ne_none _
      | ok => cases hcancelled
    rw [if_neg hf, Nat.add_zero]
    exact hr.shown_of_ends (hw.ends_finishCancelled (some s.id))
  | false =>
    simp only [hcancelled, Bool.false_eq_true, if_false] at hr
    rcases hr.of_ends trivial (World.ends_lift (World.perform_announceStep _ a s 0 o _)) with
      ⟨_, w₁, h₁, _, ⟨-, rfl⟩, hr₁, rfl, hh₁⟩ | ⟨_, _, ⟨⟨⟩, -⟩, -⟩
    rw [Happening.done_append, Happening.done_of_silent hh₁, List.nil_append]
    rcases hr₁.of_ends trivial (hannounced.ends_persist s.id o _) with
      ⟨_, w₂, h₂, _, ⟨hw₂, -⟩, hr₂, rfl, hh₂⟩ | ⟨_, w₂, ⟨-, hw₂⟩, he, -⟩
    rotate_left
    · cases he
      exact .untold hw₂
    have hw₂ := hw₂ rfl
    rw [Happening.done_append, Happening.done_of_silent hh₂, List.nil_append]
    cases hf : o.failure? with
    | none =>
      rw [hf] at hr₂ hw₂
      exact hrest hw₂ hr₂
    | some error =>
      rw [hf] at hr₂ hw₂
      rcases hr₂.of_ends trivial hw₂.ends_cancelRequested with
        ⟨b, w₃, h₃, _, hw₃, hr₃, rfl, hh₃⟩ | ⟨_, w₃, hw₃, he, -⟩
      rotate_left
      · cases he
        exact .untold hw₃.told
      rw [Happening.done_append, Happening.done_of_silent hh₃, List.nil_append]
      cases b with
      | true => exact hr₃.shown_of_ends (hw₃.ends_finishCancelled (some s.id))
      | false =>
        simp only [Bool.false_eq_true, if_false] at hr₃
        split at hr₃
        · exact hrest hw₃ hr₃
        · exact hr₃.shown_of_ends (hw₃.ends_finishFailed s.id error)

/-- **The steps at the top level that are done are counted**, besides those that were counted
before. -/
theorem shown_of_runSteps {totalSteps : Nat} {steps : List Step} {c : Context}
    {r : Except RunError Summary}
    (hrule : ∀ e e', rule e e' → e'.completedCount = e.completedCount)
    (hw : w.Counts a.executionId n told)
    (hr : Reaches (.ofRun engine config a.executionId rule)
      (ExceptT.run (Orchestration.runSteps a totalSteps steps c)) w h (.ofProgram w' (.done r))) :
    w'.Shown a.executionId told (n + (Happening.done h).length, totalSteps) r := by
  have hkeeps {n : Nat} : (Surroundings.ofRun engine config a.executionId rule).Keeps fun w =>
      w.Counts a.executionId n told := Surroundings.keeps_counts hrule
  induction steps generalizing c w h n with
  | nil =>
    rw [Orchestration.runSteps] at hr
    rcases hr.of_ends trivial hw.ends_cancelRequested with
      ⟨b, w₁, h₁, h₂, hw₁, hr₁, rfl, hh₁⟩ | ⟨_, w₁, hw₁, he, -⟩
    · rw [Happening.done_append, Happening.done_of_silent hh₁, List.nil_append]
      cases b with
      | true => exact hr₁.shown_of_ends (hw₁.ends_finishCancelled none)
      | false => exact hr₁.shown_of_ends hw₁.ends_finishCompleted
    · cases he
      exact .untold hw₁.told
  | cons s steps ih =>
    rw [Orchestration.runSteps] at hr
    rcases hr.of_ends trivial hw.ends_load with
      ⟨e, w₁, h₁, _, ⟨hw₁, hrec⟩, hr₁, rfl, hh₁⟩ | ⟨_, w₁, ⟨hw₁, -⟩, he, -⟩
    rotate_left
    · cases he
      exact .untold hw₁.told
    rw [Happening.done_append, Happening.done_of_silent hh₁, List.nil_append]
    obtain ⟨h₂, hr₂, rfl⟩ := hr₁.of_lift (r := .isCancelled a.executionId) trivial rfl
    rw [Happening.done_silent_cons]
    split at hr₂
    · exact hr₂.shown_of_ends (hw₁.ends_finishCancelled (some s.id))
    rcases hr₂.of_ends trivial (hw₁.ends_atStep (hrec e rfl) s.id) with
      ⟨_, w₂, h₃, _, hw₂, hr₃, rfl, hh₃⟩ | ⟨_, w₂, hw₂, he, -⟩
    rotate_left
    · cases he
      exact .untold hw₂.told
    rw [Happening.done_append, Happening.done_of_silent hh₃, List.nil_append]
    obtain ⟨st, o, h₄, h₅, hst, ho, hr₄, rfl⟩ := hr₃.of_runStep
    have hw₃ := (hkeeps.run rfl (by rintro path p ⟨⟩) hst hw₂).1
    rw [Happening.length_done_of_over hst ho, ← Nat.add_assoc]
    exact shown_of_afterStep ih hw₃ (hkeeps.announced hw₃ s 0 o _) hr₄

/-- What is counted when a run is driven. -/
theorem shown_of_drive {e : Execution} {v : Workflow} {r : Except RunError Summary}
    (hrule : ∀ e e', rule e e' → e'.completedCount = e.completedCount)
    (hrec : w.record? e.id = some e) (htold : w.tallies e.id = told)
    (hr : Reaches (.ofRun engine config e.id rule)
      (ExceptT.run (Orchestration.drive engine e v)) w h (.ofProgram w' (.done r))) :
    w'.Shown e.id told (e.completedCount + (Happening.done h).length, v.steps.length) r := by
  have hw : w.Counts e.id e.completedCount told := ⟨⟨e, hrec, rfl⟩, htold⟩
  rw [Orchestration.drive] at hr
  have hitem := World.ends_stored_look (w := w)
    (p := Program.request (.getWorkItem e.workItemId)) .getWorkItem
    (fun s => s.getWorkItem? e.workItemId) rfl
  rcases hr.of_ends trivial hitem with
    ⟨item, w₁, h₁, h₂, ⟨huntouched, -⟩, hr₁, rfl, hh₁⟩ | ⟨_, w₁, ⟨huntouched, -⟩, he, -⟩
  rotate_left
  · cases he
    exact .untold ((World.tallies_of_events (huntouched.like e.id).events).trans hw.told)
  have hw₁ := hw.like (huntouched.like e.id) ((huntouched.record e.id).trans hrec)
  rw [Happening.done_append, Happening.done_of_silent hh₁, List.nil_append]
  split at hr₁
  next error _ => exact hr₁.shown_of_ends (hw₁.ends_markFailed _ (.expression error) _)
  next c _ =>
    obtain ⟨h₃, hr₂, rfl⟩ := hr₁.of_lift
      (r := .emit e.id (.started e.workflowId e.workItemId v.steps.length)) trivial rfl
    rw [Happening.done_silent_cons]
    exact shown_of_runSteps (a := ⟨e.id, e.workflowId, e.workItemId⟩) hrule (hw₁.emit rfl) hr₂

/-- **A run counts the steps at the top level that are done**, besides those that its record counted
before. -/
theorem shown_of_run {e : Execution} {r : Except RunError Summary}
    (hrule : ∀ e e', rule e e' → e'.completedCount = e.completedCount)
    (hrec : w.record? id = some e)
    (hr : Reaches (.ofRun engine config id rule) (ExceptT.run (Orchestration.run engine id)) w h
      (.ofProgram w' (.done r))) :
    w'.Shown id (w.tallies id) (e.completedCount + (Happening.done h).length,
      (w.store.stepsOf e.workflowId).length) r := by
  have hw : w.Counts id e.completedCount (w.tallies id) := ⟨⟨e, hrec, rfl⟩, rfl⟩
  rw [Orchestration.run] at hr
  rcases hr.of_ends trivial (World.ends_load hrec) with
    ⟨_, w₁, h₁, h₂, ⟨huntouched, he⟩, hr₁, rfl, hh₁⟩ | ⟨_, w₁, ⟨huntouched, -⟩, he, -⟩
  rotate_left
  · cases he
    exact .untold (World.tallies_of_events (huntouched.like id).events)
  rcases he with he | ⟨-, _, he⟩ <;> cases he
  have hrec₁ := (huntouched.record id).trans hrec
  have hw₁ := hw.like (huntouched.like id) hrec₁
  rw [Happening.done_append, Happening.done_of_silent hh₁, List.nil_append]
  cases ht : e.status.isTerminal with
  | true =>
    simp only [ht, if_true] at hr₁
    exact shown_of_ends (p := throw _) hr₁ (.throw (.untold hw₁.told))
  | false =>
    simp only [ht, Bool.false_eq_true, if_false] at hr₁
    obtain ⟨v, w₂, hp, huntouched₂, hv⟩ := w₁.ends_runnable_resolved e.workflowId
    obtain ⟨h₃, h₄, hr₂, rfl, hh₃⟩ := hr₁.of_ends_ok trivial (World.ends_lift hp)
    have hrec₂ := (huntouched₂.record id).trans hrec₁
    have hw₂ := hw₁.like (huntouched₂.like id) hrec₂
    rw [Happening.done_append, Happening.done_of_silent hh₃, List.nil_append]
    cases v with
    | error error => exact hr₂.shown_of_ends (hw₂.ends_markFailed _ error _)
    | ok v =>
      have hsteps : w.store.stepsOf e.workflowId = v.steps := by
        rw [Store.stepsOf, ← huntouched.store, hv v rfl]
      rw [hsteps]
      obtain ⟨h₅, hr₃, rfl⟩ := hr₂.of_lift (r := .beginRun id) trivial rfl
      obtain ⟨w₃, h₆, hr₄, rfl, rfl⟩ := hr₃.of_ending
      -- beginning and ending the run tells nothing
      suffices hshown : w₃.Shown id (w.tallies id)
          (e.completedCount + (Happening.done h₆).length, v.steps.length) r by
        rwa [Happening.done_silent_cons, Happening.done_append, Happening.done_silent_cons,
          Happening.done_nil, List.append_nil]
      obtain rfl : e.id = id := World.id_of_record? hrec
      exact shown_of_drive (w := w₂.beginRun e.id) hrule hrec₂ hw₂.told hr₄

end Program.Reaches

/-- As many entries of a list of distinct ones are in another list as that has, if and only if it
has distinct ones too, and all of these. -/
theorem length_filter_mem_eq_iff {α : Type} [DecidableEq α] {l m : List α} (hl : l.Nodup) :
    (l.filter (· ∈ m)).length = m.length ↔ m.Nodup ∧ ∀ x ∈ m, x ∈ l := by
  have hnodup := hl.filter (fun x => decide (x ∈ m))
  constructor
  · intro h
    have hsub : (l.filter (· ∈ m)).Subperm m :=
      List.subperm_of_subset hnodup fun x hx => of_decide_eq_true (List.mem_filter.mp hx).2
    have hperm := hsub.perm_of_length_le h.ge
    exact ⟨hperm.nodup_iff.mp hnodup, fun x hx => (List.mem_filter.mp (hperm.mem_iff.mpr hx)).1⟩
  · rintro ⟨hm, hsub⟩
    refine ((List.perm_ext_iff_of_nodup hnodup hm).mpr fun x => ?_).length_eq
    rw [List.mem_filter, decide_eq_true_iff]
    exact ⟨And.right, fun hx => ⟨hsub x hx, hx⟩⟩

/-- **What a run tells of its progress.** The steps at the top level that are done in a run are
steps of its workflow, in their order, each once. The event that ends the run and its report tell
two numbers: that of these steps together with the results of steps that were done before, and that
of all steps of the workflow. The first one is the number of steps of the workflow that have been
done if and only if the results before are those of steps of the workflow, each once, and none of
these steps is done again, as where the record has no such results. Calls of the store may fail;
threads move and answers come in any order, and meanwhile others may cancel the run and change its
record, but for the number of its results of steps that were done. -/
theorem run_counts_steps {w : World} {e : Execution} {s : System (Except RunError Summary)}
    {h : List Happening} {r : Except RunError Summary} (hrec : w.record? id = some e)
    (hrule : ∀ e e', rule e e' → e'.completedCount = e.completedCount)
    (hr : System.Run (.ofRun engine config id rule)
      (.ofProgram w (ExceptT.run (Orchestration.run engine id))) h s)
    (hs : s.result? = some r) :
    let steps := w.store.stepsOf e.workflowId
    let completed := e.completedIds ++ (Happening.done h).map Step.id
    (Happening.done h).Sublist steps ∧
    s.world.Shown id (w.tallies id) (completed.length, steps.length) r ∧
    ((steps.filter fun s => s.id ∈ completed).length = completed.length ↔
      completed.Nodup ∧ ∀ i ∈ e.completedIds, i ∈ steps.map Step.id) := by
  intro steps completed
  obtain ⟨begun, hcourse⟩ := hr.exists_course
  obtain ⟨hbegin, hover⟩ := hcourse.mayBegin
  have hdone : (Happening.done h).Sublist steps := by
    refine (Happening.done_sublist h).trans ?_
    rw [← hover (by rw [hs]; rfl)]
    exact (hbegin.prefix_of_run hrec).sublist
  refine ⟨hdone, ?_, ?_⟩
  · have hreaches := hr.reaches
    obtain ⟨w', rfl⟩ : ∃ w', s = .ofProgram w' (.done r) := ⟨s.world, hreaches.eq_ofProgram hs⟩
    have hshown := hreaches.shown_of_run hrule hrec
    rwa [← Execution.length_completedIds, ← List.length_map Step.id, ← List.length_append]
      at hshown
  · have hids := length_filter_mem_eq_iff (m := completed) (w.store.nodup_stepsOf e.workflowId)
    rw [List.filter_map, List.length_map] at hids
    refine hids.trans (and_congr_right fun _ => ?_)
    rw [List.forall_mem_append]
    refine and_iff_left fun i hi => ?_
    exact (hdone.map Step.id).subset hi

/-- A run of a step that succeeds tells that one of one steps was done. -/
theorem run_counts_steps_single : ∃ h s r,
    System.Run (.ofRun .null {} ⟨1⟩ Eq)
      (.ofProgram (.holding (.single ⟨none, none, false⟩ false))
        (ExceptT.run (Orchestration.run .null ⟨1⟩))) h s ∧
    s.result? = some r ∧ (Happening.done h).map Step.id = ["a"] ∧
    s.world.Shown ⟨1⟩ [] (1, 1) r := by
  have hplay : ((System.play (.ofRun .null {} ⟨1⟩ Eq)
      (.ofProgram (.holding (.single ⟨none, none, false⟩ false))
        (ExceptT.run (Orchestration.run .null ⟨1⟩)))
      (System.moves 12 ++ .respond [] true :: System.moves 14)).any fun x =>
        x.2.result?.isSome && decide ((Happening.done x.1).map Step.id = ["a"])) = true := by
    decide +kernel
  obtain ⟨⟨h, s⟩, hrun, hx⟩ := (Option.any_eq_true _ _).mp hplay
  simp only [Bool.and_eq_true, decide_eq_true_eq] at hx
  obtain ⟨hs, hids⟩ := hx
  obtain ⟨r, hr⟩ := Option.isSome_iff_exists.mp hs
  have hrun := System.Run.of_play hrun
  obtain ⟨-, hshown, -⟩ := run_counts_steps rfl (fun e e' he => by rw [he]) hrun hr
  rw [hids] at hshown
  exact ⟨h, s, r, hrun, hr, hids, hshown⟩

/-- **A step that is done again is counted again.** A run of a single step is interrupted by a call
of the store that fails after the result was kept. Its record says `RUNNING` still, and the next run
tells that two of one steps were done. -/
theorem rerun_counts_twice : ∃ h s e h' s' summary,
    System.Run (.ofRun .null {} ⟨1⟩ Eq)
      (.ofProgram { World.holding (.single ⟨none, none, false⟩ false) with
        faults := [(.updateExecution, 2)] } (ExceptT.run (Orchestration.run .null ⟨1⟩))) h s ∧
    s.result?.isSome = true ∧ s.world.record? ⟨1⟩ = some e ∧ e.status = .running ∧
    System.Run (.ofRun .null {} ⟨1⟩ Eq)
      (.ofProgram s.world (ExceptT.run (Orchestration.run .null ⟨1⟩))) h' s' ∧
    s'.result? = some (.ok summary) ∧ summary.tally = (2, 1) ∧
    s'.world.tallies ⟨1⟩ = [(2, 1)] := by
  have hplay : ((System.play (.ofRun .null {} ⟨1⟩ Eq)
      (.ofProgram { World.holding (.single ⟨none, none, false⟩ false) with
        faults := [(.updateExecution, 2)] } (ExceptT.run (Orchestration.run .null ⟨1⟩)))
      (System.moves 12 ++ .respond [] true :: System.moves 13)).any fun x =>
        x.2.result?.isSome &&
        ((x.2.world.record? ⟨1⟩).any fun e => e.status = .running) &&
        ((System.play (.ofRun .null {} ⟨1⟩ Eq)
          (.ofProgram x.2.world (ExceptT.run (Orchestration.run .null ⟨1⟩)))
          (System.moves 12 ++ .respond [] true :: System.moves 14)).any fun y =>
            decide (y.2.world.tallies ⟨1⟩ = [(2, 1)]) &&
            y.2.result?.any fun r => r.toOption.any fun summary => summary.tally = (2, 1))) =
      true := by
    decide +kernel
  obtain ⟨⟨h, s⟩, hrun, hx⟩ := (Option.any_eq_true _ _).mp hplay
  simp only [Bool.and_eq_true, Option.any_eq_true, decide_eq_true_eq] at hx
  obtain ⟨⟨hs, e, hrec, hrunning⟩, ⟨h', s'⟩, hrun', htold, r, hr, summary, hok, htally⟩ := hx
  cases r with
  | error error => cases hok
  | ok summary =>
    cases hok
    exact ⟨h, s, e, h', s', summary, .of_play hrun, hs, hrec, hrunning, .of_play hrun', hr, htally,
      htold⟩

end WorkflowEngine
