import WorkflowEngine.Proofs.Run.Between
import WorkflowEngine.Proofs.Run.Masking
import WorkflowEngine.Proofs.Run.Suspension
import WorkflowEngine.Proofs.Task.Trace
import WorkflowEngine.Proofs.Workflow.Validity

/-!
# Results of runs

The record of a run keeps a result of each step at the top level that is over, in the order of the
workflow, and the run tells of each of them by one event. What is kept and what is told agree, and
no step at the top level is begun twice.

## Main definitions

* `Happening.tops`: the ends of steps at the top level in a history
* `World.reports`: what the events of a run tell of steps at the top level
* `System.Course`: a history with the steps at the top level that are begun in it
* `Program.MayBegin`: the steps that a program may begin, one after the other

## Main results

* `Passage.Run.tops`: a step at the top level is over once
* `System.Course.mayBegin`, `System.Course.begun_eq`: what is begun in a history
* `Program.Reaches.showsAfter_of_runSteps`: the steps at the top level leave their results and
  reports
* `run_keeps_results`: the results of a run
-/

namespace WorkflowEngine

/-! ### Ends of steps at the top level -/

namespace Happening

/-- The end of a step that a happening tells of. -/
def ending? : Happening → Option Ending
  | .moved _ _ effect _ => effect.ending?
  | _ => none

/-- The ends of steps at the top level, in the order in which they happened. -/
def tops (h : List Happening) : List Ending :=
  (h.filterMap ending?).filter fun e => e.depth = 0

@[simp] theorem tops_nil : tops [] = [] := rfl

@[simp] theorem tops_append (h h' : List Happening) : tops (h ++ h') = tops h ++ tops h' := by
  simp [tops]

theorem tops_cons (x : Happening) (h : List Happening) : tops (x :: h) = tops [x] ++ tops h :=
  tops_append [x] h

@[simp] theorem tops_silent_cons (h : List Happening) : tops (.silent :: h) = tops h := rfl

theorem tops_of_silent {h : List Happening} (hh : ∀ x ∈ h, x = .silent) : tops h = [] := by
  induction h with
  | nil => rfl
  | cons x h ih =>
    obtain rfl := hh x (List.mem_cons_self ..)
    rw [tops_silent_cons, ih fun y hy => hh y (List.mem_cons_of_mem _ hy)]

end Happening

namespace Passage

variable {S : Surroundings} {a : Assignment} {st st' : Passage} {x : Happening}
  {h : List Happening} {root : WorkflowEngine.Step}

/-- A step that is over is not over again. -/
theorem Run.tops_of_over {o : Outcome} (ho : st.task.outcome? = some o)
    (hr : Passage.Run S a st h st') : Happening.tops h = [] := by
  induction hr with
  | refl => rfl
  | @step st x st₁ h st' hs _ ih =>
    rw [Happening.tops_cons, ih ((hs.task_of_over ho).symm ▸ ho)]
    cases hs with
    | advance _ h => exact absurd h (Task.not_moves_of_outcome? ho)
    | _ => rfl

/-- The duration of a step that is over, if it was not cancelled, is that of the result that was
recorded last. -/
def Lasts (st : Passage) (ms : Nat) : Prop :=
  ∀ o, st.task.outcome? = some o → o.isCancelled = false → st.task.context.lastDurationMs = ms

theorem Lasts.of_none (hn : st.task.outcome? = none) (ms : Nat) : st.Lasts ms := by
  intro o ho
  cases hn.symm.trans ho

/-- What happens while a step is run tells of that step if the step is over then, and of no other
step at the top level. -/
theorem Step.tops (hp : Task.Placed root 0 st.task) (hn : st.task.outcome? = none)
    (hs : Passage.Step S a st x st') :
    ∃ ms, Happening.tops [x] = (st'.task.outcome?.map fun o => ⟨root, 0, o, ms⟩).toList ∧
      st'.Lasts ms := by
  -- what leaves the step not over tells of no step at the top level
  have hgoing (h : Happening.tops [x] = []) (hn' : st'.task.outcome? = none) :
      ∃ ms, Happening.tops [x] = (st'.task.outcome?.map fun o => ⟨root, 0, o, ms⟩).toList ∧
        st'.Lasts ms :=
    ⟨0, by rw [h, hn']; rfl, .of_none hn' 0⟩
  cases hs with
  | @advance path ms t e hl h =>
    cases ho : t.outcome? with
    | some o =>
      have hms := hp.lastDurationMs_eq h ho
      obtain ⟨rfl, -, rfl⟩ := hp.eq_finished h ho
      refine ⟨ms, rfl, fun o' ho' hc => ?_⟩
      cases ho.symm.trans ho'
      exact hms hc
    | none =>
      rw [← ho]
      refine hgoing ?_ ho
      cases e with
      | finished s d o ms =>
        by_cases hd : d = 0
        · subst hd
          rw [(hp.outcome?_of_finished h).2] at ho
          cases ho
        · simp [Happening.tops, Happening.ending?, Effect.ending?, hd]
      | _ => rfl
  | answer _ h => exact hgoing rfl (hp.outcome?_of_answers h)
  | _ => exact hgoing rfl hn

/-- **A step at the top level is over once**, and no other one is over meanwhile. -/
theorem Run.tops (hp : Task.Placed root 0 st.task) (hn : st.task.outcome? = none)
    (hr : Passage.Run S a st h st') :
    ∃ ms, Happening.tops h = (st'.task.outcome?.map fun o => ⟨root, 0, o, ms⟩).toList ∧
      st'.Lasts ms := by
  induction hr with
  | refl => exact ⟨0, by rw [hn]; rfl, .of_none hn 0⟩
  | @step st x st₁ h st' hs hr ih =>
    obtain ⟨ms, htops, hms⟩ := hs.tops hp hn
    rw [Happening.tops_cons, htops]
    cases ho : st₁.task.outcome? with
    | none => exact ih (hs.placed hp) ho
    | some o =>
      refine ⟨ms, ?_, ?_⟩
      · rw [hr.tops_of_over ho, hr.task_of_over ho, ho]
        rfl
      · unfold Lasts at hms ⊢
        rwa [hr.task_of_over ho]

end Passage

/-! ### Steps that are begun -/

namespace System

variable {α : Type} {S : Surroundings}

/-- The step at the top level that a system begins by its next move. -/
def begins? (s : System α) : Option WorkflowEngine.Step :=
  match s.main with
  | .program (.ask (.runStep _ step _) _) => some step
  | _ => none

/-- **A history of a system, with the steps at the top level that are begun in it.** -/
inductive Course (S : Surroundings) :
    System α → List Happening → List WorkflowEngine.Step → System α → Prop where
  | refl (s) : Course S s [] [] s
  | step {s x s' h l s''} (hs : Step S s x s') (hr : Course S s' h l s'') :
      Course S s (x :: h) (s.begins?.toList ++ l) s''

variable {s s' : System α} {h : List Happening} {l : List WorkflowEngine.Step}

theorem Course.run (hr : Course S s h l s') : Run S s h s' := by
  induction hr with
  | refl => exact .refl _
  | step hs _ ih => exact .step hs ih

theorem Run.exists_course (hr : Run S s h s') : ∃ l, Course S s h l s' := by
  induction hr with
  | refl => exact ⟨[], .refl _⟩
  | step hs _ ih =>
    obtain ⟨l, hl⟩ := ih
    exact ⟨_, .step hs hl⟩

/-- While a step is run, no other one is begun at the top level. -/
theorem Course.of_toSystem {st : Passage} {a : Assignment}
    {next : Outcome × Context → Program α} (hr : Course S (st.toSystem a next) h l s') :
    (∃ st', Passage.Run S a st h st' ∧ s' = st'.toSystem a next ∧ l = []) ∨
    ∃ h₁ st' o h₂, Passage.Run S a st h₁ st' ∧ st'.task.outcome? = some o ∧
      h = h₁ ++ .moved [] (st'.task.around []) .silent none :: h₂ ∧
      Course S ⟨st'.world, .program (next (o, st'.task.context)), st'.leaves⟩ h₂ l s' := by
  generalize hs : st.toSystem a next = s at hr
  induction hr generalizing st with
  | refl => exact .inl ⟨st, .refl st, hs.symm, rfl⟩
  | @step _ x s₁ h l s'' hx hr ih =>
    subst hs
    rcases hx.of_toSystem with ⟨st', hst, rfl⟩ | ⟨o, ho, rfl, rfl⟩
    · rcases ih rfl with ⟨st'', hr', he, rfl⟩ | ⟨h₁, st'', o, h₂, hr', ho, he, hr''⟩
      · exact .inl ⟨st'', .step hst hr', he, rfl⟩
      · exact .inr ⟨x :: h₁, st'', o, h₂, .step hst hr', ho, by rw [he]; rfl, hr''⟩
    · exact .inr ⟨[], st, o, h, .refl st, ho, rfl, hr⟩

end System

namespace Program

variable {α β : Type}

/-- **The steps that a program may begin**, one after the other: what is served is served by the
world, and a step at the top level may leave any world behind. -/
inductive MayBegin : Program α → World → List Step → Prop where
  | nothing {p w} : MayBegin p w []
  | serve {r k w reply w' l} (hs : w.serve r = some (reply, w')) (h : MayBegin (k reply) w' l) :
      MayBegin (.ask r k) w l
  | runStep {a s c k w x w' l} (h : MayBegin (k x) w' l) :
      MayBegin (.ask (.runStep a s c) k) w (s :: l)

end Program

/-- **The steps that are begun in a history are some that the program may begin**, and if the
program has ended, they are the ones that are over. -/
theorem System.Course.mayBegin {α : Type} {S : Surroundings} {p : Program α} {w : World}
    {h : List Happening} {l : List WorkflowEngine.Step} {s : System α}
    (hr : Course S (.ofProgram w p) h l s) :
    p.MayBegin w l ∧ ((s.result?).isSome = true → l = (Happening.tops h).map Ending.step) := by
  -- by induction on the length: a step takes several happenings at once
  generalize hn : h.length = n
  induction n using Nat.strongRecOn generalizing p w h l with
  | ind n ih =>
    subst hn
    cases hr with
    | refl => exact ⟨.nothing, fun _ => rfl⟩
    | @step _ x s₁ h l _ hx hr =>
      obtain ⟨rfl, ⟨r, k, reply, w', rfl, hs, rfl⟩ | ⟨a, step, c, k, rfl, rfl⟩⟩ := hx.of_program
      · have hb : (System.ofProgram w (.ask r k)).begins? = none := by
          cases r <;> first | rfl | cases hs
        obtain ⟨hl, ho⟩ := ih h.length (by simp) hr rfl
        rw [hb]
        exact ⟨.serve hs hl, ho⟩
      · have hb : (System.ofProgram w (.ask (.runStep a step c) k)).begins? = some step := rfl
        rw [hb]
        rcases hr.of_toSystem with ⟨st, hst, rfl, rfl⟩ | ⟨h₁, st, o, h₂, hst, ho, rfl, hr'⟩
        · have hrest : (k (.error .cancelled, c)).MayBegin w [] := .nothing
          exact ⟨.runStep hrest, nofun⟩
        · have hleaves : st.leaves = [] :=
            ((Passage.Sound.start w step c 0).run hst).leaves_eq_nil ho
          rw [hleaves] at hr'
          obtain ⟨hl, hd⟩ := ih h₂.length (by simp; omega) hr' rfl
          refine ⟨.runStep hl, fun hresult => ?_⟩
          obtain ⟨ms, htops, -⟩ := hst.tops (.start step c 0) rfl
          rw [ho] at htops
          rw [Happening.tops_silent_cons, Happening.tops_append, htops, Happening.tops_cons,
            hd hresult]
          rfl

namespace Program.MayBegin

variable {α β : Type} {w : World} {l : List Step}

theorem of_done {a : α} (h : MayBegin (.done a) w l) : l = [] := by
  cases h
  rfl

/-- One program after the other. -/
theorem bind {p : Program α} {f : α → Program β} (h : MayBegin (p.bind f) w l) :
    ∃ l₁ l₂, l = l₁ ++ l₂ ∧ MayBegin p w l₁ ∧ (l₂ = [] ∨ ∃ a w', MayBegin (f a) w' l₂) := by
  induction p generalizing w l with
  | done a => exact ⟨[], l, rfl, .nothing, .inr ⟨a, w, h⟩⟩
  | ask r k ih =>
    cases h with
    | nothing => exact ⟨[], [], rfl, .nothing, .inl rfl⟩
    | serve hs h =>
      obtain ⟨l₁, l₂, rfl, hp, hf⟩ := ih _ h
      exact ⟨l₁, l₂, rfl, .serve hs hp, hf⟩
    | runStep h =>
      obtain ⟨l₁, l₂, rfl, hp, hf⟩ := ih _ h
      exact ⟨_ :: l₁, l₂, rfl, .runStep hp, hf⟩

/-- A program that ends without waiting begins nothing. -/
theorem of_perform {p : Program α} {f : α → Program β} {a : α} {w' : World}
    (h : MayBegin (p.bind f) w l) (hp : w.perform p = some (a, w')) :
    l = [] ∨ MayBegin (f a) w' l := by
  induction p generalizing w with
  | done b =>
    cases hp
    exact .inr h
  | ask r k ih =>
    rw [World.perform] at hp
    cases h with
    | nothing => exact .inl rfl
    | serve hs h =>
      rw [hs] at hp
      exact ih _ h hp
    | runStep => cases hp

/-- **What ends without waiting is done before the rest**, which is all that begins steps. -/
theorem of_ends {p : Orchestration α} {f : α → Orchestration β}
    {post : Except RunError α → World → Prop} (h : MayBegin (ExceptT.run (p >>= f)) w l)
    (hp : w.Ends p post) :
    l = [] ∨ ∃ a w', post (.ok a) w' ∧ MayBegin (ExceptT.run (f a)) w' l := by
  obtain ⟨r, w', hp, hpost⟩ := hp
  rcases of_perform (p := ExceptT.run p) h hp with rfl | h
  · exact .inl rfl
  cases r with
  | ok a => exact .inr ⟨a, w', hpost, h⟩
  | error e => exact .inl h.of_done

end Program.MayBegin

namespace Orchestration

variable {α β : Type} {steps : List Step}

/-- **A program begins steps of a list in their order**, each once, whatever it is told. -/
def Takes (steps : List Step) (p : Orchestration α) : Prop :=
  ∀ w l, Program.MayBegin (ExceptT.run p) w l → l <+: steps

/-- A plain program begins no step. -/
theorem Takes.of_plain {p : Orchestration α} (hp : p.IsPlain) : Takes steps p := by
  intro w l h
  obtain ⟨r, w', hw, -⟩ := hp.performs w
  rw [← Program.bind_done (ExceptT.run p)] at h
  rcases h.of_perform hw with rfl | h
  · exact List.nil_prefix
  · rw [h.of_done]
    exact List.nil_prefix

theorem Takes.plain_bind {p : Orchestration α} {f : α → Orchestration β} (hp : p.IsPlain)
    (hf : ∀ x, Takes steps (f x)) : Takes steps (p >>= f) := by
  intro w l h
  obtain ⟨r, w', hw, -⟩ := hp.performs w
  have hends : w.Ends p fun _ _ => True := ⟨r, w', hw, trivial⟩
  rcases h.of_ends hends with rfl | ⟨x, w₁, -, h⟩
  · exact List.nil_prefix
  · exact hf x w₁ l h

theorem Takes.runStep_bind {a : Assignment} {s : Step} {c : Context}
    {f : Outcome × Context → Orchestration β} (hf : ∀ x, Takes steps (f x)) :
    Takes (s :: steps) (lift (Program.request (.runStep a s c)) >>= f) := by
  intro w l h
  have h : Program.MayBegin (.ask (.runStep a s c) fun x => ExceptT.run (f x)) w l := h
  cases h with
  | nothing => exact List.nil_prefix
  | serve hs => cases hs
  | runStep hrest => exact List.cons_prefix_cons.mpr ⟨rfl, hf _ _ _ hrest⟩

theorem takes_runSteps (a : Assignment) (totalSteps : Nat) (steps : List Step) (c : Context) :
    Takes steps (runSteps a totalSteps steps c) := by
  induction steps generalizing c with
  | nil =>
    rw [runSteps]
    refine .plain_bind (isPlain_cancelRequested _) fun cancelled => ?_
    cases cancelled
    · exact .of_plain (isPlain_finishCompleted _ _)
    · exact .of_plain (isPlain_finishCancelled _ _ _)
  | cons s steps ih =>
    rw [runSteps]
    refine .plain_bind (isPlain_load _) fun e => ?_
    refine .plain_bind (.lift (.request .isCancelled)) fun cancelled => ?_
    split
    · exact .of_plain (isPlain_finishCancelled _ _ _)
    refine .plain_bind (isPlain_update _ _) fun _ => ?_
    refine .runStep_bind fun x => ?_
    -- what is begun from here on is among the rest of the steps
    obtain ⟨o, c⟩ := x
    dsimp only
    split
    · exact .of_plain (isPlain_finishCancelled _ _ _)
    refine .plain_bind (isPlain_announceStep _ _ _ _ _) fun _ => ?_
    refine .plain_bind (isPlain_persist _ _) fun _ => ?_
    split
    · exact ih c
    · refine .plain_bind (isPlain_cancelRequested _) fun cancelled => ?_
      cases cancelled
      · simp only [Bool.false_eq_true, if_false]
        split
        · exact ih c
        · exact .of_plain (isPlain_finishFailed _ _ _ _)
      · exact .of_plain (isPlain_finishCancelled _ _ _)

theorem takes_drive (engine : Expr.Engine) (e : Execution) (v : Workflow) :
    Takes v.steps (drive engine e v) := by
  rw [drive]
  refine .plain_bind (.stored (.request .getWorkItem)) fun item => ?_
  split
  · exact .of_plain (.bind (isPlain_markFailed _ _) fun _ => .throw _)
  · exact .plain_bind (.lift (.request .emit)) fun _ => takes_runSteps _ _ _ _

/-- A program that ends its run takes no more steps than it did. -/
theorem Takes.ending {p : Orchestration α} (hp : Takes steps p) (id : Uuid) :
    Takes steps (ending id p) := by
  intro w l h
  obtain ⟨l₁, l₂, rfl, h₁, h₂⟩ := Program.MayBegin.bind (p := ExceptT.run p) h
  have hl₂ : l₂ = [] := by
    rcases h₂ with rfl | ⟨r, w₁, h⟩
    · rfl
    have h : Program.MayBegin (.ask (.endRun id) fun _ => .done r) w₁ l₂ := h
    cases h with
    | nothing => rfl
    | serve _ h => exact h.of_done
  rw [hl₂, List.append_nil]
  exact hp w l₁ h₁

end Orchestration

/-- The steps at the top level of the resolved workflow of an id, none if it has errors. -/
def Store.stepsOf (s : Store) (workflowId : String) : List Step :=
  match s.resolved workflowId with
  | .ok v => v.steps
  | .error _ => []

/-- The steps of a workflow without errors have distinct ids. -/
theorem Store.nodup_stepsOf (s : Store) (workflowId : String) :
    ((s.stepsOf workflowId).map Step.id).Nodup := by
  unfold stepsOf
  cases hv : s.resolved workflowId with
  | error e => exact List.nodup_nil
  | ok v =>
    unfold Store.resolved at hv
    split at hv
    next u hu =>
      simp only [Workflow.checked] at hv
      split at hv
      next hvalid =>
        obtain rfl := Except.ok.inj hv
        exact (Workflow.isValid_validate_iff.mp hvalid).steps.distinct
      next => cases hv
    next => cases hv

/-- **A run begins steps of its workflow in their order**, each once. -/
theorem Program.MayBegin.prefix_of_run {engine : Expr.Engine} {id : Uuid} {w : World}
    {e : Execution} {l : List Step} (hrec : w.record? id = some e)
    (h : MayBegin (ExceptT.run (Orchestration.run engine id)) w l) :
    l <+: w.store.stepsOf e.workflowId := by
  rw [Orchestration.run] at h
  rcases h.of_ends (World.ends_load hrec) with rfl | ⟨e₁, w₁, ⟨hw₁, he₁ | ⟨-, err, he₁⟩⟩, h⟩
  · exact List.nil_prefix
  · cases he₁
    cases ht : e.status.isTerminal with
    | true =>
      simp only [ht, if_true] at h
      rw [h.of_done]
      exact List.nil_prefix
    | false =>
      simp only [ht, Bool.false_eq_true, if_false] at h
      obtain ⟨r, w₂, hp, -, hr⟩ := w₁.ends_runnable_resolved e.workflowId
      rcases h.of_ends (World.ends_lift hp) with rfl | ⟨_, _, ⟨⟨⟩, rfl⟩, h⟩
      · exact List.nil_prefix
      cases r with
      | error err =>
        exact Orchestration.Takes.of_plain
          (.bind (Orchestration.isPlain_markFailed _ _) fun _ => .throw _) _ l h
      | ok v =>
        -- the workflow that is run is the resolved one
        have hv : w.store.stepsOf e.workflowId = v.steps := by
          rw [Store.stepsOf, ← hw₁.store, hr v rfl]
        rw [hv]
        exact Orchestration.Takes.plain_bind (.lift (.request .beginRun))
          (fun _ => (Orchestration.takes_drive engine e v).ending id) _ l h
  · cases he₁

/-! ### What is kept and what is told -/

/-- What a result says of a step: its id, how it ended, and its error. -/
def StepResult.report (r : StepResult) : String × StepStatus × Option String :=
  (r.stepId, r.status, r.error)

/-- What is announced of a step at the top level: its id, how it ended, and its error. -/
def EventData.report? : EventData → Option (String × StepStatus × Option String)
  | .stepExecuted stepId _ status _ 0 error => some (stepId, status, error)
  | _ => none

/-- **What is announced of a step at the top level is what its result says.** -/
theorem EventData.report?_ofOutcome (s : Step) (o : Outcome) (ms : Nat) :
    (EventData.ofOutcome s 0 o ms).report? = some (StepResult.ofOutcome s.id o ms).report := by
  cases o with
  | error e => rfl
  | ok output => cases output <;> rfl

theorem EventData.report?_of_depth {d : Nat} (hd : d ≠ 0) (s : Step) (o : Outcome) (ms : Nat) :
    (EventData.ofOutcome s d o ms).report? = none := by
  cases d with
  | zero => exact absurd rfl hd
  | succ d => rfl

namespace World

/-- What the events of a run tell of steps at the top level, in their order. -/
def reports (w : World) (id : Uuid) : List (String × StepStatus × Option String) :=
  (w.eventsOf id).filterMap fun ev => ev.data.report?

variable {w w' : World} {id : Uuid}

theorem reports_of_events (h : w'.eventsOf id = w.eventsOf id) : w'.reports id = w.reports id := by
  rw [reports, h, reports]

theorem reports_emit (data : EventData) :
    (w.emit id data).reports id = w.reports id ++ data.report?.toList := by
  rw [reports, eventsOf_emit, List.filterMap_append]
  cases h : data.report? <;> simp [reports, nextEvent, Event.announce, h]

theorem reports_announced (s : Step) (d : Nat) (o : Outcome) (ms : Nat) :
    (w.announced id s d o ms).reports id =
      w.reports id ++ (EventData.ofOutcome s d o ms).report?.toList := by
  rw [← reports_emit]
  unfold announced
  split
  · exact reports_of_events (like_note rfl).events
  · rfl

/-- **The record of a run has certain results, and its events tell certain things of steps at the
top level.** No call of the store is going to fail. -/
structure Shows (id : Uuid) (results : List StepResult)
    (reports : List (String × StepStatus × Option String)) (w : World) : Prop where
  record : ∃ e, w.record? id = some e ∧ e.stepResults = results
  reports : w.reports id = reports
  faults : w.faults = []

variable {results : List StepResult} {reports : List (String × StepStatus × Option String)}

theorem Shows.like (h : w.Shows id results reports) (hl : Like id w w') {e : Execution}
    (hr : w'.record? id = some e) : w'.Shows id e.stepResults reports :=
  ⟨⟨e, hr, rfl⟩, (reports_of_events hl.events).trans h.reports, hl.faults h.faults⟩

theorem Shows.emit (h : w.Shows id results reports) {data : EventData}
    (hd : data.report? = none) : (w.emit id data).Shows id results reports := by
  refine ⟨h.record, ?_, h.faults⟩
  rw [reports_emit, hd, h.reports]
  exact List.append_nil _

/-- A step at the top level is announced. -/
theorem Shows.announced (h : w.Shows id results reports) (s : Step) (o : Outcome) (ms : Nat) :
    (w.announced id s 0 o ms).Shows id results
      (reports ++ [(StepResult.ofOutcome s.id o ms).report]) := by
  refine ⟨?_, ?_, ?_⟩
  · obtain ⟨e, hr, he⟩ := h.record
    refine ⟨e, ?_, he⟩
    unfold World.announced
    split <;> exact hr
  · rw [reports_announced, EventData.report?_ofOutcome, h.reports]
    rfl
  · unfold World.announced
    split <;> exact h.faults

/-- **A history adds the results and reports of the steps at the top level that are over in it.** -/
def ShowsAfter (id : Uuid) (results : List StepResult)
    (reports : List (String × StepStatus × Option String)) (h : List Happening) (w : World) :
    Prop :=
  w.Shows id (results ++ Ending.results (Happening.tops h))
    (reports ++ (Ending.results (Happening.tops h)).map StepResult.report)

theorem ShowsAfter.silent_append {h h' : List Happening} (hh : ∀ x ∈ h, x = .silent)
    (hw : w.ShowsAfter id results reports h') : w.ShowsAfter id results reports (h ++ h') := by
  unfold ShowsAfter
  rwa [Happening.tops_append, Happening.tops_of_silent hh]

theorem ShowsAfter.silent_cons {h : List Happening} (hw : w.ShowsAfter id results reports h) :
    w.ShowsAfter id results reports (.silent :: h) := hw

/-- Nothing is kept of a step that ended as cancelled. -/
theorem ShowsAfter.of_cancelled {h h' : List Happening} {s : Step} {o : Outcome} {ms : Nat}
    (htops : Happening.tops h = ⟨s, 0, o, ms⟩ :: Happening.tops h') (ho : o.isCancelled = true)
    (hw : w.ShowsAfter id results reports h') : w.ShowsAfter id results reports h := by
  have hresults : Ending.results (⟨s, 0, o, ms⟩ :: Happening.tops h') =
      Ending.results (Happening.tops h') := by
    simp [Ending.results, Ending.result?, ho]
  unfold ShowsAfter
  rwa [htops, hresults]

/-- The result of a step comes before those of the steps behind it. -/
theorem ShowsAfter.of_kept {h h' : List Happening} {s : Step} {o : Outcome} {ms : Nat}
    (htops : Happening.tops h = ⟨s, 0, o, ms⟩ :: Happening.tops h') (ho : o.isCancelled = false)
    (hw : w.ShowsAfter id (results ++ [.ofOutcome s.id o ms])
      (reports ++ [(StepResult.ofOutcome s.id o ms).report]) h') :
    w.ShowsAfter id results reports h := by
  have hresults : Ending.results (⟨s, 0, o, ms⟩ :: Happening.tops h') =
      .ofOutcome s.id o ms :: Ending.results (Happening.tops h') := by
    simp [Ending.results, Ending.result?, ho]
  unfold ShowsAfter
  rwa [htops, hresults, List.map_cons, List.append_cons results, List.append_cons reports]

/-! ### Programs between steps -/

variable {a : Assignment}

theorem Shows.ends_load (h : w.Shows id results reports) :
    w.Ends (Orchestration.load id) fun r w' =>
      (∃ e, r = .ok e ∧ w.record? id = some e ∧ e.stepResults = results) ∧ w' = w := by
  obtain ⟨e, hr, he⟩ := h.record
  refine ((World.ends_load hr).of_faults h.faults).mono ?_
  rintro r w' ⟨hok, hw⟩
  exact ⟨⟨e, hok, hr, he⟩, hw⟩

theorem Shows.ends_update (h : w.Shows id results reports) {e : Execution}
    (change : Execution → Timestamp → Execution) (hid : ∀ now, (change e now).id = id) :
    w.Ends (Orchestration.update e change) fun r w' => ∃ now, r = .ok (change e now) ∧
      w'.Shows id (change e now).stepResults reports := by
  obtain ⟨old, hr, -⟩ := h.record
  refine (World.ends_update change hr (hid w.now)).mono ?_
  rintro r w' ⟨hl, ⟨hok, hr'⟩ | ⟨⟨hne, -⟩, -⟩⟩
  · exact ⟨w.now, hok, h.like hl hr'⟩
  · exact absurd h.faults hne

theorem Shows.ends_finishCancelled (h : w.Shows a.executionId results reports)
    (totalSteps : Nat) (stepId : Option String) :
    w.Ends (Orchestration.finishCancelled a totalSteps stepId) fun _ w' =>
      w'.Shows a.executionId results reports := by
  obtain ⟨e, hr, rfl⟩ := h.record
  refine World.ends_finishCancelled hr stepId (fun _ w₁ hl hr₁ => ?_) (fun _ now w₁ hl hr₁ => ?_)
    fun r w₁ hs => absurd h.faults hs.fails.1
  · exact (h.like hl hr₁).emit rfl
  · exact (h.like hl hr₁).emit rfl

theorem Shows.ends_finishTerminal (h : w.Shows a.executionId results reports) (totalSteps : Nat)
    (status : Status) (stepId : Option String) :
    w.Ends (Orchestration.finishTerminal a totalSteps status stepId) fun _ w' =>
      w'.Shows a.executionId results reports := by
  cases status with
  | cancelled => exact h.ends_finishCancelled totalSteps stepId
  | _ => exact .throw h

theorem Shows.ends_finishFailed (h : w.Shows a.executionId results reports) (totalSteps : Nat)
    (stepId : String) (error : StepError) :
    w.Ends (Orchestration.finishFailed a totalSteps stepId error) fun _ w' =>
      w'.Shows a.executionId results reports := by
  obtain ⟨e, hr, rfl⟩ := h.record
  refine World.ends_finishFailed hr stepId error (fun _ w₁ hw => ?_) (fun _ now w₁ hl hr₁ => ?_)
    fun r w₁ hs => absurd h.faults hs.fails.1
  · rw [hw.same h.faults]
    exact h.ends_finishTerminal totalSteps e.status (some stepId)
  · exact (h.like hl hr₁).emit rfl

theorem Shows.ends_finishCompleted (h : w.Shows a.executionId results reports)
    (totalSteps : Nat) :
    w.Ends (Orchestration.finishCompleted a totalSteps) fun _ w' =>
      w'.Shows a.executionId results reports := by
  obtain ⟨e, hr, rfl⟩ := h.record
  refine World.ends_finishCompleted hr (fun _ w₁ hw => ?_) (fun _ now w₁ hl hr₁ => ?_)
    fun r w₁ hs => absurd h.faults hs.fails.1
  · rw [hw.same h.faults]
    exact h.ends_finishTerminal totalSteps e.status none
  · exact (h.like hl hr₁).emit rfl

theorem Shows.ends_markFailed (h : w.Shows id results reports) (error : String) :
    w.Ends (Orchestration.markFailed id error) fun _ w' => w'.Shows id results reports := by
  obtain ⟨e, hr, rfl⟩ := h.record
  refine World.ends_markFailed hr error (fun _ w₁ hw => ?_) (fun _ now w₁ hl hr₁ => ?_)
    fun r w₁ hs => absurd h.faults hs.fails.1
  · rwa [hw.same h.faults]
  · exact (h.like hl hr₁ :)

/-- **A result is kept behind those that are there.** -/
theorem Shows.ends_persist (h : w.Shows id results reports) (x : StepResult) :
    w.Ends (Orchestration.persist id x) fun r w' => r = .ok () ∧
      w'.Shows id (results ++ [x]) reports := by
  obtain ⟨e, hr, rfl⟩ := h.record
  exact World.ends_persist hr x (fun now w₁ hl hr₁ => ⟨rfl, h.like hl hr₁⟩)
    fun r w₁ hs => absurd h.faults hs.fails.1

theorem Shows.ends_cancelRequested (h : w.Shows id results reports) :
    w.Ends (Orchestration.cancelRequested id) fun r w' => (∃ b, r = .ok b) ∧ w' = w := by
  obtain ⟨e, hr, -⟩ := h.record
  refine ((World.ends_cancelRequested hr).of_faults h.faults).mono ?_
  rintro r w' ⟨hr', hw⟩
  exact ⟨⟨_, hr'⟩, hw⟩

end World

/-! ### Running -/

variable {engine : Expr.Engine} {config : Config} {id : Uuid}
  {rule : Execution → Execution → Prop} {results : List StepResult}
  {reports : List (String × StepStatus × Option String)}

/-- **Nothing is kept or told of steps at the top level while one is run**: what others do to the
record leaves its results alone. -/
theorem Passage.Step.shows {a : Assignment} {st st' : Passage} {x : Happening}
    (hrule : ∀ e e', rule e e' → e'.stepResults = e.stepResults) (ha : a.executionId = id)
    (hl : st.LeavesAsk a) (hs : Passage.Step (.ofRun engine config id rule) a st x st')
    (h : st.world.Shows id results reports) : st'.world.Shows id results reports := by
  subst ha
  cases hs with
  | @advance path ms t e _ hm =>
    show ((Setting.ofConfig engine config).observe a st.world e).Shows _ _ _
    cases e with
    | finished s d o ms =>
      rw [Setting.observe_finished]
      have hn : (st.world.note (.finished s.id d o)).Shows a.executionId results reports :=
        ⟨h.record, (World.reports_of_events (World.like_note rfl).events).trans h.reports, h.faults⟩
      split
      · exact hn
      next hd =>
        -- a step that is told of is not at the top level
        have hd : d ≠ 0 := by
          rintro rfl
          exact hd rfl
        unfold World.announced
        have he := hn.emit (EventData.report?_of_depth hd s o ms)
        split
        · exact ⟨he.record, (World.reports_of_events (World.like_note rfl).events).trans he.reports,
            he.faults⟩
        · exact he
    | _ => exact h
  | call => exact h
  | @serve path r k reply w' hl' hserve =>
    cases (hl _ _ hl').1 with
    | isCancelled => cases hserve; exact h
    | paused => cases hserve; exact h.emit rfl
    | resumed => cases hserve; exact h.emit rfl
    | execute => cases hserve
    | awaitApproval => cases hserve
  | answer => exact h
  | release => exact h
  | tell => exact h
  | cancel _ hc =>
    obtain ⟨e, hr, he⟩ := h.record
    obtain ⟨r', w'', hc', hev, hf, hcases⟩ := World.ends_cancel hr
    cases hc'.symm.trans hc
    refine ⟨?_, (World.reports_of_events hev).trans h.reports, hf h.faults⟩
    rcases hcases with ⟨-, -, -, now, hr'⟩ | ⟨-, -, hr'⟩
    · exact ⟨_, hr', he⟩
    · exact ⟨e, hr', he⟩
  | outside _ hm =>
    obtain ⟨e, hr, he⟩ := h.record
    obtain ⟨e', hr', hchange⟩ := hm.record e hr
    rw [← he, ← hrule e e' hchange]
    exact h.like hm.like hr'

theorem Passage.Run.shows {a : Assignment} {st st' : Passage} {h : List Happening}
    (hrule : ∀ e e', rule e e' → e'.stepResults = e.stepResults) (ha : a.executionId = id)
    (hl : st.LeavesAsk a) (hr : Passage.Run (.ofRun engine config id rule) a st h st')
    (hw : st.world.Shows id results reports) : st'.world.Shows id results reports := by
  induction hr with
  | refl => exact hw
  | step hs _ ih => exact ih (hl.step hs) (hs.shows hrule ha hl hw)

namespace Program.Reaches

variable {a : Assignment} {w w' : World} {h : List Happening}

/-- A program that ends without waiting adds nothing. -/
theorem showsAfter_of_ends {S : Surroundings} {α : Type} {p : Orchestration α}
    {r : Except RunError α} (hr : Reaches S (ExceptT.run p) w h (.ofProgram w' (.done r)))
    (hp : w.Ends p fun _ w' => w'.Shows id results reports) :
    w'.ShowsAfter id results reports h := by
  obtain ⟨r', w₁, hshows, he, hh⟩ := hr.done_of_ends trivial hp
  cases he
  rw [← List.append_nil h]
  refine .silent_append hh ?_
  unfold World.ShowsAfter
  simpa [Ending.results] using hshows

/-- **The steps at the top level leave their results and reports**, in the order in which they are
over. -/
theorem showsAfter_of_runSteps {totalSteps : Nat} {steps : List Step} {c : Context}
    {r : Except RunError Summary}
    (hrule : ∀ e e', rule e e' → e'.stepResults = e.stepResults)
    (hw : w.Shows a.executionId results reports)
    (hr : Reaches (.ofRun engine config a.executionId rule)
      (ExceptT.run (Orchestration.runSteps a totalSteps steps c)) w h (.ofProgram w' (.done r))) :
    w'.ShowsAfter a.executionId results reports h := by
  induction steps generalizing c w h results reports with
  | nil =>
    rw [Orchestration.runSteps] at hr
    rcases hr.of_ends trivial hw.ends_cancelRequested with
      ⟨b, w₁, h₁, h₂, ⟨-, rfl⟩, hr₁, rfl, hh₁⟩ | ⟨_, _, ⟨⟨_, ⟨⟩⟩, -⟩, -⟩
    refine .silent_append hh₁ ?_
    cases b with
    | true => exact hr₁.showsAfter_of_ends (hw.ends_finishCancelled totalSteps none)
    | false => exact hr₁.showsAfter_of_ends (hw.ends_finishCompleted totalSteps)
  | cons s steps ih =>
    rw [Orchestration.runSteps] at hr
    rcases hr.of_ends trivial hw.ends_load with
      ⟨e, w₁, h₁, _, ⟨⟨_, ⟨⟩, hrec, rfl⟩, rfl⟩, hr₁, rfl, hh₁⟩ | ⟨_, _, ⟨⟨_, ⟨⟩, -⟩, -⟩, -⟩
    refine .silent_append hh₁ ?_
    obtain ⟨h₂, hr₂, rfl⟩ := hr₁.of_lift (r := .isCancelled a.executionId) trivial rfl
    refine .silent_cons ?_
    split at hr₂
    · exact hr₂.showsAfter_of_ends (hw.ends_finishCancelled totalSteps (some s.id))
    have hid := World.id_of_record? hrec
    rcases hr₂.of_ends trivial
        (hw.ends_update (fun e now => e.atStep s.id now) fun _ => hid) with
      ⟨_, w₂, h₃, _, ⟨now, ⟨⟩, hw₂⟩, hr₃, rfl, hh₃⟩ | ⟨_, _, ⟨_, ⟨⟩, -⟩, -⟩
    refine .silent_append hh₃ ?_
    obtain ⟨st, o, h₄, h₅, hst, ho, hr₄, rfl⟩ := hr₃.of_runStep
    have hw₃ := hst.shows hrule rfl (by rintro path p ⟨⟩) hw₂
    obtain ⟨ms, hover, hms⟩ := hst.tops (.start s _ 0) rfl
    have htops : Happening.tops
        (.silent :: (h₄ ++ .moved [] (st.task.around []) .silent none :: h₅)) =
          ⟨s, 0, o, ms⟩ :: Happening.tops h₅ := by
      rw [ho] at hover
      rw [Happening.tops_silent_cons, Happening.tops_append, hover, Happening.tops_cons _ h₅]
      rfl
    dsimp only at hr₄
    cases hcancelled : o.isCancelled with
    | true =>
      simp only [hcancelled, if_true] at hr₄
      exact .of_cancelled htops hcancelled
        (hr₄.showsAfter_of_ends (hw₃.ends_finishCancelled totalSteps (some s.id)))
    | false =>
      simp only [hcancelled, Bool.false_eq_true, if_false] at hr₄
      rw [hms o ho hcancelled] at hr₄
      refine .of_kept htops hcancelled ?_
      -- the step is announced, and then its result is kept
      rcases hr₄.of_ends trivial (World.ends_lift (World.perform_announceStep _ a s 0 o ms)) with
        ⟨_, w₄, h₆, _, ⟨-, rfl⟩, hr₅, rfl, hh₆⟩ | ⟨_, _, ⟨⟨⟩, -⟩, -⟩
      refine .silent_append hh₆ ?_
      have hw₄ := hw₃.announced s o ms
      rcases hr₅.of_ends trivial (hw₄.ends_persist (.ofOutcome s.id o ms)) with
        ⟨_, w₅, h₇, _, ⟨-, hw₅⟩, hr₆, rfl, hh₇⟩ | ⟨_, _, ⟨⟨⟩, -⟩, -⟩
      refine .silent_append hh₇ ?_
      cases hf : o.failure? with
      | none =>
        rw [hf] at hr₆
        exact ih hw₅ hr₆
      | some error =>
        rw [hf] at hr₆
        rcases hr₆.of_ends trivial hw₅.ends_cancelRequested with
          ⟨b, w₆, h₈, _, ⟨-, rfl⟩, hr₇, rfl, hh₈⟩ | ⟨_, _, ⟨⟨_, ⟨⟩⟩, -⟩, -⟩
        refine .silent_append hh₈ ?_
        cases b with
        | true => exact hr₇.showsAfter_of_ends (hw₅.ends_finishCancelled totalSteps (some s.id))
        | false =>
          simp only [Bool.false_eq_true, if_false] at hr₇
          split at hr₇
          · exact ih hw₅ hr₇
          · exact hr₇.showsAfter_of_ends (hw₅.ends_finishFailed totalSteps s.id error)

/-- **A run leaves the results and reports of its steps at the top level**, also if it cannot
begin. -/
theorem showsAfter_of_run {e : Execution} {r : Except RunError Summary}
    (hrule : ∀ e e', rule e e' → e'.stepResults = e.stepResults) (hf : w.faults = [])
    (hrec : w.record? id = some e)
    (hr : Reaches (.ofRun engine config id rule) (ExceptT.run (Orchestration.run engine id)) w h
      (.ofProgram w' (.done r))) :
    w'.ShowsAfter id e.stepResults (w.reports id) h := by
  have hw : w.Shows id e.stepResults (w.reports id) := ⟨⟨e, hrec, rfl⟩, rfl, hf⟩
  rw [Orchestration.run] at hr
  obtain ⟨h₁, h₂, hr₁, rfl, hh₁⟩ := hr.of_ends_ok trivial ((World.ends_load hrec).of_faults hf)
  refine .silent_append hh₁ ?_
  cases ht : e.status.isTerminal with
  | true =>
    simp only [ht, if_true] at hr₁
    exact showsAfter_of_ends (p := throw _) hr₁ (.throw hw)
  | false =>
    simp only [ht, Bool.false_eq_true, if_false] at hr₁
    obtain ⟨v, w₁, hp, -, rfl⟩ := (w.ends_runnable e.workflowId).of_faults hf
    obtain ⟨h₃, h₄, hr₂, rfl, hh₃⟩ := hr₁.of_ends_ok trivial (World.ends_lift hp)
    refine .silent_append hh₃ ?_
    cases v with
    | error error =>
      refine hr₂.showsAfter_of_ends ((hw.ends_markFailed error.message).bind ?_ fun _ _ h => h)
      rintro _ w₂ hw₂
      exact .throw hw₂
    | ok v =>
      obtain ⟨h₅, hr₃, rfl⟩ := hr₂.of_lift (r := .beginRun id) trivial rfl
      obtain ⟨w₂, h₆, hr₄, rfl, rfl⟩ := hr₃.of_ending
      rw [Orchestration.drive] at hr₄
      have hitem := World.ends_stored_look (w := w₁.beginRun id)
        (p := Program.request (.getWorkItem e.workItemId)) .getWorkItem
        (fun s => s.getWorkItem? e.workItemId) rfl
      obtain ⟨h₇, h₈, hr₅, rfl, hh₇⟩ := hr₄.of_ends_ok trivial (hitem.of_faults hf)
      have hbegun : (w₁.beginRun id).Shows id e.stepResults (w₁.reports id) :=
        ⟨hw.record, hw.reports, hw.faults⟩
      obtain rfl : e.id = id := World.id_of_record? hrec
      -- beginning and ending the run adds nothing
      suffices hshows : w₂.ShowsAfter e.id e.stepResults (w₁.reports e.id) h₈ by
        have htops : Happening.tops (.silent :: (h₇ ++ h₈ ++ [.silent])) = Happening.tops h₈ := by
          rw [Happening.tops_silent_cons, Happening.tops_append, Happening.tops_append,
            Happening.tops_of_silent hh₇, List.nil_append, Happening.tops_silent_cons,
            Happening.tops_nil, List.append_nil]
        unfold World.ShowsAfter at hshows ⊢
        rw [htops]
        exact ⟨hshows.record, hshows.reports, hshows.faults⟩
      split at hr₅
      next error _ =>
        refine hr₅.showsAfter_of_ends
          ((hbegun.ends_markFailed error.message).bind ?_ fun _ _ h => h)
        rintro _ w₃ hw₃
        exact .throw hw₃
      next c _ =>
        obtain ⟨h₉, hr₆, rfl⟩ := hr₅.of_lift
          (r := .emit e.id (.started e.workflowId e.workItemId v.steps.length)) trivial rfl
        exact .silent_cons (showsAfter_of_runSteps (a := ⟨e.id, e.workflowId, e.workItemId⟩) hrule
          (hbegun.emit rfl) hr₆)

end Program.Reaches

/-- **Results are kept once and in order.** The steps at the top level that a run begins are the
first ones of its workflow, in their order, each once. When the run has ended, its record has the
results that it had before and one for each step that did not end as cancelled, and the events of
the run tell of these steps and of no other ones at the top level, in the same order, each with the
id, the status and the error that its result has. Threads move and answers come in any order;
meanwhile others may cancel the run and change its record, but for its results. -/
theorem run_keeps_results {w : World} {e : Execution} {s : System (Except RunError Summary)}
    {h : List Happening} {begun : List Step}
    (hf : w.faults = []) (hrec : w.record? id = some e)
    (hrule : ∀ e e', rule e e' → e'.stepResults = e.stepResults)
    (hr : System.Course (.ofRun engine config id rule)
      (.ofProgram w (ExceptT.run (Orchestration.run engine id))) h begun s) :
    begun <+: w.store.stepsOf e.workflowId ∧ (begun.map Step.id).Nodup ∧
    (s.result?.isSome = true →
      begun = (Happening.tops h).map Ending.step ∧
      s.world.reports id =
        w.reports id ++ (Ending.results (Happening.tops h)).map StepResult.report ∧
      ∃ e', s.world.record? id = some e' ∧
        e'.stepResults = e.stepResults ++ Ending.results (Happening.tops h)) := by
  obtain ⟨hbegin, hover⟩ := hr.mayBegin
  have hbegun := hbegin.prefix_of_run hrec
  refine ⟨hbegun, ?_, fun hs => ?_⟩
  · exact (w.store.nodup_stepsOf e.workflowId).sublist (hbegun.map Step.id).sublist
  · obtain ⟨r, hresult⟩ := Option.isSome_iff_exists.mp hs
    have hreaches := hr.run.reaches
    obtain ⟨w', rfl⟩ : ∃ w', s = .ofProgram w' (.done r) := ⟨s.world, hreaches.eq_ofProgram hresult⟩
    have hshows := hreaches.showsAfter_of_run hrule hf hrec
    exact ⟨hover hs, hshows.reports, hshows.record⟩

/-- A workflow of two steps, which are handed out; failures of the first one do not count. -/
def Workflow.double : Workflow :=
  { Workflow.single default false with
    steps := [.simple ⟨"a", none, ⟨none, none, true⟩⟩ ⟨.command, "run", [], none, none⟩,
      .asking "b" "run"] }

/-- The first of two steps fails, which does not count, and the second one succeeds. -/
theorem run_keeps_results_double : ∃ h begun s e,
    System.Course (.ofRun .null {} ⟨1⟩ Eq)
      (.ofProgram (.holding .double) (ExceptT.run (Orchestration.run .null ⟨1⟩))) h begun s ∧
    s.result?.isSome = true ∧ begun.map Step.id = ["a", "b"] ∧ s.world.record? ⟨1⟩ = some e ∧
    e.stepResults.map StepResult.report = [("a", .failed,
      some "step 'a' failed: step executor reported failure"), ("b", .completed, none)] := by
  have hplay : ((System.play (.ofRun .null {} ⟨1⟩ Eq)
      (.ofProgram (.holding .double) (ExceptT.run (Orchestration.run .null ⟨1⟩)))
      (System.moves 12 ++ .respond [] false ::
        (System.moves 17 ++ .respond [] true :: System.moves 14))).any fun x =>
        x.2.result?.isSome &&
          decide ((Happening.tops x.1).map (fun e => e.step.id) = ["a", "b"]) &&
          decide (x.2.world.reports ⟨1⟩ = [("a", .failed,
            some "step 'a' failed: step executor reported failure"), ("b", .completed, none)])) =
      true := by
    decide +kernel
  obtain ⟨⟨h, s⟩, hrun, hx⟩ := (Option.any_eq_true _ _).mp hplay
  simp only [Bool.and_eq_true, decide_eq_true_eq] at hx
  obtain ⟨⟨hs, htops⟩, hreports⟩ := hx
  obtain ⟨begun, hcourse⟩ := (System.Run.of_play hrun).exists_course
  obtain ⟨-, -, hover⟩ := run_keeps_results rfl rfl (fun e e' he => by rw [he]) hcourse
  obtain ⟨hbegun, htold, e, hrec, hresults⟩ := hover hs
  refine ⟨h, begun, s, e, hcourse, hs, ?_, hrec, ?_⟩
  · rw [hbegun, List.map_map]
    exact htops
  · rw [hresults, ← hreports, htold]
    rfl

end WorkflowEngine
