import WorkflowEngine.Proofs.Run.Leaf

/-!
# Suspended runs

A run is suspended while none of its threads can move and some of them wait for something from
outside. It is in the middle of a step then, every simple step of that which has begun waits, and
the run is among those that have begun, so that it can be told that it is cancelled.

## Main definitions

* `World.IsActive`: a run has begun and not ended
* `Orchestration.Asks`: everything that a program may ask for
* `Orchestration.IsPlain`: a program that never waits and ends no run
* `Orchestration.IsRoutine`: a plain program that announces nothing at a gate
* `Orchestration.IsQuiet`: one that tells of no step either
* `Orchestration.afterStep`: what a run does after a step at the top level
* `System.IsSuspended`: no thread can move, and some wait

## Main results

* `World.ends_plain`: plain programs end
* `Orchestration.asks_runSteps`: between its steps a run asks for routine things only
* `Program.Reaches.drive_of_run`, `Program.Reaches.stepping_of_run`: a run that is in the middle of
  a step
* `Leaf.isCareful_run`: no simple step waits again once its run is cancelled
* `Passage.waits_of_isSuspended`: every simple step of a suspended run has begun and waits
-/

namespace WorkflowEngine

/-! ### Plain programs -/

/-- What is served at once and ends no run. -/
inductive Request.IsPlain : Request → Prop where
  | getWorkflows : IsPlain .getWorkflows
  | getExecution {id} : IsPlain (.getExecution id)
  | updateExecution {e} : IsPlain (.updateExecution e)
  | getWorkItem {id} : IsPlain (.getWorkItem id)
  | now : IsPlain .now
  | beginRun {id} : IsPlain (.beginRun id)
  | cancelRun {id} : IsPlain (.cancelRun id)
  | isCancelled {id} : IsPlain (.isCancelled id)
  | emit {id data} : IsPlain (.emit id data)
  | report {id stepId error} : IsPlain (.report id stepId error)

/-- What is announced at the gate of an approval step. -/
def EventData.isOfGate : EventData → Bool
  | .paused .. => true
  | .resumed .. => true
  | _ => false

/-- What a run asks for between its steps. -/
inductive Request.IsRoutine : Request → Prop where
  | plain {r} (hr : r.IsPlain) (hd : ∀ id data, r ≠ .emit id data) : IsRoutine r
  | emit {id data} (hd : EventData.isOfGate data = false) : IsRoutine (.emit id data)

/-- The end of a step is told. -/
def Request.tellsEnd : Request → Bool
  | .emit _ (.stepExecuted ..) => true
  | .report .. => true
  | _ => false

/-- What a run asks for between its steps when nothing is told of them. -/
structure Request.IsQuiet (r : Request) : Prop where
  routine : r.IsRoutine
  silent : r.tellsEnd = false

theorem Request.IsRoutine.isPlain {r : Request} (h : r.IsRoutine) : r.IsPlain := by
  cases h with
  | plain hr => exact hr
  | emit => exact .emit

/-- A run has begun and not ended. -/
def World.IsActive (w : World) (id : Uuid) : Prop := ∃ r ∈ w.runs, r.id = id

namespace World

variable {w w' : World} {id : Uuid}

theorem isActive_iff : w.IsActive id ↔ w.active id ≠ [] := by
  unfold IsActive active
  rw [ne_eq, List.filter_eq_nil_iff]
  simp

theorem IsActive.like (h : w.IsActive id) (hl : Like id w w') : w'.IsActive id := by
  rw [isActive_iff] at h ⊢
  rwa [hl.active]

/-- The runs that have begun are still there when their entries change. -/
theorem IsActive.map {g : ActiveRun → ActiveRun} (h : w.IsActive id) (hg : ∀ r, (g r).id = r.id)
    (hw : w'.runs = w.runs.map g) : w'.IsActive id := by
  obtain ⟨r, hr, rfl⟩ := h
  refine ⟨g r, ?_, hg r⟩
  rw [hw]
  exact List.mem_map_of_mem hr

theorem IsActive.emit (h : w.IsActive id) (i : Uuid) (data : EventData) :
    (w.emit i data).IsActive id := by
  refine h.map (g := fun r => if r.id == i then { r with events := r.events + 1 } else r) ?_ rfl
  intro r
  split <;> rfl

theorem IsActive.beginRun (h : w.IsActive id) (i : Uuid) : (w.beginRun i).IsActive id := by
  obtain ⟨r, hr, rfl⟩ := h
  by_cases hi : r.id = i
  · exact ⟨⟨i, false, 0⟩, List.mem_cons_self .., hi.symm⟩
  · exact ⟨r, List.mem_cons_of_mem _ (List.mem_filter.mpr ⟨hr, by simpa using hi⟩), rfl⟩

theorem IsActive.cancelRun (h : w.IsActive id) (i : Uuid) : (w.cancelRun i).IsActive id := by
  refine h.map (g := fun r => if r.id == i then { r with cancelled := true } else r) ?_ rfl
  intro r
  split <;> rfl

theorem runs_change (w : World) (call : StoreCall) (result : Store → Except StoreError Store) :
    (w.change call result).2.runs = w.runs := by
  obtain ⟨r, faults, hw, -⟩ := w.countCall_eq call
  rw [change, hw]
  cases r with
  | error e => rfl
  | ok u =>
    dsimp only
    split <;> rfl

/-- **Plain requests are served at once**, and every run that has begun is still there. -/
theorem serve_plain {r : Request} (hr : r.IsPlain) (w : World) :
    ∃ reply w', w.serve r = some (reply, w') ∧ ∀ id, w.IsActive id → w'.IsActive id := by
  cases hr with
  | getWorkflows =>
    obtain ⟨r, w', hl, hw, -⟩ := w.look_eq .getWorkflows Store.getWorkflows
    exact ⟨r, w', congrArg some hl, fun id h => h.like (hw.like id)⟩
  | @getExecution i =>
    obtain ⟨r, w', hl, hw, -⟩ := w.look_eq .getExecution fun s =>
      if w.isVisible i then s.getExecution? i else none
    exact ⟨r, w', congrArg some hl, fun id h => h.like (hw.like id)⟩
  | @getWorkItem i =>
    obtain ⟨r, w', hl, hw, -⟩ := w.look_eq .getWorkItem fun s => s.getWorkItem? i
    exact ⟨r, w', congrArg some hl, fun id h => h.like (hw.like id)⟩
  | @updateExecution e =>
    have hruns := w.runs_change .updateExecution fun s =>
      if w.isVisible e.id then s.updateExecution e else .error .notFound
    refine ⟨_, _, rfl, ?_⟩
    rintro id ⟨r, hr, hid⟩
    exact ⟨r, (congrArg (r ∈ ·) hruns).mpr hr, hid⟩
  | now => exact ⟨_, _, rfl, fun id h => h⟩
  | beginRun => exact ⟨_, _, rfl, fun id h => h.beginRun _⟩
  | cancelRun => exact ⟨_, _, rfl, fun id h => h.cancelRun _⟩
  | isCancelled => exact ⟨_, _, rfl, fun id h => h⟩
  | emit => exact ⟨_, _, rfl, fun id h => h.emit _ _⟩
  | report => exact ⟨_, _, rfl, fun id h => h⟩

end World

/-- **Programs that ask for plain things only end without waiting.** -/
theorem Program.Asks.performs {α : Type} {p : Program α} (hp : p.Asks Request.IsPlain) (w : World) :
    ∃ a w', w.perform p = some (a, w') ∧ ∀ id, w.IsActive id → w'.IsActive id := by
  induction p generalizing w with
  | done a => exact ⟨a, w, rfl, fun id h => h⟩
  | ask r k ih =>
    obtain ⟨reply, w₁, hs, h₁⟩ := World.serve_plain hp.1 w
    obtain ⟨a, w', hw, h'⟩ := ih reply (hp.2 reply) w₁
    refine ⟨a, w', ?_, fun id h => h' id (h₁ id h)⟩
    rw [World.perform, hs]
    exact hw

namespace Orchestration

variable {α β : Type} {ok ok' : Request → Prop} {p : Orchestration α} {f : α → Orchestration β}

/-- Everything that a program may ask for is of a kind. -/
def Asks (ok : Request → Prop) (p : Orchestration α) : Prop := Program.Asks ok (ExceptT.run p)

theorem Asks.mono (hp : Asks ok p) (h : ∀ r, ok r → ok' r) : Asks ok' p :=
  Program.Asks.mono hp h

theorem Asks.pure (a : α) : Asks ok (Pure.pure a : Orchestration α) := trivial

theorem Asks.throw (e : RunError) : Asks ok (throw e : Orchestration α) := trivial

theorem Asks.bind (hp : Asks ok p) (hf : ∀ a, Asks ok (f a)) : Asks ok (p >>= f) := by
  refine Program.Asks.bind (p := ExceptT.run p) (f := ExceptT.bindCont f) hp fun r => ?_
  cases r with
  | ok a => exact hf a
  | error e => trivial

theorem Asks.lift {p : Program α} (hp : p.Asks ok) : Asks ok (lift p) :=
  Program.Asks.bind (p := p) hp fun _ => trivial

theorem Asks.stored {p : Program (Except StoreError α)} (hp : p.Asks ok) : Asks ok (stored p) :=
  Program.Asks.bind (p := p) hp fun _ => trivial

/-- A program that never waits and ends no run. -/
def IsPlain (p : Orchestration α) : Prop := Program.Asks Request.IsPlain (ExceptT.run p)

theorem IsPlain.throw (e : RunError) : IsPlain (throw e : Orchestration α) := Asks.throw e

theorem IsPlain.bind (hp : IsPlain p) (hf : ∀ a, IsPlain (f a)) : IsPlain (p >>= f) :=
  Asks.bind hp hf

theorem IsPlain.lift {p : Program α} (hp : p.Asks Request.IsPlain) : IsPlain (lift p) :=
  Asks.lift hp

theorem IsPlain.stored {p : Program (Except StoreError α)} (hp : p.Asks Request.IsPlain) :
    IsPlain (stored p) :=
  Asks.stored hp

/-- A program that asks for routine things only. -/
def IsRoutine (p : Orchestration α) : Prop := Asks Request.IsRoutine p

theorem IsRoutine.isPlain (h : IsRoutine p) : IsPlain p := Asks.mono h fun _ hr => hr.isPlain

/-- A program that asks for routine things only and tells nothing of steps. -/
def IsQuiet (p : Orchestration α) : Prop := Asks Request.IsQuiet p

theorem IsQuiet.isRoutine (h : IsQuiet p) : IsRoutine p := Asks.mono h fun _ hr => hr.routine

theorem IsQuiet.isPlain (h : IsQuiet p) : IsPlain p := h.isRoutine.isPlain

/-- A plain request that announces nothing. -/
theorem asks_plain {r : Request} (hr : r.IsPlain) (hd : ∀ id data, r ≠ .emit id data) :
    (Program.request r).Asks Request.IsRoutine := .request (.plain hr hd)

theorem asks_quiet {r : Request} (hr : r.IsPlain) (hd : ∀ id data, r ≠ .emit id data)
    (hs : r.tellsEnd = false) : (Program.request r).Asks Request.IsQuiet :=
  .request ⟨.plain hr hd, hs⟩

/-- An event that tells neither of a gate nor of the end of a step. -/
theorem asks_emit {id : Uuid} {data : EventData} (hd : EventData.isOfGate data = false)
    (hs : (Request.emit id data).tellsEnd = false) :
    (Program.request (.emit id data)).Asks Request.IsQuiet :=
  .request ⟨.emit hd, hs⟩

theorem asks_isCancelled (id : Uuid) : (Program.request (.isCancelled id)).Asks Request.IsQuiet :=
  asks_quiet .isCancelled nofun rfl

/-- Loading a record asks for that only. -/
theorem asks_load {id : Uuid} (h : ok (.getExecution id)) : Asks ok (load id) := by
  refine Asks.bind (.stored (.request h)) fun e => ?_
  cases (e : Option Execution) with
  | none => exact .throw _
  | some e => exact .pure _

theorem isQuiet_load (id : Uuid) : IsQuiet (load id) := asks_load ⟨.plain .getExecution nofun, rfl⟩

/-- Keeping a record asks for the time and for that. -/
theorem asks_update {e : Execution} {change : Execution → Timestamp → Execution} (hnow : ok .now)
    (hupdate : ∀ e, ok (.updateExecution e)) : Asks ok (update e change) :=
  Asks.bind (.lift (.request hnow)) fun _ => .bind (.stored (.request (hupdate _))) fun _ => .pure _

theorem isQuiet_update (e : Execution) (change : Execution → Timestamp → Execution) :
    IsQuiet (update e change) :=
  asks_update ⟨.plain .now nofun, rfl⟩ fun _ => ⟨.plain .updateExecution nofun, rfl⟩

theorem isQuiet_markFailed (id : Uuid) (error : String) : IsQuiet (markFailed id error) := by
  refine Asks.bind (isQuiet_load id) fun e => ?_
  cases e.status.isTerminal
  · exact .bind (isQuiet_update _ _) fun _ => .pure _
  · exact .pure _

theorem isQuiet_finishCancelled (a : Assignment) (totalSteps : Nat) (stepId : Option String) :
    IsQuiet (finishCancelled a totalSteps stepId) := by
  refine Asks.bind (isQuiet_load _) fun e => ?_
  cases e.status.isTerminal
  · exact .bind (isQuiet_update _ _) fun e => .bind (.lift (asks_emit rfl rfl)) fun _ => .pure _
  · exact .bind (.pure e) fun e => .bind (.lift (asks_emit rfl rfl)) fun _ => .pure _

theorem isQuiet_finishTerminal (a : Assignment) (totalSteps : Nat) (status : Status)
    (stepId : Option String) : IsQuiet (finishTerminal a totalSteps status stepId) := by
  cases status with
  | cancelled => exact isQuiet_finishCancelled _ _ _
  | _ => exact Asks.throw _

theorem isQuiet_finishFailed (a : Assignment) (totalSteps : Nat) (stepId : String)
    (error : StepError) : IsQuiet (finishFailed a totalSteps stepId error) := by
  refine Asks.bind (isQuiet_load _) fun e => ?_
  cases e.status.isTerminal
  · exact .bind (isQuiet_update _ _) fun _ =>
      .bind (.lift (asks_emit rfl rfl)) fun _ => .throw _
  · exact isQuiet_finishTerminal _ _ _ _

theorem isQuiet_finishCompleted (a : Assignment) (totalSteps : Nat) :
    IsQuiet (finishCompleted a totalSteps) := by
  refine Asks.bind (isQuiet_load _) fun e => ?_
  cases e.status.isTerminal
  · exact .bind (isQuiet_update _ _) fun _ =>
      .bind (.lift (asks_emit rfl rfl)) fun _ => .pure _
  · exact isQuiet_finishTerminal _ _ _ _

theorem isQuiet_cancelRequested (id : Uuid) : IsQuiet (cancelRequested id) := by
  refine Asks.bind (.lift (asks_isCancelled id)) fun b => ?_
  cases (b : Bool)
  · exact .bind (isQuiet_load id) fun _ => .pure _
  · exact .pure _

theorem isQuiet_persist (id : Uuid) (r : StepResult) : IsQuiet (persist id r) :=
  Asks.bind (isQuiet_load id) fun _ => .bind (isQuiet_update _ _) fun _ => .pure _

/-- Cancelling a run asks for its record and its end. -/
theorem asks_cancel {id : Uuid} (hload : ok (.getExecution id)) (hnow : ok .now)
    (hupdate : ∀ e, ok (.updateExecution e)) (hcancel : ok (.cancelRun id)) :
    Asks ok (cancel id) := by
  refine Asks.bind (asks_load hload) fun e => ?_
  cases e.status.isTerminal
  · exact .bind (asks_update hnow hupdate) fun _ =>
      .bind (.lift (.request hcancel)) fun _ => .pure _
  · exact .throw _

theorem isQuiet_cancel (id : Uuid) : IsQuiet (cancel id) :=
  asks_cancel ⟨.plain .getExecution nofun, rfl⟩ ⟨.plain .now nofun, rfl⟩
    (fun _ => ⟨.plain .updateExecution nofun, rfl⟩) ⟨.plain .cancelRun nofun, rfl⟩

/-- Finding out whether a workflow can be run asks for the workflows only. -/
theorem asks_runnable {workflowId : String} (h : ok .getWorkflows) :
    Asks ok (runnable workflowId) := by
  refine Asks.bind (.bind (.bind ?_ fun _ => .pure _) fun catalog => ?_) fun w => ?_
  · exact .stored (.request h)
  · split
    · trivial
    · exact .throw _
  · split
    · exact .throw _
    · exact .pure _

theorem isQuiet_runnable (workflowId : String) : IsQuiet (runnable workflowId) :=
  asks_runnable ⟨.plain .getWorkflows nofun, rfl⟩

theorem isRoutine_announceStep (a : Assignment) (s : Step) (depth : Nat) (o : Outcome) (ms : Nat) :
    IsRoutine (lift (announceStep a s depth o ms)) := by
  refine Asks.lift (.bind (.request (.emit rfl)) fun _ => ?_)
  cases o.failure? with
  | none => trivial
  | some e => exact asks_plain .report nofun

/-- **Between its steps a run asks for routine things only.** -/
theorem asks_runSteps {ok : Request → Prop} (hok : ∀ r, r.IsRoutine → ok r) (a : Assignment)
    (totalSteps : Nat) {steps : List Step} (hsteps : ∀ s ∈ steps, ∀ c, ok (.runStep a s c))
    (c : Context) : Asks ok (runSteps a totalSteps steps c) := by
  have hroutine {α : Type} {p : Orchestration α} (hp : IsRoutine p) : Asks ok p := Asks.mono hp hok
  induction steps generalizing c with
  | nil =>
    rw [runSteps]
    refine .bind (hroutine (isQuiet_cancelRequested _).isRoutine) fun cancelled => ?_
    cases cancelled
    · exact hroutine (isQuiet_finishCompleted _ _).isRoutine
    · exact hroutine (isQuiet_finishCancelled _ _ _).isRoutine
  | cons s steps ih =>
    obtain ⟨hs, hrest⟩ := List.forall_mem_cons.mp hsteps
    rw [runSteps]
    refine .bind (hroutine (isQuiet_load _).isRoutine) fun e => ?_
    refine .bind (hroutine (.lift (asks_plain .isCancelled nofun))) fun cancelled => ?_
    split
    · exact hroutine (isQuiet_finishCancelled _ _ _).isRoutine
    refine .bind (hroutine (isQuiet_update _ _).isRoutine) fun _ => ?_
    refine .bind (.lift (.request (hs _))) fun x => ?_
    dsimp only
    split
    · exact hroutine (isQuiet_finishCancelled _ _ _).isRoutine
    refine .bind (hroutine (isRoutine_announceStep _ _ _ _ _)) fun _ => ?_
    refine .bind (hroutine (isQuiet_persist _ _).isRoutine) fun _ => ?_
    split
    · exact ih hrest _
    · refine .bind (hroutine (isQuiet_cancelRequested _).isRoutine) fun cancelled => ?_
      split
      · exact hroutine (isQuiet_finishCancelled _ _ _).isRoutine
      · split
        · exact ih hrest _
        · exact hroutine (isQuiet_finishFailed _ _ _ _).isRoutine

theorem asks_drive {ok : Request → Prop} (hok : ∀ r, r.IsRoutine → ok r) (engine : Expr.Engine)
    (e : Execution) {v : Workflow} (hsteps : ∀ a, ∀ s ∈ v.steps, ∀ c, ok (.runStep a s c)) :
    Asks ok (drive engine e v) := by
  have hroutine {α : Type} {p : Orchestration α} (hp : IsRoutine p) : Asks ok p := Asks.mono hp hok
  refine .bind (hroutine (.stored (asks_plain .getWorkItem nofun))) fun item => ?_
  split
  · exact .bind (hroutine (isQuiet_markFailed _ _).isRoutine) fun _ => .throw _
  · refine .bind (hroutine (.lift (.request (.emit rfl)))) fun _ => ?_
    exact asks_runSteps hok _ _ (hsteps _) _

theorem isPlain_load (id : Uuid) : IsPlain (load id) := (isQuiet_load id).isPlain

theorem isPlain_update (e : Execution) (change : Execution → Timestamp → Execution) :
    IsPlain (update e change) :=
  (isQuiet_update e change).isPlain

theorem isPlain_markFailed (id : Uuid) (error : String) : IsPlain (markFailed id error) :=
  (isQuiet_markFailed id error).isPlain

theorem isPlain_finishCancelled (a : Assignment) (totalSteps : Nat) (stepId : Option String) :
    IsPlain (finishCancelled a totalSteps stepId) :=
  (isQuiet_finishCancelled a totalSteps stepId).isPlain

theorem isPlain_finishFailed (a : Assignment) (totalSteps : Nat) (stepId : String)
    (error : StepError) : IsPlain (finishFailed a totalSteps stepId error) :=
  (isQuiet_finishFailed a totalSteps stepId error).isPlain

theorem isPlain_finishCompleted (a : Assignment) (totalSteps : Nat) :
    IsPlain (finishCompleted a totalSteps) :=
  (isQuiet_finishCompleted a totalSteps).isPlain

theorem isPlain_cancelRequested (id : Uuid) : IsPlain (cancelRequested id) :=
  (isQuiet_cancelRequested id).isPlain

theorem isPlain_persist (id : Uuid) (r : StepResult) : IsPlain (persist id r) :=
  (isQuiet_persist id r).isPlain

theorem isPlain_cancel (id : Uuid) : IsPlain (cancel id) := (isQuiet_cancel id).isPlain

theorem isPlain_announceStep (a : Assignment) (s : Step) (depth : Nat) (o : Outcome) (ms : Nat) :
    IsPlain (lift (announceStep a s depth o ms)) :=
  (isRoutine_announceStep a s depth o ms).isPlain

end Orchestration

/-- **Plain programs end**, and the run is still there. -/
theorem World.ends_plain {α : Type} {p : Orchestration α} {w : World} {id : Uuid}
    (hp : p.IsPlain) (h : w.IsActive id) : w.Ends p fun _ w' => w'.IsActive id := by
  obtain ⟨r, w', hw, ha⟩ := hp.performs w
  exact ⟨r, w', hw, ha id h⟩

/-! ### In the middle of a step -/

/-- What a run does after a step at the top level. -/
def Orchestration.afterStep (a : Assignment) (totalSteps : Nat) (s : Step) (steps : List Step)
    (x : Outcome × Context) : Orchestration Summary :=
  if x.1.isCancelled then finishCancelled a totalSteps (some s.id)
  else do
    lift (announceStep a s 0 x.1 x.2.lastDurationMs)
    persist a.executionId (.ofOutcome s.id x.1 x.2.lastDurationMs)
    match x.1.failure? with
    | none => runSteps a totalSteps steps x.2
    | some error => do
      if ← cancelRequested a.executionId then finishCancelled a totalSteps (some s.id)
      else if s.policy.continueOnError then runSteps a totalSteps steps x.2
      else finishFailed a totalSteps s.id error

variable {engine : Expr.Engine} {config : Config} {id : Uuid}
  {rule : Execution → Execution → Prop}

/-- **A run stays among those that have begun while a step is run.** -/
theorem Surroundings.keeps_isActive :
    (ofRun engine config id rule).Keeps fun w => w.IsActive id where
  note _ h := h
  emit _ h := h.emit _ _
  cancel := by
    intro w w' r hc h
    obtain ⟨r', w'', hp, ha⟩ := (Orchestration.isPlain_cancel id).performs w
    cases hp.symm.trans hc
    exact ha id h
  outside hm h := h.like hm.like

/-- **A run is in the middle of a step at the top level**, and goes on after it. -/
inductive Passage.InStep (S : Surroundings) (a : Assignment) (totalSteps : Nat) :
    Passage → (Outcome × Context → Program (Except RunError Summary)) → Prop where
  | intro {w c s steps h st} (hw : w.IsActive a.executionId)
      (hr : Passage.Run S a ⟨w, .start s c 0, []⟩ h st) :
      InStep S a totalSteps st fun x => ExceptT.run (Orchestration.afterStep a totalSteps s steps x)

namespace Passage.InStep

variable {a : Assignment} {totalSteps : Nat} {st : Passage}
  {k : Outcome × Context → Program (Except RunError Summary)}

theorem sound {S : Surroundings} (hst : st.InStep S a totalSteps k) : st.Sound := by
  obtain ⟨-, hr⟩ := hst
  exact (Sound.start _ _ _ _).run hr

theorem leavesAsk (hst : st.InStep (.ofRun engine config id rule) a totalSteps k) :
    st.LeavesAsk a := by
  obtain ⟨-, hr⟩ := hst
  exact Leaves.run (by rintro path p ⟨⟩) (Leaf.asks_run engine config a)
    (fun _ _ reply hp => hp.2 reply) hr

end Passage.InStep

namespace Program.Reaches

variable {α : Type} {a a' : Assignment} {w : World} {h : List Happening} {st : Passage}
  {totalSteps : Nat}

/-- A plain program does not run a step. -/
theorem not_stepping_of_plain {S : Surroundings} {p : Orchestration α}
    {k : Outcome × Context → Program (Except RunError α)} (hp : p.IsPlain)
    (hr : Reaches S (ExceptT.run p) w h (st.toSystem a k)) : False := by
  obtain ⟨r, w', hw, -⟩ := hp.performs w
  have hends : w.Ends p fun _ _ => True := ⟨r, w', hw, trivial⟩
  obtain ⟨r', w'', -, he, -⟩ := hr.done_of_ends trivial hends
  cases he

/-- What is plain is done before the step that is run. -/
theorem stepping_of_plain {β : Type} {S : Surroundings} {p : Orchestration α}
    {f : α → Orchestration β} {k : Outcome × Context → Program (Except RunError β)}
    (hp : p.IsPlain) (hw : w.IsActive id)
    (hr : Reaches S (ExceptT.run (p >>= f)) w h (st.toSystem a k)) :
    ∃ x w' h', w'.IsActive id ∧ Reaches S (ExceptT.run (f x)) w' h' (st.toSystem a k) := by
  rcases hr.of_ends trivial (World.ends_plain hp hw) with
    ⟨x, w', -, h', hw', hr', -⟩ | ⟨e, w', -, he, -⟩
  · exact ⟨x, w', h', hw', hr'⟩
  · cases he

theorem stepping_of_runSteps {steps : List Step} {c : Context}
    {k : Outcome × Context → Program (Except RunError Summary)} (hw : w.IsActive a.executionId)
    (hr : Reaches (.ofRun engine config a.executionId rule)
      (ExceptT.run (Orchestration.runSteps a totalSteps steps c)) w h (st.toSystem a' k)) :
    a' = a ∧ st.InStep (.ofRun engine config a.executionId rule) a totalSteps k := by
  induction steps generalizing c w h with
  | nil =>
    rw [Orchestration.runSteps] at hr
    obtain ⟨b, w₁, h₁, -, hr⟩ := hr.stepping_of_plain (Orchestration.isPlain_cancelRequested _) hw
    cases b with
    | true => exact (hr.not_stepping_of_plain (Orchestration.isPlain_finishCancelled _ _ _)).elim
    | false => exact (hr.not_stepping_of_plain (Orchestration.isPlain_finishCompleted _ _)).elim
  | cons s steps ih =>
    rw [Orchestration.runSteps] at hr
    obtain ⟨e, w₁, h₁, hw₁, hr⟩ := hr.stepping_of_plain (Orchestration.isPlain_load _) hw
    obtain ⟨h₂, hr, -⟩ := hr.of_lift (r := .isCancelled a.executionId) trivial rfl
    split at hr
    · exact (hr.not_stepping_of_plain (Orchestration.isPlain_finishCancelled _ _ _)).elim
    obtain ⟨_, w₂, h₃, hw₂, hr⟩ := hr.stepping_of_plain (Orchestration.isPlain_update _ _) hw₁
    have hr : Reaches (.ofRun engine config a.executionId rule)
      (.ask (.runStep a s (c.refresh e)) fun x =>
        ExceptT.run (Orchestration.afterStep a totalSteps s steps x)) w₂ h₃ (st.toSystem a' k) := hr
    generalize hs : st.toSystem a' k = s' at hr
    cases hr with
    | here => cases hs
    | serve hs' => cases hs'
    | during hst =>
      obtain ⟨w, t, ls⟩ := st
      cases hs
      exact ⟨rfl, .intro hw₂ hst⟩
    | @after _ _ _ _ _ _ _ st' o _ hst ho hr =>
      subst hs
      have hw₃ := (Surroundings.keeps_isActive.run rfl (by rintro path p ⟨⟩) hst hw₂).1
      have hr : Reaches _ (ExceptT.run
        (Orchestration.afterStep a totalSteps s steps (o, st'.task.context))) _ _ _ := hr
      unfold Orchestration.afterStep at hr
      split at hr
      · exact (hr.not_stepping_of_plain (Orchestration.isPlain_finishCancelled _ _ _)).elim
      obtain ⟨_, w₄, h₄, hw₄, hr⟩ :=
        hr.stepping_of_plain (Orchestration.isPlain_announceStep _ _ _ _ _) hw₃
      obtain ⟨_, w₅, h₅, hw₅, hr⟩ := hr.stepping_of_plain (Orchestration.isPlain_persist _ _) hw₄
      split at hr
      · exact ih hw₅ hr
      · obtain ⟨b, w₆, h₆, hw₆, hr⟩ :=
          hr.stepping_of_plain (Orchestration.isPlain_cancelRequested _) hw₅
        cases b with
        | true =>
          exact (hr.not_stepping_of_plain (Orchestration.isPlain_finishCancelled _ _ _)).elim
        | false =>
          simp only [Bool.false_eq_true, if_false] at hr
          split at hr
          · exact ih hw₆ hr
          · exact (hr.not_stepping_of_plain (Orchestration.isPlain_finishFailed _ _ _ _)).elim

/-- **A run that is in the middle of a step** was found and resolved, and has begun; the step is one
of its workflow's. -/
theorem drive_of_run {k : Outcome × Context → Program (Except RunError Summary)}
    (hr : Reaches (.ofRun engine config id rule) (ExceptT.run (Orchestration.run engine id)) w h
      (st.toSystem a k)) :
    ∃ e v w' h' k', w.record? id = some e ∧ w.store.resolved e.workflowId = .ok v ∧
      w'.IsActive id ∧
      Reaches (.ofRun engine config id rule) (ExceptT.run (Orchestration.drive engine e v)) w' h'
        (st.toSystem a k') ∧
      k = fun x => (k' x).bind fun r => .ask (.endRun id) fun _ => .done r := by
  rw [Orchestration.run] at hr
  rcases hr.of_ends trivial (w.ends_load_found id) with
    ⟨e, w₁, -, h₁, ⟨huntouched, hfound⟩, hr, -⟩ | ⟨_, _, -, he, -⟩
  · obtain rfl : e.id = id := World.id_of_record? (hfound e rfl)
    cases ht : e.status.isTerminal with
    | true =>
      simp only [ht, if_true] at hr
      cases (of_done hr).2
    | false =>
      simp only [ht, Bool.false_eq_true, if_false] at hr
      obtain ⟨r, _, hp, -, hrunnable⟩ := w₁.ends_runnable_resolved e.workflowId
      rw [huntouched.store] at hrunnable
      rcases hr.of_ends trivial (World.ends_lift hp) with
        ⟨_, w₂, -, h₂, ⟨⟨⟩, rfl⟩, hr, -⟩ | ⟨_, _, ⟨⟨⟩, -⟩, -⟩
      cases r with
      | error error =>
        exact (hr.not_stepping_of_plain
          (.bind (Orchestration.isPlain_markFailed _ _) fun _ => .throw _)).elim
      | ok v =>
        have hv : w.store.resolved e.workflowId = .ok v := hrunnable v rfl
        obtain ⟨h₃, hr, -⟩ := hr.of_lift (r := .beginRun e.id) trivial rfl
        have hw₂ : (w₂.beginRun e.id).IsActive e.id :=
          ⟨⟨e.id, false, 0⟩, List.mem_cons_self .., rfl⟩
        rcases bind (p := ExceptT.run (Orchestration.drive engine e v)) hr with
          ⟨⟨w₃, main, leaves⟩, hr, he⟩ | ⟨r, w₃, _, h₄, -, hr, -⟩
        · cases main with
          | program p => cases he
          | stepping a₀ t k₀ =>
            simp only [Passage.toSystem, System.andThen, System.mk.injEq, Main.stepping.injEq] at he
            obtain ⟨rfl, ⟨rfl, rfl, rfl⟩, rfl⟩ := he
            exact ⟨e, v, _, _, k₀, hfound e rfl, hv, hw₂, hr, rfl⟩
        · generalize hs : st.toSystem a k = s at hr
          have hr : Reaches _ (.ask (.endRun e.id) fun _ => .done r) w₃ h₄ s := hr
          cases hr with
          | here => cases hs
          | serve _ hr => rw [(of_done hr).2] at hs; cases hs
  · cases he

/-- **A run that is in the middle of a step** goes on with what follows the step, and ends. -/
theorem stepping_of_run {k : Outcome × Context → Program (Except RunError Summary)}
    (hr : Reaches (.ofRun engine config id rule) (ExceptT.run (Orchestration.run engine id)) w h
      (st.toSystem a k)) :
    a.executionId = id ∧ ∃ totalSteps k', st.InStep (.ofRun engine config id rule) a totalSteps k' ∧
      k = fun x => (k' x).bind fun r => .ask (.endRun id) fun _ => .done r := by
  obtain ⟨e, v, w₁, _, k₀, hfound, -, hw₁, hd, rfl⟩ := hr.drive_of_run
  obtain rfl : e.id = id := World.id_of_record? hfound
  rw [Orchestration.drive] at hd
  obtain ⟨item, w₂, h₂, hw₂, hd⟩ := hd.stepping_of_plain (.stored (.request .getWorkItem)) hw₁
  split at hd
  · exact (hd.not_stepping_of_plain
      (.bind (Orchestration.isPlain_markFailed _ _) fun _ => .throw _)).elim
  · obtain ⟨_, w₃, h₃, hw₃, hd⟩ := hd.stepping_of_plain (.lift (.request .emit)) hw₂
    obtain ⟨rfl, hst⟩ := stepping_of_runSteps (a := ⟨e.id, e.workflowId, e.workItemId⟩) hw₃ hd
    exact ⟨rfl, _, k₀, hst, rfl⟩

end Program.Reaches

/-! ### Simple steps that wait -/

/-- Whoever is asked this is outside, so that the answer is waited for. -/
def Request.isOutside : Request → Bool
  | .runStep .. | .execute .. | .awaitApproval .. | .delegate .. => true
  | _ => false

theorem World.serve_eq_none_iff {w : World} {r : Request} :
    w.serve r = none ↔ r.isOutside = true := by
  cases r <;> simp [serve, Request.isOutside]

/-- Only a wait ends by itself. -/
theorem World.serve_eq_none_of_release {w : World} {r : Request} {reply : r.Reply}
    (h : w.release r = some reply) : w.serve r = none := by
  cases r with
  | awaitApproval => rfl
  | _ => cases h

/-- What is served is not waited for. -/
theorem World.release_eq_none_of_serve {w w' : World} {r : Request} {reply : r.Reply}
    (h : w.serve r = some (reply, w')) : w.release r = none := by
  cases hr : w.release r with
  | none => rfl
  | some reply' => cases (serve_eq_none_of_release hr).symm.trans h

/-- The wait for an approval ends by itself once the run is cancelled. -/
theorem World.exists_release {w : World} {id : Uuid} (h : w.isCancelled id = true)
    (stepId : String) (timeoutSecs : Nat) (prompt : Option String) :
    ∃ reply, w.release (.awaitApproval id stepId timeoutSecs prompt) = some reply :=
  ⟨.cancelled, if_pos h⟩

/-- What a thread waits for is asked for by its simple step. -/
theorem System.exists_leaf?_of_waitsFor? {α : Type} {s : System α} {path : Path} {r : Request}
    (h : s.waitsFor? path = some r) :
    r.isOutside = true ∧ ∃ k, s.leaf? path = some (.ask r k) := by
  unfold waitsFor? at h
  split at h
  next r' k hl =>
    split at h
    next => cases h
    next hs =>
      cases h
      exact ⟨World.serve_eq_none_iff.mp (by simpa using hs), k, hl⟩
  next => cases h

theorem Request.IsPlain.isOutside {r : Request} (h : r.IsPlain) : r.isOutside = false := by
  cases h <;> rfl

namespace Program

variable {α : Type} {id : Uuid}

/-- **A program that ends at once** if its run is cancelled: it asks for one more thing at most, and
does not wait. -/
inductive Quits (id : Uuid) : Program α → Prop where
  | done {x} : Quits id (.done x)
  | isCancelled {k : (Request.isCancelled id).Reply → Program α} {x} (h : k true = .done x) :
      Quits id (.ask (.isCancelled id) k)
  | emit {data k x} (hd : EventData.IsProgress data) (h : k () = .done x) :
      Quits id (.ask (.emit id data) k)

/-- Whenever the program waits, it ends at once afterwards if its run is cancelled meanwhile. -/
def IsCareful (id : Uuid) : Program α → Prop
  | .done _ => True
  | .ask r k => (r.isOutside = true → ∀ reply, (k reply).Quits id) ∧ ∀ reply, IsCareful id (k reply)

end Program

namespace Leaf

variable {r : StepRequest} {caller : Caller} {timeoutSecs : Option Nat}

/-- A simple step that has failed is not tried again in a cancelled run. -/
theorem quits_attempt {id : Uuid} (hid : caller.executionId = id) (tries : Nat)
    (error : StepError) : (attempt r caller timeoutSecs tries (some error)).Quits id := by
  subst hid
  cases tries with
  | zero => exact .done
  | succ tries =>
    rw [attempt_succ]
    exact .isCancelled rfl

theorem isCareful_attempt {id : Uuid} (hid : caller.executionId = id) (tries : Nat)
    (last : Option StepError) : (attempt r caller timeoutSecs tries last).IsCareful id := by
  induction tries generalizing last with
  | zero => trivial
  | succ tries ih =>
    have hrest : (Program.ask (.execute r caller timeoutSecs)
        (afterResponse r caller timeoutSecs tries)).IsCareful id := by
      refine ⟨fun _ response => ?_, fun response => ?_⟩
      · rcases afterResponse_cases r caller timeoutSecs tries response with ⟨v, h⟩ | ⟨e, h⟩
        · rw [h]
          exact .done
        · rw [h]
          exact quits_attempt hid tries e
      · rcases afterResponse_cases r caller timeoutSecs tries response with ⟨v, h⟩ | ⟨e, h⟩
        · rw [h]
          trivial
        · rw [h]
          exact ih _
    rw [attempt_succ]
    dsimp only
    split
    · refine ⟨nofun, fun cancelled => ?_⟩
      cases (cancelled : Bool)
      · exact hrest
      · trivial
    · exact hrest

/-- **No simple step waits again** once its run is cancelled. -/
theorem isCareful_run (engine : Expr.Engine) (config : Config) (a : Assignment) (head : Head)
    (leaf : Leaf) (depth : Nat) (c : Context) :
    (Leaf.run engine config a head leaf depth c).IsCareful a.executionId := by
  unfold Leaf.run
  split
  · rw [awaitApproval_eq]
    refine ⟨nofun, fun cancelled => ?_⟩
    cases (cancelled : Bool) with
    | true => trivial
    | false =>
      simp only [Bool.false_eq_true, if_false]
      split
      · trivial
      · refine ⟨nofun, fun _ => ⟨fun _ verdict => ?_, fun verdict => ?_⟩⟩
        · dsimp only
          split
          · exact .emit .resumed rfl
          · exact .done
        · dsimp only
          split
          · exact ⟨nofun, fun _ => trivial⟩
          · trivial
  · unfold dispatch
    split
    · trivial
    · refine isCareful_attempt (?_ : _ = a.executionId) _ _
      rfl

end Leaf

/-! ### Suspended runs -/

/-- **A system is suspended**: no thread can move, and some wait for something from outside. -/
def System.IsSuspended {α : Type} (setting : Setting) (s : System α) : Prop :=
  s.IsPending ∧ ∀ path, s.move setting path = none

namespace Passage

variable {α : Type} {a : Assignment} {st : Passage} {next : Outcome × Context → Program α}
  {setting : Setting}

/-- **A simple step that waits for its answer can go on or waits itself**, and one that has not
begun can begin. -/
theorem exists_move_of_callAt? {path : Path} {x : Head × Leaf × Nat × Context}
    (hc : st.task.callAt? path = some x) (a : Assignment)
    (next : Outcome × Context → Program α) (setting : Setting) :
    ((st.toSystem a next).move setting path).isSome = true ∨
      ∃ r k, st.leaf? path = some (.ask r k) ∧ r.isOutside = true := by
  cases hl : st.leaf? path with
  | none =>
    refine .inl ?_
    have hn : Task.advanceAt setting.env { cancelled := st.world.isCancelled a.executionId } path
        st.task = none := by
      cases hn : Task.advanceAt setting.env { cancelled := st.world.isCancelled a.executionId } path
          st.task with
      | none => rfl
      | some y =>
        rw [(Task.Moves.of_advanceAt hn).callAt?_eq_none] at hc
        cases hc
    obtain ⟨head, leaf, depth, c⟩ := x
    have hm : (st.toSystem a next).moveTask setting path a st.task next 0 =
        some ((st.toSystem a next).setLeaf path (setting.leaf a head leaf depth c), .silent) := by
      have hn : Task.advanceAt setting.env
          { cancelled := (st.toSystem a next).world.isCancelled a.executionId } path st.task =
            none := hn
      unfold System.moveTask
      rw [hn]
      dsimp only
      rw [hc]
    rw [System.move_toSystem, hl]
    simp only [hm]
    rfl
  | some p =>
    cases p with
    | done r =>
      refine .inl ?_
      obtain ⟨t', ht'⟩ := Task.exists_answers_of_callAt? hc r
      rw [System.move_toSystem, hl]
      simp [System.moveLeaf, ht']
    | ask r k =>
      by_cases hr : r.isOutside = true
      · exact .inr ⟨r, k, rfl, hr⟩
      · refine .inl ?_
        obtain ⟨⟨reply, w'⟩, hs⟩ := Option.ne_none_iff_exists'.mp (mt World.serve_eq_none_iff.mp hr)
        have hs : (st.toSystem a next).world.serve r = some (reply, w') := hs
        rw [System.move_toSystem, hl]
        simp only [System.moveLeaf, hs]
        rfl

/-- **A step that is run can always go on**, or waits for something from outside. -/
theorem goes_on (hst : st.Sound) {root : WorkflowEngine.Step} {d : Nat}
    (hp : Task.Placed root d st.task) (a : Assignment) (next : Outcome × Context → Program α)
    (setting : Setting) :
    ∃ path, ((st.toSystem a next).move setting path).isSome = true ∨
      (st.waitsFor? path).isSome = true := by
  -- a thread that does no simple step moves its task
  have hmove : ∀ path, st.task.callAt? path = none →
      ((st.toSystem a next).moveTask setting path a st.task next 0).isSome = true →
      ((st.toSystem a next).move setting path).isSome = true := by
    intro path hc hm
    have hl : st.leaf? path = none := by
      cases hl : st.leaf? path with
      | none => rfl
      | some p =>
        have hsome := hst path p hl
        rw [hc] at hsome
        cases hsome
    rw [System.move_toSystem, hl]
    exact hm
  cases ho : st.task.outcome? with
  | some o =>
    refine ⟨[], .inl (hmove [] (Task.callAt?_of_outcome? ho) ?_)⟩
    unfold System.moveTask
    split
    · rfl
    · rw [Task.callAt?_of_outcome? ho, ho]
      rfl
  | none =>
    obtain ⟨path, hp⟩ := hp.exists_thread setting.env ho
    refine ⟨path, ?_⟩
    cases hc : st.task.callAt? path with
    | some y =>
      refine (exists_move_of_callAt? hc a next setting).imp_right ?_
      rintro ⟨r, k, hl, hr⟩
      unfold waitsFor?
      rw [hl]
      dsimp only
      rw [World.serve_eq_none_iff.mpr hr]
      rfl
    | none =>
      refine .inl (hmove path hc ?_)
      rw [hc] at hp
      obtain ⟨y, hy⟩ := Option.isSome_iff_exists.mp (hp.resolve_right (by decide)
        { cancelled := (st.toSystem a next).world.isCancelled a.executionId })
      unfold System.moveTask
      rw [hy]
      rfl

/-- A thread goes on by itself if its wait ends. -/
theorem move_isSome_of_release {path : Path} {r : Request} {k : r.Reply → LeafProgram}
    {reply : r.Reply} (hl : st.leaf? path = some (.ask r k))
    (h : st.world.release r = some reply) :
    ((st.toSystem a next).move setting path).isSome = true := by
  have hs : (st.toSystem a next).world.serve r = none := World.serve_eq_none_of_release h
  have h : (st.toSystem a next).world.release r = some reply := h
  rw [System.move_toSystem, hl]
  simp only [System.moveLeaf, hs, h]
  rfl

/-- **Every simple step of a suspended run has begun and waits.** -/
theorem waits_of_isSuspended (hs : (st.toSystem a next).IsSuspended setting) {path : Path}
    {x : Head × Leaf × Nat × Context} (hc : st.task.callAt? path = some x) :
    ∃ r k, st.leaf? path = some (.ask r k) ∧ r.isOutside = true := by
  rcases exists_move_of_callAt? hc a next setting with hm | hw
  · rw [hs.2 path] at hm
    cases hm
  · exact hw

end Passage

end WorkflowEngine
