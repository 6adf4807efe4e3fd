import WorkflowEngine.Proofs.Run.Cancellation

/-!
# Programs that heed the record

Everything that is done to the record of a run is done in the same way: the record is loaded, it is
changed, and it is kept whole. A program that heeds the record keeps only what comes from the record
that it has loaded last, adds results but drops none, leaves a status alone that says that the run
is over, and says that the run was completed or has failed only once it has kept that.

## Main definitions

* `Execution.Grows`: a record that has only gained
* `Hold`: what a program knows of the record
* `Request.Proper`: what may be asked for by a program that knows so much
* `Program.Heeds`, `Orchestration.Heeds`: programs that heed the record

## Main results

* `Orchestration.Heeds.bind`: one program after the other
* `Orchestration.heeds_run`, `Orchestration.heeds_cancel`: runs and cancellations heed the record
-/

namespace WorkflowEngine

/-- **A record has only gained**: results stay, and so does a status that says that the run is
over. -/
structure Execution.Grows (e e' : Execution) : Prop where
  id : e'.id = e.id
  results : e.stepResults <+: e'.stepResults
  status : e.status.isTerminal = true → e'.status = e.status

namespace Execution

variable {e e' e'' : Execution}

theorem Grows.refl (e : Execution) : e.Grows e := ⟨rfl, List.prefix_refl _, fun _ => rfl⟩

theorem Grows.trans (h : e.Grows e') (h' : e'.Grows e'') : e.Grows e'' := by
  refine ⟨h'.id.trans h.id, h.results.trans h'.results, fun hs => ?_⟩
  have he := h.status hs
  exact (h'.status (he ▸ hs)).trans he

theorem grows_atStep (e : Execution) (stepId : String) (now : Timestamp) :
    e.Grows (e.atStep stepId now) :=
  ⟨rfl, List.prefix_refl _, fun _ => rfl⟩

theorem grows_addResult (e : Execution) (r : StepResult) (now : Timestamp) :
    e.Grows (e.addResult r now) :=
  ⟨rfl, List.prefix_append _ _, fun _ => rfl⟩

/-- The record of a run that is not over may get any status. -/
theorem Grows.of_not_isTerminal (h : ¬ e.status.isTerminal = true) (hid : e'.id = e.id)
    (hr : e'.stepResults = e.stepResults) : e.Grows e' :=
  ⟨hid, hr ▸ List.prefix_refl _, fun hs => absurd hs h⟩

end Execution

/-- What a program knows of the record of a run. -/
structure Hold where
  /-- The record that it has loaded and not kept since. -/
  loaded : Option Execution
  /-- The status by which it has ended the run. -/
  ended : Option Status

/-- What a program knows after it was told a reply. -/
def Hold.after (k : Hold) : (r : Request) → r.Reply → Hold
  | .getExecution _, .ok (some e) => { k with loaded := some e }
  | .updateExecution e, .ok () => ⟨none, if e.status.isTerminal then some e.status else k.ended⟩
  | _, _ => k

/-- The record that is told is the one that was asked for. -/
def Request.Fits : (r : Request) → r.Reply → Prop
  | .getExecution id, .ok (some e) => e.id = id
  | _, _ => True

/-- **What may be asked for** by a program that knows so much of the record of a run. While a step
is run, others may change the record, and so none is held then. -/
def Request.Proper (id : Uuid) (k : Hold) : Request → Prop
  | .getExecution i => i = id
  | .updateExecution e' => ∃ e, k.loaded = some e ∧ e.Grows e'
  | .createExecution _ => False
  | .emit i data => i = id ∧ (data.Concludes → ∃ st, k.ended = some st ∧ st ≠ .cancelled)
  | .runStep a _ _ => a.executionId = id ∧ k.loaded = none
  | _ => True

namespace Program

variable {α β : Type} {id : Uuid} {k : Hold}

/-- **A program that heeds the record** of a run, and what it knows in the end. -/
def Heeds (id : Uuid) (post : Hold → α → Prop) (k : Hold) : Program α → Prop
  | .done a => post k a
  | .ask r next => r.Proper id k ∧
    ∀ reply, r.Fits reply → Heeds id post (k.after r reply) (next reply)

theorem Heeds.bind {p : Program α} {f : α → Program β} {post : Hold → α → Prop}
    {post' : Hold → β → Prop} (hp : p.Heeds id post k)
    (hf : ∀ k a, post k a → (f a).Heeds id post' k) : (p.bind f).Heeds id post' k := by
  induction p generalizing k with
  | done a => exact hf k a hp
  | ask r next ih => exact ⟨hp.1, fun reply hr => ih reply (hp.2 reply hr)⟩

theorem Heeds.mono {p : Program α} {post post' : Hold → α → Prop} (hp : p.Heeds id post k)
    (h : ∀ k a, post k a → post' k a) : p.Heeds id post' k := by
  rw [← Program.bind_done p]
  exact hp.bind h

end Program

namespace Orchestration

variable {α β : Type} {id : Uuid} {k : Hold} {post : Hold → α → Prop}

/-- A program that heeds the record of a run, and what it knows unless it ends with an error. -/
def Heeds (id : Uuid) (post : Hold → α → Prop) (k : Hold) (p : Orchestration α) : Prop :=
  Program.Heeds id (fun k r => ∀ a, r = .ok a → post k a) k (ExceptT.run p)

namespace Heeds

variable {p : Orchestration α} {f : α → Orchestration β} {post' : Hold → β → Prop}

theorem pure {a : α} (h : post k a) : Heeds id post k (Pure.pure a : Orchestration α) := by
  rintro _ ⟨⟩
  exact h

theorem throw (e : RunError) : Heeds id post k (throw e : Orchestration α) := by
  rintro _ ⟨⟩

/-- One program after the other. -/
theorem bind (hp : Heeds id post k p) (hf : ∀ k a, post k a → Heeds id post' k (f a)) :
    Heeds id post' k (p >>= f) := by
  refine Program.Heeds.bind (p := ExceptT.run p) (f := ExceptT.bindCont f) hp fun k r hr => ?_
  cases r with
  | ok a => exact hf k a (hr a rfl)
  | error e => rintro _ ⟨⟩

/-- What cannot fail is done. -/
theorem lift {p : Program α} (hp : p.Heeds id post k) : Heeds id post k (lift p) := by
  refine Program.Heeds.bind hp fun k a ha => ?_
  rintro _ ⟨⟩
  exact ha

/-- The store is asked. -/
theorem stored {p : Program (Except StoreError α)}
    (hp : p.Heeds id (fun k r => ∀ a, r = .ok a → post k a) k) : Heeds id post k (stored p) := by
  refine Program.Heeds.bind hp fun k r hr => ?_
  rintro a ha
  cases r with
  | ok b => cases ha; exact hr _ rfl
  | error e => cases ha

/-- What a program ends with is looked at. -/
theorem attempt (hp : Heeds id post k p) :
    Heeds id (fun _ _ => True) k (Orchestration.lift (ExceptT.run p)) :=
  lift (Program.Heeds.mono hp fun _ _ _ => trivial)

end Heeds

/-- Something is asked for that tells nothing of the record. -/
theorem heeds_request {r : Request} (hr : r.Proper id k) (hk : ∀ reply, k.after r reply = k) :
    Heeds id (fun k' _ => k' = k) k (lift (Program.request r)) :=
  .lift ⟨hr, fun reply _ => hk reply⟩

/-- **The record of a run is loaded.** -/
theorem heeds_load (id : Uuid) (k : Hold) :
    Heeds id (fun k' e => k'.loaded = some e ∧ e.id = id) k (load id) := by
  have hget : Heeds id (fun k' (x : Option Execution) =>
      ∀ e, x = some e → k'.loaded = some e ∧ e.id = id) k
      (stored (Program.request (.getExecution id))) := by
    refine .stored ⟨rfl, fun reply hr => ?_⟩
    rintro _ rfl _ rfl
    exact ⟨rfl, hr⟩
  refine hget.bind fun k' x hx => ?_
  cases x with
  | none => exact .throw _
  | some e => exact .pure (hx e rfl)

/-- **The record of a run is kept** as what the loaded one has grown into. -/
theorem heeds_update {e : Execution} (change : Execution → Timestamp → Execution) {st : Status}
    (hk : k.loaded = some e) (hg : ∀ now, e.Grows (change e now))
    (hst : ∀ now, (change e now).status = st) :
    Heeds id (fun k' _ => k'.loaded = none ∧ (st.isTerminal = true → k'.ended = some st)) k
      (update e change) := by
  refine .bind (heeds_request trivial fun _ => rfl) ?_
  rintro _ now rfl
  refine .bind (.stored ⟨⟨e, hk, hg now⟩, fun reply _ => ?_⟩) fun k' _ he => .pure he
  rintro _ rfl
  refine ⟨rfl, fun hs => ?_⟩
  rw [← hst now] at hs ⊢
  exact if_pos hs

/-- Something is announced. -/
theorem heeds_emit {data : EventData}
    (h : data.Concludes → ∃ st, k.ended = some st ∧ st ≠ .cancelled) :
    Heeds id (fun _ _ => True) k (lift (Program.emit id data)) :=
  .lift ⟨⟨rfl, h⟩, fun _ _ => trivial⟩

theorem heeds_announceStep (a : Assignment) (k : Hold) (s : Step) (depth : Nat) (o : Outcome)
    (ms : Nat) : Heeds a.executionId (fun _ _ => True) k (lift (announceStep a s depth o ms)) := by
  refine .lift ⟨⟨rfl, by rintro ⟨⟩⟩, fun _ _ => ?_⟩
  cases o.failure? with
  | none => trivial
  | some e => exact ⟨trivial, fun _ _ => trivial⟩

/-- A result is kept in the record. -/
theorem heeds_persist (id : Uuid) (k : Hold) (r : StepResult) :
    Heeds id (fun _ _ => True) k (persist id r) :=
  (heeds_load id k).bind fun _ e he =>
    .bind (heeds_update (fun e now => e.addResult r now) he.1 (e.grows_addResult r) fun _ => rfl)
      fun _ _ _ => .pure trivial

/-- A run looks whether it is cancelled. -/
theorem heeds_cancelRequested (id : Uuid) (k : Hold) :
    Heeds id (fun _ _ => True) k (cancelRequested id) := by
  refine .bind (heeds_request trivial fun _ => rfl) fun k b _ => ?_
  cases b with
  | true => exact .pure trivial
  | false => exact (heeds_load id k).bind fun _ _ _ => .pure trivial

/-! ### Ending -/

theorem heeds_markFailed (id : Uuid) (k : Hold) (error : String) :
    Heeds id (fun _ _ => True) k (markFailed id error) := by
  refine (heeds_load id k).bind fun k e he => ?_
  split
  next => exact .pure trivial
  next hs =>
    exact .bind (heeds_update (fun e now => e.fail error now) he.1
      (fun _ => .of_not_isTerminal hs rfl rfl) fun _ => rfl) fun _ _ _ => .pure trivial

variable (a : Assignment) (totalSteps : Nat)

theorem heeds_finishCancelled (k : Hold) (stepId : Option String) :
    Heeds a.executionId (fun _ _ => True) k (finishCancelled a totalSteps stepId) := by
  have hend : ∀ k (e : Execution), Heeds a.executionId (fun _ _ => True) k do
      lift (Program.emit a.executionId (.cancelled stepId e.completedCount totalSteps))
      return e.summary totalSteps :=
    fun k e => .bind (heeds_emit (by rintro ⟨⟩)) fun _ _ _ => .pure trivial
  refine (heeds_load _ k).bind fun k e he => ?_
  dsimp only
  split
  next => exact hend k e
  next hs =>
    exact .bind (heeds_update (fun e now => e.finish .cancelled now) he.1
      (fun _ => .of_not_isTerminal hs rfl rfl) fun _ => rfl) fun k e _ => hend k e

theorem heeds_finishTerminal (k : Hold) (status : Status) (stepId : Option String) :
    Heeds a.executionId (fun _ _ => True) k (finishTerminal a totalSteps status stepId) := by
  cases status with
  | cancelled => exact heeds_finishCancelled a totalSteps k stepId
  | _ => exact .throw _

theorem heeds_finishFailed (k : Hold) (stepId : String) (error : StepError) :
    Heeds a.executionId (fun _ _ => True) k (finishFailed a totalSteps stepId error) := by
  refine (heeds_load _ k).bind fun k e he => ?_
  split
  next => exact heeds_finishTerminal a totalSteps k _ _
  next hs =>
    refine .bind (heeds_update (fun e now => e.fail error.message now) he.1
      (fun _ => .of_not_isTerminal hs rfl rfl) fun _ => rfl) fun k e hk => ?_
    exact .bind (heeds_emit fun _ => ⟨.failed, hk.2 rfl, by decide⟩) fun _ _ _ => .throw _

theorem heeds_finishCompleted (k : Hold) :
    Heeds a.executionId (fun _ _ => True) k (finishCompleted a totalSteps) := by
  refine (heeds_load _ k).bind fun k e he => ?_
  split
  next => exact heeds_finishTerminal a totalSteps k _ _
  next hs =>
    refine .bind (heeds_update Execution.complete he.1
      (fun _ => .of_not_isTerminal hs rfl rfl) fun _ => rfl) fun k e hk => ?_
    exact .bind (heeds_emit fun _ => ⟨.completed, hk.2 rfl, by decide⟩) fun _ _ _ => .pure trivial

/-! ### Running -/

/-- **The steps at the top level heed the record.** -/
theorem heeds_runSteps (k : Hold) (steps : List Step) (c : Context) :
    Heeds a.executionId (fun _ _ => True) k (runSteps a totalSteps steps c) := by
  induction steps generalizing k c with
  | nil =>
    rw [runSteps]
    refine (heeds_cancelRequested _ k).bind fun k b _ => ?_
    cases b with
    | true => exact heeds_finishCancelled a totalSteps k none
    | false => exact heeds_finishCompleted a totalSteps k
  | cons s steps ih =>
    rw [runSteps]
    refine (heeds_load _ k).bind fun k e he => .bind (heeds_request trivial fun _ => rfl) ?_
    rintro _ b rfl
    split
    · exact heeds_finishCancelled a totalSteps _ (some s.id)
    refine .bind (heeds_update (fun e now => e.atStep s.id now) he.1 (e.grows_atStep s.id)
      fun _ => rfl) fun k _ hk => ?_
    refine .bind (heeds_request ⟨rfl, hk.1⟩ fun _ => rfl) ?_
    rintro k ⟨o, c⟩ -
    dsimp only
    split
    · exact heeds_finishCancelled a totalSteps k (some s.id)
    refine (heeds_announceStep a k s 0 o _).bind fun k _ _ =>
      (heeds_persist _ k _).bind fun k _ _ => ?_
    cases o.failure? with
    | none => exact ih k c
    | some error =>
      refine (heeds_cancelRequested _ k).bind fun k b _ => ?_
      cases b with
      | true => exact heeds_finishCancelled a totalSteps k (some s.id)
      | false =>
        simp only [Bool.false_eq_true, if_false]
        split
        · exact ih k c
        · exact heeds_finishFailed a totalSteps k s.id error

theorem heeds_drive (engine : Expr.Engine) (k : Hold) (e : Execution) (w : Workflow) :
    Heeds e.id (fun _ _ => True) k (drive engine e w) := by
  have hitem : Heeds e.id (fun _ _ => True) k
      (stored (Program.request (.getWorkItem e.workItemId))) :=
    .stored ⟨trivial, fun _ _ _ _ => trivial⟩
  refine hitem.bind fun k item _ => ?_
  cases Context.build engine e item w.vars with
  | error error => exact (heeds_markFailed _ k _).bind fun _ _ _ => .throw _
  | ok c =>
    exact .bind (heeds_emit (by rintro ⟨⟩)) fun k _ _ =>
      heeds_runSteps ⟨e.id, e.workflowId, e.workItemId⟩ w.steps.length k w.steps c

theorem heeds_runnable (id : Uuid) (k : Hold) (workflowId : String) :
    Heeds id (fun _ _ => True) k (runnable workflowId) := by
  have hget : Heeds id (fun _ _ => True) k (stored (Program.request .getWorkflows)) :=
    .stored ⟨trivial, fun _ _ _ _ => trivial⟩
  have hcatalog : Heeds id (fun _ _ => True) k catalog := hget.bind fun _ _ _ => .pure trivial
  have hresolve : Heeds id (fun _ _ => True) k (resolve workflowId) := by
    refine hcatalog.bind fun k catalog _ => ?_
    cases catalog.resolve workflowId with
    | error e => exact .throw _
    | ok w => exact fun _ _ => trivial
  refine hresolve.bind fun k w _ => ?_
  split
  · exact .throw _
  · exact .pure trivial

/-- **Runs heed the record.** -/
theorem heeds_run (engine : Expr.Engine) (id : Uuid) (k : Hold) :
    Heeds id (fun _ _ => True) k (run engine id) := by
  refine (heeds_load id k).bind fun k e he => ?_
  split
  · exact .throw _
  refine .bind (heeds_runnable id k _).attempt fun k r _ => ?_
  cases r with
  | error error => exact .bind (heeds_markFailed id k _) fun _ _ _ => .throw _
  | ok w =>
    refine .bind (heeds_request trivial fun _ => rfl) fun k _ _ => ?_
    obtain rfl : e.id = id := he.2
    -- whatever the run ends with, it is ended too
    exact Program.Heeds.bind (heeds_drive engine k e w) fun _ _ _ =>
      ⟨trivial, fun _ _ _ _ => trivial⟩

/-- **A cancellation heeds the record**, and has ended the run unless it ends with an error. -/
theorem heeds_cancel (id : Uuid) (k : Hold) :
    Heeds id (fun k _ => k.ended = some .cancelled) k (cancel id) := by
  refine (heeds_load id k).bind fun k e he => ?_
  split
  next => exact .throw _
  next hs =>
    refine .bind (heeds_update (fun e now => e.finish .cancelled now) he.1
      (fun _ => .of_not_isTerminal hs rfl rfl) fun _ => rfl) fun k _ hk => ?_
    refine .bind (heeds_request trivial fun _ => rfl) ?_
    rintro _ _ rfl
    exact .pure (hk.2 rfl)

end Orchestration

end WorkflowEngine
