import WorkflowEngine.Proofs.Run.Beginning
import WorkflowEngine.Proofs.Run.Finality

/-!
# Runs that cannot begin

A run does not begin if its workflow cannot be resolved, is invalid or abstract, or if a variable of
it cannot be evaluated. It is refused then before anything is told or asked of anyone: all that is
left of it is that its record has failed. The record keeps the text of what stood in the way. What
the run reports is the same, but for a variable, where it says before that the expression is wrong.

## Main definitions

* `World.AfterCalls`: only what is going to fail is different
* `World.keep`: a record is kept in place of the one of its run
* `World.Keeps`: that, or a call of the store fails
* `World.Unseen`: nothing is different but the record of a run
* `World.Obstacle`: what keeps a run from beginning, and what that reports
* `RunError.cause`: what stood in the way, as text

## Main results

* `World.Ends.looks`: programs that only look
* `World.ends_markFailed_keeps`: the record of a run that cannot begin
* `World.Obstacle.ends_run`: a run that cannot begin
* `refused_run_leaves_only_its_record`: what is left of it, and that it is not run again
-/

namespace WorkflowEngine

/-- What is asked for by looking at the store. -/
inductive Request.Looks : Request → Prop where
  | getWorkflows : Looks .getWorkflows
  | getExecution {id} : Looks (.getExecution id)
  | getWorkItem {id} : Looks (.getWorkItem id)

namespace World

variable {α β : Type} {w w' w'' : World} {id : Uuid} {e : Execution}

/-! ### Calls of the store -/

/-- **Only what is going to fail is different**, as after calls of the store that look. -/
def AfterCalls (w w' : World) : Prop :=
  ∃ faults, w' = { w with faults } ∧ (w.faults = [] → faults = [])

theorem AfterCalls.refl (w : World) : AfterCalls w w := ⟨w.faults, rfl, id⟩

theorem AfterCalls.trans (h : AfterCalls w w') (h' : AfterCalls w' w'') : AfterCalls w w'' := by
  obtain ⟨faults, rfl, hf⟩ := h
  obtain ⟨faults', rfl, hf'⟩ := h'
  exact ⟨faults', rfl, fun h => hf' (hf h)⟩

theorem AfterCalls.store (h : AfterCalls w w') : w'.store = w.store := by
  obtain ⟨faults, rfl, -⟩ := h
  rfl

theorem AfterCalls.record? (h : AfterCalls w w') (id : Uuid) : w'.record? id = w.record? id := by
  obtain ⟨faults, rfl, -⟩ := h
  rfl

theorem AfterCalls.runs (h : AfterCalls w w') : w'.runs = w.runs := by
  obtain ⟨faults, rfl, -⟩ := h
  rfl

theorem AfterCalls.now (h : AfterCalls w w') : w'.now = w.now := by
  obtain ⟨faults, rfl, -⟩ := h
  rfl

/-- A call of the store has failed that could before, too. -/
theorem Fails.of_afterCalls {r : Except RunError α} (h : AfterCalls w w') (hr : w'.Fails r) :
    w.Fails r := by
  obtain ⟨faults, rfl, hf⟩ := h
  exact ⟨mt hf hr.1, hr.2⟩

theorem Fails.error {x : RunError} (h : w.Fails (.error x : Except RunError α)) :
    w.Fails (.error x : Except RunError β) :=
  ⟨h.1, h.2.imp fun _ hx => congrArg Except.error (Except.error.inj hx)⟩

theorem afterCalls_of_look {call : StoreCall} {value : Store → α} {r : Except StoreError α}
    (h : w.look call value = (r, w')) : AfterCalls w w' := by
  obtain ⟨r, faults, hw, hf, -⟩ := w.countCall_eq call
  rw [look, hw] at h
  cases h
  exact ⟨faults, rfl, hf⟩

theorem afterCalls_of_serve {r : Request} {reply : r.Reply} (hr : r.Looks)
    (hs : w.serve r = some (reply, w')) : AfterCalls w w' := by
  cases hr with
  | getWorkflows | getExecution | getWorkItem => exact afterCalls_of_look (Option.some.inj hs)

theorem afterCalls_of_perform {p : Program α} {a : α} (hp : p.Asks Request.Looks)
    (h : w.perform p = some (a, w')) : AfterCalls w w' := by
  induction p generalizing w with
  | done a =>
    cases h
    exact .refl _
  | ask r k ih =>
    rw [perform] at h
    split at h
    next reply w₁ hs => exact (afterCalls_of_serve hp.1 hs).trans (ih reply (hp.2 reply) h)
    next => cases h

/-- **Programs that only look** leave all but what is going to fail. -/
theorem Ends.looks {p : Orchestration α} {x : Except RunError α}
    (h : w.Ends p fun r w' => Untouched w w' ∧ (r = x ∨ w.Fails r))
    (hp : Orchestration.Asks Request.Looks p) :
    w.Ends p fun r w' => AfterCalls w w' ∧ (r = x ∨ w.Fails r) := by
  obtain ⟨r, w', hr, -, hpost⟩ := h
  exact ⟨r, w', hr, afterCalls_of_perform hp hr, hpost⟩

/-- A program that looks, and then another one. -/
theorem Ends.bind_afterCalls {p : Orchestration α} {x : α} {f : α → Orchestration β}
    {post : Except RunError β → World → Prop}
    (h : w.Ends p fun r w' => AfterCalls w w' ∧ (r = .ok x ∨ w.Fails r))
    (hok : ∀ w', AfterCalls w w' → w'.Ends (f x) post)
    (herr : ∀ e w', AfterCalls w w' → w.faults ≠ [] → post (.error (.store e)) w') :
    w.Ends (p >>= f) post := by
  refine h.bind ?_ ?_
  · rintro a w' ⟨hw, ha | ⟨-, e, ha⟩⟩
    · cases ha
      exact hok w' hw
    · cases ha
  · rintro err w' ⟨hw, he | ⟨hne, e, he⟩⟩
    · cases he
    · cases he
      exact herr e w' hw hne

/-! ### Keeping a record -/

/-- **A record is kept in place of the one of its run.** -/
def keep (w : World) (e : Execution) : World :=
  { w with store := { w.store with
    executions := w.store.executions.map fun x => if x.id == e.id then e else x } }

theorem record?_keep {old : Execution} (h : w.record? e.id = some old) :
    (w.keep e).record? e.id = some e := by
  unfold record? at h ⊢
  split at h
  next hv => exact (if_pos hv).trans (find?_update h)
  next => cases h

theorem record?_keep_of_ne {i : Uuid} (h : e.id ≠ i) : (w.keep e).record? i = w.record? i :=
  congrArg (fun x => if w.isVisible i then x else none) (find?_update_of_ne _ h)

theorem AfterCalls.keep (h : AfterCalls w w') (e : Execution) :
    AfterCalls (w.keep e) (w'.keep e) := by
  obtain ⟨faults, rfl, hf⟩ := h
  exact ⟨faults, rfl, hf⟩

theorem AfterCalls.record?_of_keep {old : Execution} (h : AfterCalls (w.keep e) w')
    (hold : w.record? e.id = some old) : w'.record? e.id = some e :=
  (h.record? e.id).trans (record?_keep hold)

/-- A call of the store that keeps a record. -/
theorem serve_updateExecution_keep {old : Execution} (h : w.record? e.id = some old) :
    ∃ r w', w.serve (.updateExecution e) = some (r, w') ∧
      (r = .ok () ∧ AfterCalls (w.keep e) w' ∨
        w.faults ≠ [] ∧ (∃ err, r = .error err) ∧ AfterCalls w w') := by
  obtain ⟨r, faults, hw, hf, hr⟩ := w.countCall_eq .updateExecution
  unfold record? at h
  split at h
  next hv =>
    have hu : w.store.updateExecution e = .ok (w.keep e).store := by
      rw [Store.updateExecution, h]
      rfl
    rw [serve, change, hw]
    rcases hr with rfl | ⟨hne, err, rfl⟩
    · simp only [hv, if_true, hu]
      exact ⟨_, _, rfl, .inl ⟨rfl, faults, rfl, hf⟩⟩
    · exact ⟨_, _, rfl, .inr ⟨hne, ⟨err, rfl⟩, faults, rfl, hf⟩⟩
  next => cases h

/-- **A record is kept, and nothing else is different**; or a call of the store fails, and then
nothing is. -/
def Keeps (w : World) (e : Execution) (good : Except RunError α → Prop) (r : Except RunError α)
    (w' : World) : Prop :=
  good r ∧ AfterCalls (w.keep e) w' ∨ w.Fails r ∧ AfterCalls w w'

theorem Keeps.of_afterCalls {good : Except RunError α → Prop} {r : Except RunError α}
    (hcalls : AfterCalls w w') (h : w'.Keeps e good r w'') : w.Keeps e good r w'' := by
  rcases h with ⟨hr, hkept⟩ | ⟨hfails, hrest⟩
  · exact .inl ⟨hr, (hcalls.keep e).trans hkept⟩
  · exact .inr ⟨.of_afterCalls hcalls hfails, hcalls.trans hrest⟩

/-- A program that keeps a record, and then one that does nothing more. -/
theorem Ends.bind_keeps {p : Orchestration α} {f : α → Orchestration β}
    {good : Except RunError β → Prop}
    (h : w.Ends p (w.Keeps e fun r => ∃ a, r = .ok a))
    (hf : ∀ a (w' : World), w'.Ends (f a) fun r w'' => good r ∧ w'' = w') :
    w.Ends (p >>= f) (w.Keeps e good) := by
  refine h.bind ?_ ?_
  · rintro a w' (⟨-, hkept⟩ | ⟨⟨-, err, he⟩, -⟩)
    · refine (hf a w').mono ?_
      rintro r w'' ⟨hr, rfl⟩
      exact .inl ⟨hr, hkept⟩
    · cases he
  · rintro err w' (⟨⟨a, he⟩, -⟩ | ⟨hfails, hrest⟩)
    · cases he
    · exact .inr ⟨hfails.error, hrest⟩

/-- The record of a run is kept as it is after a change. -/
theorem ends_update_keeps {old : Execution} (change : Execution → Timestamp → Execution)
    (h : w.record? id = some old) (hid : (change e w.now).id = id) :
    w.Ends (Orchestration.update e change)
      (w.Keeps (change e w.now) fun r => ∃ x, r = .ok x) := by
  refine .lift_bind rfl ?_
  have hold : w.record? (change e w.now).id = some old := by rw [hid, h]
  obtain ⟨r, w', hs, hr⟩ := serve_updateExecution_keep hold
  have hp : w.Ends (Orchestration.stored (Program.request (.updateExecution (change e w.now))))
      fun r' w'' => w'' = w' ∧ r' = r.mapError .store :=
    ⟨_, w', (perform_bind _ _).trans (congrArg (Option.bind · _) (perform_request hs)), rfl, rfl⟩
  refine hp.bind ?_ ?_
  · rintro a w'' ⟨rfl, ha⟩
    rcases hr with ⟨rfl, hkept⟩ | ⟨-, ⟨err, rfl⟩, -⟩
    · exact .pure (.inl ⟨⟨_, rfl⟩, hkept⟩)
    · cases ha
  · rintro a w'' ⟨rfl, ha⟩
    rcases hr with ⟨rfl, -⟩ | ⟨hne, ⟨err, rfl⟩, hcalls⟩
    · cases ha
    · cases ha
      exact .inr ⟨⟨hne, err, rfl⟩, hcalls⟩

/-- **The record of a run that cannot begin is kept as failed.** -/
theorem ends_markFailed_keeps (h : w.record? id = some e) (hs : e.status = .running)
    (error : String) :
    w.Ends (Orchestration.markFailed id error)
      (w.Keeps (e.fail error w.now) fun r => ∃ x, r = .ok x) := by
  refine ((ends_load h).looks (Orchestration.asks_load .getExecution)).bind_afterCalls
    (fun w₁ hcalls => ?_) fun err w₁ hcalls hne => .inr ⟨⟨hne, err, rfl⟩, hcalls⟩
  rw [if_neg (by rw [hs]; exact Bool.false_ne_true)]
  have hrec := (hcalls.record? id).trans h
  have hupdate := ends_update_keeps (e := e) (fun e now => e.fail error now) hrec
    (id_of_record? h :)
  rw [hcalls.now] at hupdate
  exact (hupdate.bind_keeps fun _ _ => .pure ⟨⟨_, rfl⟩, rfl⟩).mono fun _ _ => .of_afterCalls hcalls

/-- A run is refused by an error, and its record has failed. -/
theorem ends_refuse (h : w.record? id = some e) (hs : e.status = .running) (text : String)
    (error : RunError) :
    w.Ends (do Orchestration.markFailed id text; throw error : Orchestration α)
      (w.Keeps (e.fail text w.now) (· = .error error)) :=
  (ends_markFailed_keeps h hs text).bind_keeps fun _ _ => .throw ⟨rfl, rfl⟩

/-! ### What is left of a run that cannot begin -/

/-- **What keeps a run from beginning**, and what that reports: its workflow cannot be resolved or
has errors, is abstract, or has a variable that cannot be evaluated. -/
inductive Obstacle (engine : Expr.Engine) (w : World) (e : Execution) : RunError → Prop where
  | unresolved {error} (h : w.store.resolved e.workflowId = .error error) :
      Obstacle engine w e (.workflow error)
  | isAbstract {v} (h : w.store.resolved e.workflowId = .ok v) (ha : v.isAbstract = true) :
      Obstacle engine w e (.workflow (.notRunnable v.id))
  | unevaluated {v error} (h : w.store.resolved e.workflowId = .ok v) (ha : v.isAbstract = false)
      (hc : Context.build engine e (w.store.getWorkItem? e.workItemId) v.vars = .error error) :
      Obstacle engine w e (.expression error)

/-- **Nothing is different but the record of a run**, and what is going to fail: nothing was seen,
no run has begun that has not ended, and everything else in the store is as it was. -/
structure Unseen (id : Uuid) (w w' : World) : Prop where
  log : w'.log = w.log
  runs : w'.runs.Sublist w.runs
  others : ∀ i, i ≠ id → w'.record? i = w.record? i
  workflows : w'.store.workflows = w.store.workflows
  workItems : w'.store.workItems = w.store.workItems

theorem Unseen.of_afterCalls (h : AfterCalls w w') : Unseen id w w' := by
  obtain ⟨faults, rfl, -⟩ := h
  exact ⟨rfl, .refl _, fun _ _ => rfl, rfl, rfl⟩

theorem Unseen.of_keep (hid : e.id = id) (h : AfterCalls (w.keep e) w') : Unseen id w w' := by
  obtain ⟨faults, rfl, -⟩ := h
  refine ⟨rfl, .refl _, fun i hi => ?_, rfl, rfl⟩
  exact (record?_keep_of_ne (hid ▸ hi.symm) : (w.keep e).record? i = w.record? i)

/-- A program that keeps the record of a run leaves nothing else. -/
theorem Keeps.unseen {old : Execution} {good : Except RunError α → Prop} {r : Except RunError α}
    (h : w.Keeps e good r w') (hid : e.id = id) (hold : w.record? id = some old) :
    Unseen id w w' ∧ (good r ∧ w'.record? id = some e ∨ w.Fails r) := by
  subst hid
  rcases h with ⟨hr, hkept⟩ | ⟨hfails, hrest⟩
  · exact ⟨.of_keep rfl hkept, .inl ⟨hr, hkept.record?_of_keep hold⟩⟩
  · exact ⟨.of_afterCalls hrest, .inr hfails⟩

theorem Keeps.runs {good : Except RunError α → Prop} {r : Except RunError α}
    (h : w.Keeps e good r w') : w'.runs = w.runs :=
  h.elim (fun h => h.2.runs) fun h => h.2.runs

end World

/-- **What stood in the way of a run**, as text: that of the error, without saying that it is one of
an expression. -/
def RunError.cause : RunError → String
  | .expression error => error.message
  | error => error.message

namespace World

variable {α : Type} {engine : Expr.Engine} {w w' w₁ : World} {id : Uuid} {e : Execution}
  {error : RunError}

/-- A run that is refused leaves nothing but its record. -/
theorem unseen_of_refuse (h : w.record? id = some e) (hs : e.status = .running)
    (text : String) (hcalls : AfterCalls w w₁) :
    w₁.Ends (do Orchestration.markFailed id text; throw error : Orchestration α) fun r w' =>
      Unseen id w w' ∧ (r = .error error ∧ w'.record? id = some (e.fail text w.now) ∨
        w.Fails r) := by
  have hrefuse := ends_refuse (α := α) ((hcalls.record? id).trans h) hs text error
  rw [hcalls.now] at hrefuse
  exact hrefuse.mono fun r w' hr => (Keeps.of_afterCalls hcalls hr).unseen (id_of_record? h :) h

/-- A run that has begun is refused if a variable of its workflow cannot be evaluated. -/
theorem ends_drive_refuse {v : Workflow} {x : Template.EvalError} (h : w.record? id = some e)
    (hs : e.status = .running)
    (hc : Context.build engine e (w.store.getWorkItem? e.workItemId) v.vars = .error x) :
    w.Ends (Orchestration.drive engine e v)
      (w.Keeps (e.fail x.message w.now) (· = .error (.expression x))) := by
  have hitem := ends_stored_look (w := w) (p := Program.request (.getWorkItem e.workItemId))
    .getWorkItem (fun s => s.getWorkItem? e.workItemId) rfl
  refine (hitem.looks (.stored (.request .getWorkItem))).bind_afterCalls (fun w₁ hcalls => ?_)
    fun err w₁ hcalls hne => .inr ⟨⟨hne, err, rfl⟩, hcalls⟩
  rw [hc]
  obtain rfl : e.id = id := id_of_record? h
  have hrefuse := ends_refuse (α := Summary) ((hcalls.record? _).trans h) hs x.message
    (.expression x)
  rw [hcalls.now] at hrefuse
  exact hrefuse.mono fun _ _ => .of_afterCalls hcalls

/-- What a program ends with, once the run is ended too. -/
theorem Ends.ending {p : Orchestration α} {post : Except RunError α → World → Prop}
    (h : w.Ends p post) (id : Uuid) :
    w.Ends (Orchestration.ending id p) fun r w' => ∃ w'', post r w'' ∧ w' = w''.endRun id := by
  obtain ⟨r, w'', hr, hpost⟩ := h
  exact ⟨r, _, (perform_bind (ExceptT.run p) _).trans (by rw [hr]; rfl), w'', hpost, rfl⟩

/-- A run that has begun and ended, with nothing else different. -/
theorem Unseen.of_endRun (hcalls : AfterCalls w w₁) (h : Unseen id (w₁.beginRun id) w')
    (hruns : w'.runs = (w₁.beginRun id).runs) : Unseen id w (w'.endRun id) := by
  obtain ⟨faults, rfl, -⟩ := hcalls
  refine ⟨h.log, ?_, h.others, h.workflows, h.workItems⟩
  simp only [endRun, hruns, beginRun]
  rw [List.filter_cons_of_neg (by simp), List.filter_filter]
  exact List.filter_sublist

/-- A run that begins leaves nothing but its record if a variable of its workflow cannot be
evaluated. -/
theorem unseen_of_begin {v : Workflow} {x : Template.EvalError} (h : w.record? id = some e)
    (hs : e.status = .running) (hcalls : AfterCalls w w₁)
    (hc : Context.build engine e (w.store.getWorkItem? e.workItemId) v.vars = .error x) :
    w₁.Ends (Orchestration.begin engine id e v) fun r w' => Unseen id w w' ∧
      (r = .error (.expression x) ∧ w'.record? id = some (e.fail x.message w.now) ∨
        w.Fails r) := by
  refine .lift_bind (r := .beginRun id) rfl ?_
  have hrec : (w₁.beginRun id).record? id = some e := (hcalls.record? id).trans h
  have hnow : (w₁.beginRun id).now = w.now := hcalls.now
  rw [← hcalls.store] at hc
  have hdrive := ends_drive_refuse hrec hs (hc :)
  rw [hnow] at hdrive
  refine (hdrive.ending id).mono ?_
  rintro r _ ⟨w₂, hr, rfl⟩
  obtain ⟨hunseen, hr'⟩ := hr.unseen (id_of_record? h :) hrec
  exact ⟨.of_endRun hcalls hunseen hr.runs, hr'.imp_right (.of_afterCalls hcalls)⟩

/-- **A run that cannot begin** is refused: all that is different is its record, which has failed,
unless a call of the store fails. -/
theorem Obstacle.ends_run (h : w.record? id = some e) (hs : e.status = .running)
    (ho : Obstacle engine w e error) :
    w.Ends (Orchestration.run engine id) fun r w' => Unseen id w w' ∧
      (r = .error error ∧ w'.record? id = some (e.fail error.cause w.now) ∨ w.Fails r) := by
  -- The run comes to be among those that have begun only if its workflow can be run.
  refine ((ends_load h).looks (Orchestration.asks_load .getExecution)).bind_afterCalls
    (fun w₁ hcalls => ?_) fun err w₁ hcalls hne => ⟨.of_afterCalls hcalls, .inr ⟨hne, err, rfl⟩⟩
  simp only [hs, Status.isTerminal, Bool.false_eq_true, if_false]
  obtain ⟨r, w₂, hp, hcalls₂, hr⟩ :=
    (w₁.ends_runnable e.workflowId).looks (Orchestration.asks_runnable .getWorkflows)
  refine (ends_lift hp).bind ?_ ?_
  · rintro _ w₂ ⟨⟨⟩, rfl⟩
    have hall := hcalls.trans hcalls₂
    rw [hcalls.store] at hr
    rcases hr with rfl | ⟨hne, x, rfl⟩
    · cases ho with
      | unresolved hv =>
        rw [hv]
        exact unseen_of_refuse h hs _ hall
      | isAbstract hv ha =>
        simp only [hv, ha, if_true]
        exact unseen_of_refuse h hs _ hall
      | unevaluated hv ha hc =>
        simp only [hv, ha, Bool.false_eq_true, if_false]
        exact unseen_of_begin h hs hall hc
    · -- a call of the store has failed, which is refused like an obstacle
      refine (unseen_of_refuse h hs _ hall).mono ?_
      rintro r w' ⟨hw, ⟨rfl, -⟩ | hfails⟩
      · exact ⟨hw, .inr (.of_afterCalls hcalls ⟨hne, x, rfl⟩)⟩
      · exact ⟨hw, .inr hfails⟩
  · rintro err w' ⟨⟨⟩, -⟩

end World

/-- **A run that cannot begin leaves nothing but its record.** If its workflow cannot be resolved or
has errors, is abstract, or has a variable that cannot be evaluated, a run from a record that says
`RUNNING` ends with that error, without having waited for anyone. No event is seen, no run is left
among those that have begun that was not there before, and the store is as it was, but for the
record of the run. That has failed, with the text of what stood in the way and the time, and is
otherwise the same; as long as it says so, the run is not run again. A call of the store may fail,
and then this is the error. -/
theorem refused_run_leaves_only_its_record (engine : Expr.Engine) {w : World} {id : Uuid}
    {e : Execution} {error : RunError} (h : w.record? id = some e) (hs : e.status = .running)
    (ho : w.Obstacle engine e error) :
    w.Ends (Orchestration.run engine id) fun r w' => w.Unseen id w' ∧
      (w.Fails r ∨
        r = .error error ∧
        w'.record? id = some { e with
          status := .failed
          error := some error.cause
          updatedAt := w.now
          completedAt := some w.now } ∧
        ∀ (engine' : Expr.Engine) (w'' : World), w''.record? id = w'.record? id →
          w''.Ends (Orchestration.run engine' id) fun r' w₃ => w''.Untouched w₃ ∧
            (r' = .error (.alreadyFinished id .failed) ∨ w''.Fails r')) := by
  refine (ho.ends_run h hs).mono ?_
  rintro r w' ⟨hw, ⟨hr, hrec⟩ | hfails⟩
  · refine ⟨hw, .inr ⟨hr, hrec, fun engine' w'' hw'' => ?_⟩⟩
    exact World.ends_run_of_isTerminal engine' (hw''.trans hrec) rfl
  · exact ⟨hw, .inl hfails⟩

/-- A run of an abstract workflow. -/
theorem refused_run_leaves_only_its_record_abstract :
    (World.holding (.single ⟨none, none, false⟩ true)).Ends (Orchestration.run .null ⟨1⟩)
      fun r w' => r = .error (.workflow (.notRunnable "w")) ∧ w'.log = [] ∧ w'.runs = [] ∧
        ∃ e, w'.record? ⟨1⟩ = some e ∧ e.status = .failed ∧
          e.error = some "workflow 'w' is abstract and cannot be executed" := by
  have hrec : (World.holding (.single ⟨none, none, false⟩ true)).record? ⟨1⟩ = some _ := rfl
  refine (refused_run_leaves_only_its_record .null hrec rfl (.isAbstract rfl rfl)).mono ?_
  rintro r w' ⟨hw, ⟨hne, -⟩ | ⟨hr, hrec, -⟩⟩
  · exact absurd rfl hne
  · exact ⟨hr, hw.log, List.sublist_nil.mp hw.runs, _, hrec, rfl, rfl⟩

/-- A workflow with a variable that has no value. -/
def Workflow.unbound : Workflow :=
  { Workflow.single ⟨none, none, false⟩ false with vars := [("v", .str "\x7b\x7b nope \x7d\x7d")] }

/-- The text of the error that a run reports, if there is one. -/
def RunError.text? {α : Type} : Except RunError α → Option String
  | .ok _ => none
  | .error error => some error.message

/-- The record of a run has not the text of the error that the run reports, if a variable cannot be
evaluated. -/
theorem record_of_unbound_lacks_prefix : ∃ error w' e,
    (World.holding .unbound).perform (ExceptT.run (Orchestration.run Expr.engine ⟨1⟩)) =
      some (.error error, w') ∧ w'.record? ⟨1⟩ = some e ∧
    error.message =
      "expression error: expression evaluation failed: 'nope': Identifier 'nope' is undefined" ∧
    e.error = some "expression evaluation failed: 'nope': Identifier 'nope' is undefined" := by
  have hrun : (((World.holding .unbound).perform
      (ExceptT.run (Orchestration.run Expr.engine ⟨1⟩))).any fun x =>
        RunError.text? x.1 =
          some ("expression error: expression evaluation failed: " ++
            "'nope': Identifier 'nope' is undefined") &&
        (x.2.record? ⟨1⟩).any fun e => e.error =
          some "expression evaluation failed: 'nope': Identifier 'nope' is undefined") = true := by
    decide +kernel
  obtain ⟨⟨r, w'⟩, hp, hx⟩ := (Option.any_eq_true _ _).mp hrun
  obtain ⟨htext, he⟩ := (Bool.and_eq_true ..).mp hx
  obtain ⟨e, hrec, htext'⟩ := (Option.any_eq_true _ _).mp he
  have htext := of_decide_eq_true htext
  cases r with
  | ok s => cases htext
  | error error =>
    exact ⟨error, w', e, hp, hrec, Option.some.inj htext, of_decide_eq_true htext'⟩

end WorkflowEngine
