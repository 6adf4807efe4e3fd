import WorkflowEngine.Proofs.Run.World

/-!
# Between steps

What a run does between its steps: it keeps a result, looks whether it is cancelled, and comes to
an end. Each of these loads the record of the run first, so that what it does is said from the
record that is found: what holds in the end has to hold in every case in which the store is served,
and where a call of the store fails, which leaves the record as it is.

## Main definitions

* `World.Stuck`: a call of the store has failed, and the record is as it was

## Main results

* `World.ends_persist`, `World.ends_cancelRequested`: keeping a result, and looking
* `World.ends_finishCancelled`, `World.ends_finishFailed`, `World.ends_finishCompleted`: how a run
  ends
* `World.ends_markFailed`: how a run ends that cannot begin
-/

namespace WorkflowEngine.World

variable {α β : Type} {w w' w'' : World} {id : Uuid} {e : Execution}

/-- **A call of the store has failed**, and the record of the run is as it was. -/
structure Stuck (id : Uuid) (w : World) (r : Except RunError α) (w' : World) : Prop where
  fails : w.Fails r
  like : Like id w w'
  record : w'.record? id = w.record? id

/-- Looking at the store first makes no difference. -/
theorem Stuck.of_untouched {r : Except RunError α} (hw : Untouched w w') (h : Stuck id w' r w'') :
    Stuck id w r w'' :=
  ⟨⟨mt (hw.like id).faults h.fails.1, h.fails.2⟩, (hw.like id).trans h.like,
    h.record.trans (hw.record id)⟩

/-- The record of a run is loaded first. -/
theorem ends_load_bind {f : Execution → Orchestration β} {post : Except RunError β → World → Prop}
    (h : w.record? id = some e)
    (hok : ∀ w', Untouched w w' → w'.record? id = some e → w'.Ends (f e) post)
    (hfail : ∀ r w', Stuck id w r w' → post r w') : w.Ends (Orchestration.load id >>= f) post :=
  (ends_load h).bind_looked (fun w' hw => hok w' hw ((hw.record id).trans h)) fun err w' hw hne =>
    hfail _ w' ⟨⟨hne, err, rfl⟩, hw.like id, hw.record id⟩

/-- The record that was loaded is kept as it is after a change. -/
theorem ends_revise {w₀ : World} (change : Execution → Timestamp → Execution)
    {f : Execution → Orchestration β} {post : Except RunError β → World → Prop}
    (hw : Untouched w₀ w) (h : w.record? id = some e) (hid : ∀ now, (change e now).id = e.id)
    (hok : ∀ now w', Like id w₀ w' → w'.record? id = some (change e now) →
      w'.Ends (f (change e now)) post)
    (hfail : ∀ r w', Stuck id w₀ r w' → post r w') :
    w.Ends (Orchestration.update e change >>= f) post :=
  ends_update_bind change h ((hid w.now).trans (id_of_record? h))
    (fun w' hl hr => hok w.now w' ((hw.like id).trans hl) hr) fun err w' hl hne hr =>
      hfail _ w' (.of_untouched hw ⟨⟨hne, err, rfl⟩, hl, hr⟩)

/-- **A result is kept** behind those of the record. -/
theorem ends_persist {post : Except RunError Unit → World → Prop} (h : w.record? id = some e)
    (x : StepResult)
    (hok : ∀ now w', Like id w w' → w'.record? id = some (e.addResult x now) → post (.ok ()) w')
    (hfail : ∀ r w', Stuck id w r w' → post r w') : w.Ends (Orchestration.persist id x) post :=
  ends_load_bind h
    (fun _ hw hr => ends_revise (fun e now => e.addResult x now) hw hr (fun _ => rfl)
      (fun now w' hl hr' => .pure (hok now w' hl hr')) hfail) hfail

/-- **A run is cancelled if it was told so, or if its record says so.** -/
theorem ends_cancelRequested (h : w.record? id = some e) :
    w.Ends (Orchestration.cancelRequested id) fun r w' => Untouched w w' ∧
      (r = .ok (w.isCancelled id || e.status == .cancelled) ∨ w.Fails r) := by
  refine .lift_bind (r := .isCancelled id) rfl ?_
  cases w.isCancelled id with
  | true => exact .pure ⟨⟨rfl, rfl, fun _ => rfl, fun _ => .refl _ w, fun _ => rfl⟩, .inl rfl⟩
  | false =>
    exact (ends_load h).bind_looked (fun w' hw => .pure ⟨hw, .inl rfl⟩)
      fun err w' hw hne => ⟨hw, .inr ⟨hne, err, rfl⟩⟩

/-- **A run that cannot begin has failed**, unless it is over. -/
theorem ends_markFailed {post : Except RunError Unit → World → Prop} (h : w.record? id = some e)
    (error : String)
    (hover : e.status.isTerminal = true → ∀ w', Untouched w w' → post (.ok ()) w')
    (hok : e.status.isTerminal = false → ∀ now w', Like id w w' →
      w'.record? id = some (e.fail error now) → post (.ok ()) w')
    (hfail : ∀ r w', Stuck id w r w' → post r w') :
    w.Ends (Orchestration.markFailed id error) post := by
  refine ends_load_bind h (fun w₁ hw hr => ?_) hfail
  cases ht : e.status.isTerminal with
  | true => exact .pure (hover ht w₁ hw)
  | false =>
    exact ends_revise (fun e now => e.fail error now) hw hr (fun _ => rfl)
      (fun now w' hl hr' => .pure (hok ht now w' hl hr')) hfail

/-! ### Ending -/

variable {a : Assignment} {totalSteps : Nat} {post : Except RunError Summary → World → Prop}

/-- **A run ends as cancelled.** A record that is over stays as it is. -/
theorem ends_finishCancelled (h : w.record? a.executionId = some e) (stepId : Option String)
    (hover : e.status.isTerminal = true → ∀ w', Like a.executionId w w' →
      w'.record? a.executionId = some e → post (.ok (e.summary totalSteps))
        (w'.emit a.executionId (.cancelled stepId e.completedCount totalSteps)))
    (hok : e.status.isTerminal = false → ∀ now w', Like a.executionId w w' →
      w'.record? a.executionId = some (e.finish .cancelled now) →
      post (.ok ((e.finish .cancelled now).summary totalSteps))
        (w'.emit a.executionId (.cancelled stepId e.completedCount totalSteps)))
    (hfail : ∀ r w', Stuck a.executionId w r w' → post r w') :
    w.Ends (Orchestration.finishCancelled a totalSteps stepId) post := by
  refine ends_load_bind h (fun w₁ hw hr => ?_) hfail
  cases ht : e.status.isTerminal with
  | true => exact .lift_bind (r := .emit _ _) rfl (.pure (hover ht w₁ (hw.like _) hr))
  | false =>
    exact ends_revise (fun e now => e.finish .cancelled now) hw hr (fun _ => rfl)
      (fun now w' hl hr' => .lift_bind (r := .emit _ _) rfl (.pure (hok ht now w' hl hr'))) hfail

/-- **A run ends as failed**, unless its record is over. -/
theorem ends_finishFailed (h : w.record? a.executionId = some e) (stepId : String)
    (error : StepError)
    (hover : e.status.isTerminal = true → ∀ w', Untouched w w' →
      w'.Ends (Orchestration.finishTerminal a totalSteps e.status (some stepId)) post)
    (hok : e.status.isTerminal = false → ∀ now w', Like a.executionId w w' →
      w'.record? a.executionId = some (e.fail error.message now) →
      post (.error (.stepFailed stepId error)) (w'.emit a.executionId
        (.failed stepId error.message e.completedCount totalSteps)))
    (hfail : ∀ r w', Stuck a.executionId w r w' → post r w') :
    w.Ends (Orchestration.finishFailed a totalSteps stepId error) post := by
  refine ends_load_bind h (fun w₁ hw hr => ?_) hfail
  cases ht : e.status.isTerminal with
  | true => exact hover ht w₁ hw
  | false =>
    exact ends_revise (fun e now => e.fail error.message now) hw hr (fun _ => rfl)
      (fun now w' hl hr' => .lift_bind (r := .emit _ _) rfl (.throw (hok ht now w' hl hr'))) hfail

/-- **A run ends as completed**, unless its record is over. -/
theorem ends_finishCompleted (h : w.record? a.executionId = some e)
    (hover : e.status.isTerminal = true → ∀ w', Untouched w w' →
      w'.Ends (Orchestration.finishTerminal a totalSteps e.status none) post)
    (hok : e.status.isTerminal = false → ∀ now w', Like a.executionId w w' →
      w'.record? a.executionId = some (e.complete now) →
      post (.ok ((e.complete now).summary totalSteps))
        (w'.emit a.executionId (.completed e.completedCount totalSteps 0)))
    (hfail : ∀ r w', Stuck a.executionId w r w' → post r w') :
    w.Ends (Orchestration.finishCompleted a totalSteps) post := by
  refine ends_load_bind h (fun w₁ hw hr => ?_) hfail
  cases ht : e.status.isTerminal with
  | true => exact hover ht w₁ hw
  | false =>
    exact ends_revise Execution.complete hw hr (fun _ => rfl)
      (fun now w' hl hr' => .lift_bind (r := .emit _ _) rfl (.pure (hok ht now w' hl hr'))) hfail

end WorkflowEngine.World
