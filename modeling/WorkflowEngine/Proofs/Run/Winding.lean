import WorkflowEngine.Proofs.Run.Suspension
import WorkflowEngine.Proofs.Task.Trace

/-!
# Runs that wind up

Once the record of a run says that it was cancelled, the run only winds up between its steps: it
keeps the result of the step that was under way, begins no other one, and ends as cancelled after
asking for a few things more. Whether it was told of its cancellation does not matter here.

## Main definitions

* `World.Revoked`: a run stays cancelled
* `World.Sealed`: and its record keeps the step it has come to and its results
* `World.Yields`: what a program yields unless a call of the store fails
* `Program.Winds`: a program that ends soon, with what holds all the while
* `World.EndsCancelled`: what a cancelled run ends with

## Main results

* `World.Sealed.winds_runSteps`: the steps that are left are not run
* `World.Sealed.winds_afterStep`: after a step a cancelled run ends as cancelled
* `Passage.InStep.winds`: so does a run that is in the middle of a step
-/

namespace WorkflowEngine

/-- A run is said to be completed or to have failed. -/
inductive EventData.Concludes : EventData → Prop where
  | completed {completedSteps totalSteps durationMs} :
      Concludes (.completed completedSteps totalSteps durationMs)
  | failed {stepId error completedSteps totalSteps} :
      Concludes (.failed stepId error completedSteps totalSteps)

theorem EventData.IsProgress.not_concludes {data : EventData} (h : data.IsProgress) :
    ¬ data.Concludes := by
  cases h <;> rintro ⟨⟩

namespace World

variable {id : Uuid} {w₀ w w' : World} {stepId : Option String} {results : List StepResult}

/-- **A run stays cancelled** since the world it was cancelled in: its record says so, and it is not
said to be completed or to have failed. -/
structure Revoked (id : Uuid) (w₀ w : World) : Prop where
  record : ∃ e, w.record? id = some e ∧ e.status = .cancelled
  events : ∃ es, w.eventsOf id = w₀.eventsOf id ++ es ∧ ∀ x ∈ es, ¬ x.data.Concludes
  faults : w₀.faults = [] → w.faults = []

/-- **A run stays cancelled and so does its record**: it keeps the step that it has come to, and its
results. -/
structure Sealed (id : Uuid) (w₀ : World) (stepId : Option String) (results : List StepResult)
    (w : World) : Prop extends Revoked id w₀ w where
  keeps : ∀ e, w.record? id = some e → e.currentStepId = stepId ∧ e.stepResults = results

theorem Revoked.like (h : Revoked id w₀ w) (hl : Like id w w') {e : Execution}
    (hr : w'.record? id = some e) (he : e.status = .cancelled) : Revoked id w₀ w' := by
  obtain ⟨es, hes, hall⟩ := h.events
  exact ⟨⟨e, hr, he⟩, ⟨es, hl.events.trans hes, hall⟩, fun hf => hl.faults (h.faults hf)⟩

theorem Revoked.emit (h : Revoked id w₀ w) {data : EventData} (hd : ¬ data.Concludes) :
    Revoked id w₀ (w.emit id data) := by
  obtain ⟨es, hes, hall⟩ := h.events
  refine ⟨h.record, ⟨es ++ [w.nextEvent id data], ?_, fun x hx => ?_⟩, h.faults⟩
  · rw [eventsOf_emit, hes, List.append_assoc]
  · rcases List.mem_append.mp hx with hx | hx
    · exact hall x hx
    · rw [List.mem_singleton.mp hx]
      exact hd

theorem Revoked.fails {α : Type} (h : Revoked id w₀ w) {r : Except RunError α} (hr : w.Fails r) :
    w₀.Fails r :=
  ⟨mt h.faults hr.1, hr.2⟩

/-- **What a program yields** of which something holds, unless a call of the store has failed since
the first world. -/
inductive Yields {α : Type} (w₀ : World) (Q : α → World → Prop) : Except RunError α → World → Prop
  where
  | ok {x w} (h : Q x w) : Yields w₀ Q (.ok x) w
  | failed {r w} (h : w₀.Fails r) : Yields w₀ Q r w

/-- The record of a cancelled run has some results. -/
theorem Revoked.sealed (h : Revoked id w₀ w) : ∃ stepId results, Sealed id w₀ stepId results w := by
  obtain ⟨e, hr, -⟩ := h.record
  refine ⟨e.currentStepId, e.stepResults, h, fun e' he' => ?_⟩
  cases hr.symm.trans he'
  exact ⟨rfl, rfl⟩

theorem Sealed.like (h : Sealed id w₀ stepId results w) (hl : Like id w w') {e : Execution}
    (hr : w'.record? id = some e) (he : e.status = .cancelled) (hs : e.currentStepId = stepId) :
    Sealed id w₀ stepId e.stepResults w' := by
  refine ⟨h.toRevoked.like hl hr he, fun e' he' => ?_⟩
  cases hr.symm.trans he'
  exact ⟨hs, rfl⟩

theorem Sealed.of_eq (h : Sealed id w₀ stepId results w) (hl : Like id w w')
    (hr : w'.record? id = w.record? id) : Sealed id w₀ stepId results w' := by
  obtain ⟨e, he, hs⟩ := h.record
  exact ⟨h.toRevoked.like hl (hr.trans he) hs, fun e' he' => h.keeps e' (hr.symm.trans he')⟩

theorem Sealed.note (h : Sealed id w₀ stepId results w) {n : Notice} (hn : n.event? id = none) :
    Sealed id w₀ stepId results (w.note n) :=
  h.of_eq (like_note hn) rfl

theorem Sealed.emit (h : Sealed id w₀ stepId results w) {data : EventData}
    (hd : ¬ data.Concludes) : Sealed id w₀ stepId results (w.emit id data) :=
  ⟨h.toRevoked.emit hd, h.keeps⟩

end World

/-! ### Programs that end soon -/

/-- **A program that ends soon**: it asks for so many things at most, is served each of them at
once, and something holds of the world all the while. -/
inductive Program.Winds {α : Type} (I : World → Prop) (post : α → World → Prop) :
    Nat → Program α → World → Prop where
  | done {n x w} (hI : I w) (h : post x w) : Winds I post n (.done x) w
  | ask {n r k reply w w'} (hI : I w) (hs : w.serve r = some (reply, w'))
      (h : Winds I post n (k reply) w') : Winds I post (n + 1) (.ask r k) w

namespace Program.Winds

variable {α β : Type} {I J : World → Prop} {post : α → World → Prop} {n m : Nat} {w : World}

theorem le {p : Program α} (h : Winds I post n p w) (hn : n ≤ m) : Winds I post m p w := by
  induction h generalizing m with
  | done hI h => exact .done hI h
  | ask hI hs _ ih =>
    cases m with
    | zero => cases hn
    | succ m => exact .ask hI hs (ih (Nat.le_of_succ_le_succ hn))

theorem mono {p : Program α} (h : Winds I post n p w) (hI : ∀ w, I w → J w) :
    Winds J post n p w := by
  induction h with
  | done hw h => exact .done (hI _ hw) h
  | ask hw hs _ ih => exact .ask (hI _ hw) hs ih

/-- What holds all the while holds now. -/
theorem holds {p : Program α} (h : Winds I post n p w) : I w := by
  cases h with
  | done hI => exact hI
  | ask hI => exact hI

/-- A program that ends soon and has not ended goes on. -/
theorem exists_move {p : Program α} (h : Winds I post n p w)
    (hr : (System.ofProgram w p).result? = none) (setting : Setting) :
    ((System.ofProgram w p).move setting []).isSome = true := by
  cases h with
  | done => cases hr
  | @ask _ r k reply _ w' _ hserve _ =>
    have hm : (System.ofProgram w (Program.ask r k)).moveProgram (.ask r k) =
        some (System.ofProgram w' (k reply)) := by
      unfold System.moveProgram
      split
      next h => cases h
      next h =>
        cases h
        cases hserve
      next h =>
        cases h
        show (w.serve r).map _ = _
        rw [hserve]
        rfl
    show (((System.ofProgram w (Program.ask r k)).moveProgram (.ask r k)).map
      (·, Effect.silent)).isSome = true
    rw [hm]
    rfl

/-- One program after the other; more may hold during the first one. -/
theorem bind {p : Program α} {f : α → Program β} {post' : β → World → Prop}
    (h : Winds J post n p w) (hJ : ∀ w, J w → I w)
    (hf : ∀ x w', J w' → post x w' → Winds I post' m (f x) w') :
    Winds I post' (m + n) (p.bind f) w := by
  induction h with
  | done hw h => exact (hf _ _ hw h).le (Nat.le_add_right _ _)
  | ask hw hs _ ih => exact .ask (hJ _ hw) hs ih

/-- One program after the other, unless a call of the store fails during the first one. -/
theorem seq {p : Orchestration α} {f : α → Orchestration β} {w₀ : World} {Q : α → World → Prop}
    {post : Except RunError β → World → Prop} (h : Winds J (w₀.Yields Q) n (ExceptT.run p) w)
    (hJ : ∀ w, J w → I w) (hok : ∀ x w', J w' → Q x w' → Winds I post m (ExceptT.run (f x)) w')
    (hfail : ∀ r w', w₀.Fails r → post r w') : Winds I post (m + n) (ExceptT.run (p >>= f)) w := by
  refine bind (f := ExceptT.bindCont f) h hJ fun r w' hw hr => ?_
  cases r with
  | ok x =>
    cases hr with
    | ok hx => exact hok x w' hw hx
    | failed hf => obtain ⟨-, e, ⟨⟩⟩ := hf
  | error e =>
    cases hr with
    | failed hf =>
      obtain ⟨hne, e', ⟨⟩⟩ := hf
      exact .done (hJ _ hw) (hfail _ _ ⟨hne, e', rfl⟩)

end Program.Winds

/-! ### After a step -/

namespace World

/-- **What a cancelled run ends with**: it says so, and its last event does, unless a call of the
store has failed since. -/
inductive EndsCancelled (id : Uuid) (w₀ : World) : Except RunError Summary → World → Prop where
  | cancelled {summary last stepId completedSteps totalSteps w}
      (hs : Summary.status summary = .cancelled) (hl : (w.eventsOf id).getLast? = some last)
      (hd : last.data = .cancelled stepId completedSteps totalSteps) :
      EndsCancelled id w₀ (.ok summary) w
  | failed {r w} (h : w₀.Fails r) : EndsCancelled id w₀ r w

/-- The record of a cancelled run may still get some results. -/
def MayKeep (id : Uuid) (w₀ : World) (stepId : Option String) (results more : List StepResult)
    (w : World) : Prop :=
  ∃ l, l <+: more ∧ Sealed id w₀ stepId (results ++ l) w

theorem MayKeep.revoked {id : Uuid} {w₀ w : World} {stepId : Option String}
    {results more : List StepResult} (h : MayKeep id w₀ stepId results more w) :
    Revoked id w₀ w := by
  obtain ⟨l, -, h⟩ := h
  exact h.toRevoked

namespace Sealed

variable {id : Uuid} {w₀ w : World} {a : Assignment} {stepId : Option String}
  {results more : List StepResult}

theorem mayKeep (h : Sealed id w₀ stepId results w) : MayKeep id w₀ stepId results more w :=
  ⟨[], List.nil_prefix, by rwa [List.append_nil]⟩

/-- A cancelled run finds its record. -/
theorem winds_load (h : Sealed id w₀ stepId results w) :
    Program.Winds (Sealed id w₀ stepId results)
      (w₀.Yields fun e w' => w'.record? id = some e ∧ e.status = .cancelled) 1
      (ExceptT.run (Orchestration.load id)) w := by
  obtain ⟨e, hr, he⟩ := h.record
  obtain ⟨r, w', hl, hw, hr'⟩ := w.look_eq .getExecution fun s =>
    if w.isVisible id then s.getExecution? id else none
  have h' : Sealed id w₀ stepId results w' := h.of_eq (hw.like id) (hw.record id)
  have hs : w.serve (.getExecution id) = some (r, w') := congrArg some hl
  rcases hr' with hok | ⟨hne, err, rfl⟩
  · obtain rfl : r = .ok (some e) := hok.trans (congrArg Except.ok hr)
    exact .ask h hs (.done h' (.ok ⟨(hw.record id).trans hr, he⟩))
  · exact .ask h hs (.done h' (.failed (h.fails ⟨hne, _, rfl⟩)))

/-- **A result is kept behind those that are there.** -/
theorem winds_persist (h : Sealed id w₀ stepId results w) (x : StepResult) :
    Program.Winds (MayKeep id w₀ stepId results [x])
      (w₀.Yields fun _ w' => Sealed id w₀ stepId (results ++ [x]) w') 3
      (ExceptT.run (Orchestration.persist id x)) w := by
  refine h.winds_load.seq (m := 2) (fun _ hw => hw.mayKeep) ?_ fun _ _ => .failed
  rintro e w₁ h₁ ⟨hr, he⟩
  obtain ⟨hstep, hresults⟩ := h₁.keeps e hr
  have hid : (e.addResult x w₁.now).id = id := (id_of_record? hr :)
  obtain ⟨r, w₂, hs, hlike, hr'⟩ := serve_updateExecution (hid ▸ hr)
  rw [hid] at hlike hr'
  refine .ask (r := .now) h₁.mayKeep rfl ?_
  rcases hr' with ⟨rfl, hr'⟩ | ⟨hne, ⟨err, rfl⟩, hr'⟩
  · have h₂ := h₁.like hlike hr' he hstep
    rw [show (e.addResult x w₁.now).stepResults = results ++ [x] by rw [← hresults]; rfl] at h₂
    exact .ask h₁.mayKeep hs (.done ⟨[x], List.prefix_refl _, h₂⟩ (.ok h₂))
  · have h₂ : Sealed id w₀ stepId results w₂ := h₁.of_eq hlike hr'
    exact .ask h₁.mayKeep hs (.done h₂.mayKeep (.failed (h₁.fails ⟨hne, _, rfl⟩)))

/-- **A run finds that it is cancelled**, by itself or from its record. -/
theorem winds_cancelRequested (h : Sealed id w₀ stepId results w) :
    Program.Winds (Sealed id w₀ stepId results) (w₀.Yields fun b _ => b = true) 2
      (ExceptT.run (Orchestration.cancelRequested id)) w := by
  refine .ask (r := .isCancelled id) h rfl ?_
  cases w.isCancelled id with
  | true => exact .done h (.ok rfl)
  | false =>
    refine h.winds_load.seq (m := 0) (fun _ hw => hw) ?_ fun _ _ => .failed
    rintro e w₁ h₁ ⟨-, he⟩
    exact .done h₁ (.ok (by rw [he]; rfl))

theorem winds_finishCancelled (h : Sealed a.executionId w₀ stepId results w) (totalSteps : Nat)
    (at? : Option String) :
    Program.Winds (Sealed a.executionId w₀ stepId results) (EndsCancelled a.executionId w₀) 2
      (ExceptT.run (Orchestration.finishCancelled a totalSteps at?)) w := by
  refine h.winds_load.seq (m := 1) (fun _ hw => hw) ?_ fun _ _ => .failed
  rintro e w₁ h₁ ⟨-, he⟩
  rw [he]
  have h₂ : Sealed a.executionId w₀ stepId results (w₁.emit a.executionId
    (.cancelled at? e.completedCount totalSteps)) := h₁.emit (by rintro ⟨⟩)
  exact .ask (r := .emit _ _) h₁ rfl (.done h₂ (.cancelled he (getLast?_eventsOf_emit _) rfl))

/-- A run that finds that it is cancelled ends so. -/
theorem winds_ifCancelled (h : Sealed a.executionId w₀ stepId results w) (totalSteps : Nat)
    (at? : Option String) (rest : Orchestration Summary) :
    Program.Winds (Sealed a.executionId w₀ stepId results) (EndsCancelled a.executionId w₀) 4
      (ExceptT.run do
        if ← Orchestration.cancelRequested a.executionId then
          Orchestration.finishCancelled a totalSteps at?
        else rest) w := by
  refine h.winds_cancelRequested.seq (m := 2) (fun _ hw => hw) ?_ fun _ _ => .failed
  rintro _ w₁ h₁ rfl
  exact h₁.winds_finishCancelled totalSteps at?

/-- **The steps at the top level that are left are not run.** -/
theorem winds_runSteps (h : Sealed a.executionId w₀ stepId results w) (totalSteps : Nat)
    (steps : List Step) (c : Context) :
    Program.Winds (Sealed a.executionId w₀ stepId results) (EndsCancelled a.executionId w₀) 4
      (ExceptT.run (Orchestration.runSteps a totalSteps steps c)) w := by
  cases steps with
  | nil =>
    rw [Orchestration.runSteps]
    exact h.winds_ifCancelled totalSteps none _
  | cons s steps =>
    rw [Orchestration.runSteps]
    refine h.winds_load.seq (m := 3) (fun _ hw => hw) ?_ fun _ _ => .failed
    rintro e w₁ h₁ ⟨-, he⟩
    refine .ask (r := .isCancelled a.executionId) h₁ rfl ?_
    have hc : (w₁.isCancelled a.executionId || e.status == .cancelled) = true := by
      rw [he]
      exact Bool.or_true _
    show Program.Winds _ _ 2 (ExceptT.run (if _ then _ else _)) w₁
    rw [if_pos hc]
    exact h₁.winds_finishCancelled totalSteps (some s.id)

/-- What is told of a step that is over changes nothing that is kept. -/
theorem winds_announceStep (h : Sealed a.executionId w₀ stepId results w) (s : Step)
    (o : Outcome) (ms : Nat) :
    Program.Winds (Sealed a.executionId w₀ stepId results) (w₀.Yields fun _ _ => True) 2
      (ExceptT.run (Orchestration.lift (announceStep a s 0 o ms))) w := by
  have he : Sealed a.executionId w₀ stepId results
      (w.emit a.executionId (.ofOutcome s 0 o ms)) := h.emit (by rintro ⟨⟩)
  refine .ask (r := .emit _ _) h rfl ?_
  cases o.failure? with
  | none => exact .done he (.ok trivial)
  | some e => exact .ask (r := .report _ _ _) he rfl (.done (he.note rfl) (.ok trivial))

/-- **After a step a cancelled run ends as cancelled**, whatever the outcome of the step is. The
record may get the result of that step, but no other one. -/
theorem winds_afterStep (h : Sealed a.executionId w₀ stepId results w) (totalSteps : Nat)
    (s : Step) (steps : List Step) (x : Outcome × Context) :
    Program.Winds
      (MayKeep a.executionId w₀ stepId results (Ending.results [.ofTop s x]))
      (EndsCancelled a.executionId w₀) 9
      (ExceptT.run (Orchestration.afterStep a totalSteps s steps x)) w := by
  unfold Orchestration.afterStep
  split
  · exact ((h.winds_finishCancelled totalSteps (some s.id)).mono fun _ hw => hw.mayKeep).le
      (by decide)
  next ho =>
  rw [Ending.results_ofTop (by simpa using ho)]
  have hkept : ∀ r w', Sealed a.executionId w₀ stepId (results ++ [r]) w' →
      MayKeep a.executionId w₀ stepId results [r] w' :=
    fun r w' hw => ⟨_, List.prefix_refl _, hw⟩
  refine (h.winds_announceStep s x.1 _).seq (m := 7) (fun _ hw => hw.mayKeep) ?_ fun _ _ => .failed
  rintro _ w₁ h₁ -
  refine (h₁.winds_persist _).seq (m := 4) (fun _ hw => hw) ?_ fun _ _ => .failed
  rintro _ w₂ - h₂
  cases x.1.failure? with
  | none => exact (h₂.winds_runSteps totalSteps steps x.2).mono (hkept _)
  | some error => exact (h₂.winds_ifCancelled totalSteps (some s.id) _).mono (hkept _)

end Sealed

end World

variable {a : Assignment} {totalSteps : Nat} {S : Surroundings}

/-- **After the step that a run is in the middle of it ends as cancelled** if its record says that
it is, and nothing is kept but the result of that step. -/
theorem Passage.InStep.winds {st : Passage}
    {k : Outcome × Context → Program (Except RunError Summary)} (hst : st.InStep S a totalSteps k) :
    ∃ s, Task.Placed s 0 st.task ∧ ∀ w₀ x w stepId results,
      World.Sealed a.executionId w₀ stepId results w →
      Program.Winds
        (World.MayKeep a.executionId w₀ stepId results (Ending.results [.ofTop s x]))
        (World.EndsCancelled a.executionId w₀) 10
        ((k x).bind fun r => .ask (.endRun a.executionId) fun _ => .done r) w := by
  obtain ⟨-, hr⟩ := hst
  refine ⟨_, hr.placed (.start _ _ 0), fun w₀ x w stepId results hw => ?_⟩
  refine (hw.winds_afterStep totalSteps _ _ x).bind (m := 1) (fun _ hw => hw) fun r w' hw' hr => ?_
  -- the run is not among those that have begun any more at its end
  obtain ⟨l, hl, hs⟩ := hw'
  have hend : World.MayKeep a.executionId w₀ stepId results (Ending.results [.ofTop _ x])
      (w'.endRun a.executionId) := ⟨l, hl, ⟨hs.record, hs.events, hs.faults⟩, hs.keeps⟩
  refine .ask (r := .endRun a.executionId) ⟨l, hl, hs⟩ rfl (.done hend ?_)
  cases hr with
  | cancelled hs hl hd => exact .cancelled hs hl hd
  | failed hf => exact .failed hf

end WorkflowEngine
