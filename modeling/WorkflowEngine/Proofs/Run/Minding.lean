import WorkflowEngine.Proofs.Run.Finality

/-!
# Programs that mind the branch

The branch of a run is a field of its record that others may change while a step is run, and the
record is only ever kept whole. A program minds the branch if it never keeps a record with another
branch than the one that the record has, and if it begins each step at the top level in a context
that tells the branch of the record. It can do so by looking first: between its steps nothing else
happens, so that what it has loaded last is the record as it is.

## Main definitions

* `World.branch?`: the branch that the record of a run tells
* `Request.Minds`: what may be asked for by a program that knows the branch, or does not
* `Program.Minds`, `Orchestration.Minds`: programs that mind the branch
* `System.Minds`: a program that minds the branch at work

## Main results

* `World.branch?_of_serve`: serving such a program leaves the branch as it is
* `Orchestration.minds_run`, `Orchestration.minds_cancel`: runs and cancellations mind the branch
* `System.Minds.step`: only others change the branch
-/

namespace WorkflowEngine

/-- The branch that the record of a run tells, if there is a record. -/
def World.branch? (w : World) (id : Uuid) : Option (Option String) :=
  (w.record? id).map Execution.branchName

/-- What a program knows of the branch after it was told a reply: that of a record that it loads,
and nothing once it has run a step. -/
def Request.branchAfter (known : Option (Option String)) :
    (r : Request) → r.Reply → Option (Option String)
  | .getExecution _, .ok (some e) => some e.branchName
  | .runStep .., _ => none
  | _, _ => known

/-- **What may be asked for** by a program that knows so much of the branch: a record is kept with
the branch that is known, and a step begins in a context that tells it. -/
def Request.Minds (id : Uuid) (known : Option (Option String)) : Request → Prop
  | .getExecution i => i = id
  | .updateExecution e => known = some e.branchName
  | .runStep a _ c => a.executionId = id ∧ known = some c.identity.branchName
  | .createExecution _ => False
  | _ => True

/-- A request that has nothing to do with the branch. -/
def Request.IsAside (r : Request) : Prop :=
  (∀ id known, r.Minds id known) ∧ ∀ known reply, r.branchAfter known reply = known

namespace Program

variable {α β : Type} {id : Uuid} {known : Option (Option String)}

/-- **A program that minds the branch** of a run, and what it knows in the end. -/
def Minds (id : Uuid) (post : Option (Option String) → α → Prop) (known : Option (Option String)) :
    Program α → Prop
  | .done a => post known a
  | .ask r next => r.Minds id known ∧
    ∀ reply, r.Fits reply → Minds id post (r.branchAfter known reply) (next reply)

theorem Minds.bind {p : Program α} {f : α → Program β}
    {post : Option (Option String) → α → Prop} {post' : Option (Option String) → β → Prop}
    (hp : p.Minds id post known) (hf : ∀ known a, post known a → (f a).Minds id post' known) :
    (p.bind f).Minds id post' known := by
  induction p generalizing known with
  | done a => exact hf known a hp
  | ask r next ih => exact ⟨hp.1, fun reply hr => ih reply (hp.2 reply hr)⟩

/-- **What has nothing to do with the branch** minds it and tells nothing of it. -/
theorem Minds.of_asks {p : Program α} (hp : p.Asks Request.IsAside) :
    p.Minds id (fun known' _ => known' = known) known := by
  induction p with
  | done a => exact rfl
  | ask r next ih =>
    refine ⟨hp.1.1 id known, fun reply _ => ?_⟩
    rw [hp.1.2 known reply]
    exact ih reply (hp.2 reply)

end Program

namespace Orchestration

variable {α β : Type} {id : Uuid} {known : Option (Option String)}
  {post : Option (Option String) → α → Prop}

/-- A program that minds the branch, and what it knows unless it ends with an error. -/
def Minds (id : Uuid) (post : Option (Option String) → α → Prop) (known : Option (Option String))
    (p : Orchestration α) : Prop :=
  Program.Minds id (fun known r => ∀ a, r = .ok a → post known a) known (ExceptT.run p)

namespace Minds

variable {p : Orchestration α} {f : α → Orchestration β}
  {post' : Option (Option String) → β → Prop}

theorem pure {a : α} (h : post known a) : Minds id post known (Pure.pure a : Orchestration α) := by
  rintro _ ⟨⟩
  exact h

theorem throw (e : RunError) : Minds id post known (throw e : Orchestration α) := by
  rintro _ ⟨⟩

/-- One program after the other. -/
theorem bind (hp : Minds id post known p)
    (hf : ∀ known a, post known a → Minds id post' known (f a)) :
    Minds id post' known (p >>= f) := by
  refine Program.Minds.bind (p := ExceptT.run p) (f := ExceptT.bindCont f) hp fun known r hr => ?_
  cases r with
  | ok a => exact hf known a (hr a rfl)
  | error e => rintro _ ⟨⟩

/-- What cannot fail is done. -/
theorem lift {p : Program α} (hp : p.Minds id post known) : Minds id post known (lift p) := by
  refine Program.Minds.bind hp fun known a ha => ?_
  rintro _ ⟨⟩
  exact ha

/-- The store is asked. -/
theorem stored {p : Program (Except StoreError α)}
    (hp : p.Minds id (fun known r => ∀ a, r = .ok a → post known a) known) :
    Minds id post known (stored p) := by
  refine Program.Minds.bind hp fun known r hr => ?_
  rintro a ha
  cases r with
  | ok b => cases ha; exact hr _ rfl
  | error e => cases ha

end Minds

/-- Something is done that has nothing to do with the branch. -/
theorem minds_aside {p : Program α} (hp : p.Asks Request.IsAside) :
    Minds id (fun known' _ => known' = known) known (lift p) :=
  .lift (.of_asks hp)

/-- Something is asked for that has nothing to do with the branch. -/
theorem minds_request {r : Request} (hr : ∀ id known, r.Minds id known)
    (hknown : ∀ known reply, r.branchAfter known reply = known) :
    Minds id (fun known' _ => known' = known) known (lift (Program.request r)) :=
  minds_aside (.request ⟨hr, hknown⟩)

/-- **The record of a run is loaded**, and its branch is known. -/
theorem minds_load (id : Uuid) (known : Option (Option String)) :
    Minds id (fun known' e => known' = some e.branchName ∧ e.id = id) known (load id) := by
  have hget : Minds id (fun known' (x : Option Execution) =>
      ∀ e, x = some e → known' = some e.branchName ∧ e.id = id) known
      (stored (Program.request (.getExecution id))) := by
    refine .stored ⟨rfl, fun reply hr => ?_⟩
    rintro _ rfl _ rfl
    exact ⟨rfl, hr⟩
  refine hget.bind fun known' x hx => ?_
  cases x with
  | none => exact .throw _
  | some e => exact .pure (hx e rfl)

/-- **The record of a run is kept** with the branch that it has. -/
theorem minds_update {e : Execution} (change : Execution → Timestamp → Execution)
    (hknown : known = some e.branchName)
    (hchange : ∀ now, (change e now).branchName = e.branchName) :
    Minds id (fun known' _ => known' = known) known (update e change) := by
  refine (minds_request (r := .now) (fun _ _ => trivial) fun _ _ => rfl).bind
    fun known' now hsame => ?_
  obtain rfl : known = known' := hsame.symm
  have hkeep : Minds id (fun known' _ => known' = known) known
      (stored (Program.request (.updateExecution (change e now)))) :=
    .stored ⟨hknown.trans (congrArg some (hchange now).symm), fun _ _ _ _ => rfl⟩
  exact hkeep.bind fun known' _ hsame => .pure hsame

/-- The record of a run is loaded and kept with the branch that it has, unless it is over. -/
theorem minds_revise {f : Execution → Orchestration α} {e : Execution}
    (change : Execution → Timestamp → Execution)
    (hchange : ∀ now, (change e now).branchName = e.branchName)
    (hknown : known = some e.branchName) (hf : ∀ known e, Minds id post known (f e)) :
    Minds id post known (update e change >>= f) :=
  .bind (minds_update change hknown hchange) fun known e _ => hf known e

theorem minds_emit (known : Option (Option String)) (i : Uuid) (data : EventData) :
    Minds id (fun known' _ => known' = known) known (lift (Program.emit i data)) :=
  minds_request (fun _ _ => trivial) fun _ _ => rfl

theorem minds_announceStep (a : Assignment) (known : Option (Option String)) (s : Step)
    (depth : Nat) (o : Outcome) (ms : Nat) :
    Minds id (fun known' _ => known' = known) known (lift (announceStep a s depth o ms)) := by
  refine minds_aside ⟨⟨fun _ _ => trivial, fun _ _ => rfl⟩, fun _ => ?_⟩
  cases o.failure? with
  | none => trivial
  | some e => exact ⟨⟨fun _ _ => trivial, fun _ _ => rfl⟩, fun _ => trivial⟩

theorem minds_persist (id : Uuid) (known : Option (Option String)) (r : StepResult) :
    Minds id (fun _ _ => True) known (persist id r) :=
  (minds_load id known).bind fun _ _ he =>
    minds_revise (fun e now => e.addResult r now) (fun _ => rfl) he.1 fun _ _ => .pure trivial

theorem minds_cancelRequested (id : Uuid) (known : Option (Option String)) :
    Minds id (fun _ _ => True) known (cancelRequested id) := by
  refine (minds_request (r := .isCancelled id) (fun _ _ => trivial) fun _ _ => rfl).bind
    fun known b _ => ?_
  cases (b : Bool) with
  | true => exact .pure trivial
  | false => exact (minds_load id known).bind fun _ _ _ => .pure trivial

/-! ### Ending -/

theorem minds_markFailed (id : Uuid) (known : Option (Option String)) (error : String) :
    Minds id (fun _ _ => True) known (markFailed id error) := by
  refine (minds_load id known).bind fun known e he => ?_
  split
  · exact .pure trivial
  · exact minds_revise (fun e now => e.fail error now) (fun _ => rfl) he.1 fun _ _ => .pure trivial

variable (a : Assignment) (totalSteps : Nat)

theorem minds_finishCancelled (known : Option (Option String)) (stepId : Option String) :
    Minds a.executionId (fun _ _ => True) known (finishCancelled a totalSteps stepId) := by
  have hend : ∀ known (e : Execution), Minds a.executionId (fun _ _ => True) known do
      lift (Program.emit a.executionId (.cancelled stepId e.completedCount totalSteps))
      return e.summary totalSteps :=
    fun known e => (minds_emit known _ _).bind fun _ _ _ => .pure trivial
  refine (minds_load _ known).bind fun known e he => ?_
  dsimp only
  split
  · exact hend known e
  · exact minds_revise (fun e now => e.finish .cancelled now) (fun _ => rfl) he.1 hend

theorem minds_finishTerminal (known : Option (Option String)) (status : Status)
    (stepId : Option String) :
    Minds a.executionId (fun _ _ => True) known (finishTerminal a totalSteps status stepId) := by
  cases status with
  | cancelled => exact minds_finishCancelled a totalSteps known stepId
  | _ => exact .throw _

theorem minds_finishFailed (known : Option (Option String)) (stepId : String) (error : StepError) :
    Minds a.executionId (fun _ _ => True) known (finishFailed a totalSteps stepId error) := by
  refine (minds_load _ known).bind fun known e he => ?_
  split
  · exact minds_finishTerminal a totalSteps known _ _
  · exact minds_revise (fun e now => e.fail error.message now) (fun _ => rfl) he.1 fun known e =>
      (minds_emit known _ _).bind fun _ _ _ => .throw _

theorem minds_finishCompleted (known : Option (Option String)) :
    Minds a.executionId (fun _ _ => True) known (finishCompleted a totalSteps) := by
  refine (minds_load _ known).bind fun known e he => ?_
  split
  · exact minds_finishTerminal a totalSteps known _ _
  · exact minds_revise Execution.complete (fun _ => rfl) he.1 fun known e =>
      (minds_emit known _ _).bind fun _ _ _ => .pure trivial

/-! ### Running -/

/-- **The steps at the top level mind the branch**: each begins in a context that was told the
branch just before. -/
theorem minds_runSteps (known : Option (Option String)) (steps : List Step) (c : Context) :
    Minds a.executionId (fun _ _ => True) known (runSteps a totalSteps steps c) := by
  induction steps generalizing known c with
  | nil =>
    rw [runSteps]
    refine (minds_cancelRequested _ known).bind fun known b _ => ?_
    cases b with
    | true => exact minds_finishCancelled a totalSteps known none
    | false => exact minds_finishCompleted a totalSteps known
  | cons s steps ih =>
    rw [runSteps]
    refine (minds_load _ known).bind fun known e he =>
      (minds_request (r := .isCancelled a.executionId) (fun _ _ => trivial) fun _ _ => rfl).bind
        fun known' b hsame => ?_
    obtain rfl : known = known' := hsame.symm
    split
    · exact minds_finishCancelled a totalSteps _ (some s.id)
    refine (minds_update (fun e now => e.atStep s.id now) he.1 fun _ => rfl).bind
      fun known' _ hsame => ?_
    obtain rfl : known = known' := hsame.symm
    have hstep : Minds a.executionId (fun _ _ => True) known
        (lift (Program.request (.runStep a s (c.refresh e)))) :=
      .lift ⟨⟨rfl, he.1⟩, fun _ _ => trivial⟩
    refine hstep.bind fun known x _ => ?_
    obtain ⟨o, c⟩ : Outcome × Context := x
    dsimp only
    split
    · exact minds_finishCancelled a totalSteps known (some s.id)
    refine (minds_announceStep a known s 0 o _).bind fun known _ _ =>
      (minds_persist _ known _).bind fun known _ _ => ?_
    cases o.failure? with
    | none => exact ih known c
    | some error =>
      refine (minds_cancelRequested _ known).bind fun known b _ => ?_
      cases b with
      | true => exact minds_finishCancelled a totalSteps known (some s.id)
      | false =>
        simp only [Bool.false_eq_true, if_false]
        split
        · exact ih known c
        · exact minds_finishFailed a totalSteps known s.id error

theorem minds_drive (engine : Expr.Engine) (known : Option (Option String)) (e : Execution)
    (w : Workflow) : Minds e.id (fun _ _ => True) known (drive engine e w) := by
  have hitem : Minds e.id (fun _ _ => True) known
      (stored (Program.request (.getWorkItem e.workItemId))) :=
    .stored ⟨trivial, fun _ _ _ _ => trivial⟩
  refine hitem.bind fun known item _ => ?_
  cases Context.build engine e item w.vars with
  | error error => exact (minds_markFailed _ known _).bind fun _ _ _ => .throw _
  | ok c =>
    exact (minds_emit known _ _).bind fun known _ _ =>
      minds_runSteps ⟨e.id, e.workflowId, e.workItemId⟩ w.steps.length known w.steps c

/-- **Runs mind the branch.** -/
theorem minds_run (engine : Expr.Engine) (id : Uuid) (known : Option (Option String)) :
    Minds id (fun _ _ => True) known (run engine id) := by
  refine (minds_load id known).bind fun known e he => ?_
  split
  · exact .throw _
  refine (minds_aside (asks_runnable ⟨fun _ _ => trivial, fun _ _ => rfl⟩)).bind
    fun known r _ => ?_
  cases r with
  | error error => exact (minds_markFailed id known _).bind fun _ _ _ => .throw _
  | ok w =>
    refine (minds_request (r := .beginRun id) (fun _ _ => trivial) fun _ _ => rfl).bind
      fun known _ _ => ?_
    obtain rfl : e.id = id := he.2
    -- whatever the run ends with, it is ended too
    exact Program.Minds.bind (minds_drive engine known e w) fun _ _ _ =>
      ⟨trivial, fun _ _ _ _ => trivial⟩

/-- **Cancellations mind the branch.** -/
theorem minds_cancel (id : Uuid) (known : Option (Option String)) :
    Minds id (fun _ _ => True) known (cancel id) := by
  refine (minds_load id known).bind fun known e he => ?_
  split
  · exact .throw _
  · exact minds_revise (fun e now => e.finish .cancelled now) (fun _ => rfl) he.1 fun known _ =>
      (minds_request (r := .cancelRun id) (fun _ _ => trivial) fun _ _ => rfl).bind
        fun _ _ _ => .pure trivial

end Orchestration

/-! ### The branch of the record -/

namespace World

variable {id : Uuid} {w w' : World} {known : Option (Option String)}

theorem branch?_congr (h : w'.record? id = w.record? id) : w'.branch? id = w.branch? id :=
  congrArg (Option.map Execution.branchName) h

/-- **Serving a program that minds the branch leaves it as it is**, and what the program knows stays
true. -/
theorem branch?_of_serve {r : Request} {reply : r.Reply} (hr : r.Minds id known)
    (hknown : ∀ b, known = some b → w.branch? id = some b)
    (hs : w.serve r = some (reply, w')) :
    w'.branch? id = w.branch? id ∧
      ∀ b, r.branchAfter known reply = some b → w'.branch? id = some b := by
  cases r with
  | getExecution i =>
    obtain rfl : i = id := hr
    obtain ⟨hw, hreply⟩ := serve_getExecution hs
    have hsame := branch?_congr (hw.record i)
    refine ⟨hsame, fun b hb => hsame.trans ?_⟩
    rcases hreply with rfl | ⟨err, rfl⟩
    · cases hrec : w.record? i with
      | none =>
        rw [hrec] at hb
        exact hknown b hb
      | some e =>
        rw [hrec] at hb
        rw [branch?, hrec]
        exact hb
    · exact hknown b hb
  | updateExecution e =>
    have hsame : w'.branch? id = w.branch? id := by
      by_cases hid : e.id = id
      · subst hid
        cases hrec : w.record? e.id with
        | none => exact branch?_congr ((serve_updateExecution_of_none hrec hs).2.record e.id)
        | some old =>
          obtain ⟨x, w₁, hs', -, hx⟩ := serve_updateExecution hrec
          cases hs'.symm.trans hs
          rcases hx with ⟨-, hrec'⟩ | ⟨-, -, hrec'⟩
          · rw [hknown _ hr, branch?, hrec']
            rfl
          · exact branch?_congr hrec'
      · exact branch?_congr (serve_updateExecution_of_ne hid hs)
    exact ⟨hsame, fun b hb => hsame.trans (hknown b hb)⟩
  | getWorkflows | getWorkflow | getWorkItem =>
    have hsame := branch?_congr ((untouched_of_look hs).record id)
    exact ⟨hsame, fun b hb => hsame.trans (hknown b hb)⟩
  | createExecution e => cases hr
  | runStep | execute | awaitApproval | delegate => cases hs
  | _ =>
    cases hs
    exact ⟨rfl, hknown⟩

end World

/-- **A program that minds the branch and does not wait** leaves it as it is. -/
theorem Program.Minds.perform {α : Type} {p : Program α}
    {post : Option (Option String) → α → Prop} {id : Uuid} {known : Option (Option String)}
    {w w' : World} {a : α} (hp : p.Minds id post known)
    (hknown : ∀ b, known = some b → w.branch? id = some b) (h : w.perform p = some (a, w')) :
    w'.branch? id = w.branch? id := by
  induction p generalizing known w with
  | done b =>
    cases h
    rfl
  | ask r next ih =>
    rw [World.perform] at h
    split at h
    next reply w₁ hs =>
      obtain ⟨hsame, hknown⟩ := World.branch?_of_serve hp.1 hknown hs
      exact (ih reply (hp.2 reply (World.fits_of_serve hs)) hknown h).trans hsame
    next => cases h

/-! ### Systems -/

/-- **While a step is run, neither the run nor whoever cancels it changes the branch.** -/
theorem Passage.Step.branch?_eq {engine : Expr.Engine} {config : Config} {id : Uuid}
    {rule : Execution → Execution → Prop} {a : Assignment} {st st' : Passage} {x : Happening}
    (hl : st.LeavesAsk a) (h : Passage.Step (.ofRun engine config id rule) a st x st')
    (hx : x ≠ .outside) : st'.world.branch? id = st.world.branch? id := by
  by_cases hown : x.isOwn = true
  · exact World.branch?_congr ((h.proceeds hl hown).record id)
  · cases h with
    | cancel _ hc => exact (Orchestration.minds_cancel id none).perform nofun hc
    | outside => exact absurd rfl hx
    | _ => exact absurd rfl hown

namespace System

variable {α : Type} {engine : Expr.Engine} {config : Config} {id : Uuid}
  {rule : Execution → Execution → Prop} {s s' : System α} {x : Happening} {h : List Happening}

/-- **A program that minds the branch at work**, between its steps and while one is run. Between
its steps what it knows of the branch is true, and while one is run it knows nothing. -/
inductive Minds (id : Uuid) : System α → Prop where
  | program {w p known post} (h : Program.Minds id post known p)
      (hknown : ∀ b, known = some b → w.branch? id = some b) : Minds id (.ofProgram w p)
  | stepping {st a next post} (ha : a.executionId = id) (hst : st.Sound) (hl : st.LeavesAsk a)
      (hn : ∀ x, Program.Minds id post none (next x)) :
      Minds id (Passage.toSystem st a next)

/-- **Only others change the branch**, and they do so while a step is run. -/
theorem Minds.step (hs : s.Minds id) (h : Step (.ofRun engine config id rule) s x s') :
    s'.Minds id ∧ (x ≠ .outside → s'.world.branch? id = s.world.branch? id) := by
  cases hs with
  | @program w p known post hp hknown =>
    obtain ⟨-, ⟨r, next, reply, w', rfl, hr, rfl⟩ | ⟨a, step, c, next, rfl, rfl⟩⟩ := h.of_program
    · -- the program is served
      obtain ⟨hsame, hknown'⟩ := World.branch?_of_serve hp.1 hknown hr
      exact ⟨.program (hp.2 reply (World.fits_of_serve hr)) hknown', fun _ => hsame⟩
    · -- the program begins a step, and knows nothing of the branch from then on
      obtain ⟨⟨ha, -⟩, hn⟩ := hp
      have hl : Passage.LeavesAsk a ⟨w, .start step c 0, []⟩ := by rintro path p ⟨⟩
      exact ⟨.stepping ha (.start w step c 0) hl fun x => hn x trivial, fun _ => rfl⟩
  | @stepping st a next post ha hst hl hn =>
    rcases h.of_toSystem with ⟨st', hst', rfl⟩ | ⟨o, ho, -, rfl⟩
    · exact ⟨.stepping ha (hst.step hst') (hl.step hst') hn, hst'.branch?_eq hl⟩
    · rw [hst.leaves_eq_nil ho]
      exact ⟨.program (hn _) nofun, fun _ => rfl⟩

theorem Minds.run (hs : s.Minds id) (hr : Run (.ofRun engine config id rule) s h s') :
    s'.Minds id := by
  induction hr with
  | refl => exact hs
  | step hx _ ih => exact ih (hs.step hx).1

/-- A run that is about to begin minds the branch. -/
theorem minds_ofRun (engine : Expr.Engine) (id : Uuid) (w : World) :
    (ofProgram w (ExceptT.run (Orchestration.run engine id))).Minds id :=
  .program (Orchestration.minds_run engine id none) nofun

end System

end WorkflowEngine
