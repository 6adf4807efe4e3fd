import WorkflowEngine.Proofs.Run.Approval
import WorkflowEngine.Proofs.Run.Beginning
import WorkflowEngine.Proofs.Run.Results

/-!
# What is told of steps

A step that is over is told of by one event, and whoever handles errors is called once if it has
failed, whether its failure counts or not. Of a step that was cancelled nothing is told. A step
within another one is told of where it ends, a step at the top level by the run, so that a run may
owe what is to be told of the step that is just over.

## Main definitions

* `Telling`: what is told of a step
* `Ending.tellings`: what is to be told of a step that is over
* `World.tellings`: what was told of the steps of a run
* `Program.Owes`: what a program has to tell of the step that is over

## Main results

* `World.tellings_serve`: what is told by a request
* `World.tellings_observe`: what is told of a step within another one
* `Orchestration.owes_runSteps`: a run tells of each step at the top level once
* `Orchestration.eventually_owes_run`: and so does the whole run
-/

namespace WorkflowEngine

/-- What is told of a step. -/
inductive Telling where
  /-- It is over; this is told by an event. -/
  | executed (stepId stepType : String) (status : StepStatus) (depth : Nat)
  /-- It has failed; this is told to whoever handles errors. -/
  | handled (stepId : String) (stage : Stage) (error : StepError)
deriving Repr, DecidableEq

/-- **What is to be told of a step that is over**: nothing if the run was cancelled, that it has
failed, whether its failure counts or not, and to whoever handles errors where that arose, or that
it is completed. -/
def Ending.tellings (e : Ending) : List Telling :=
  match e.outcome with
  | .error .cancelled => []
  | .error error | .ok (.recovered error) =>
    [.executed e.step.id e.step.typeName .failed e.depth, .handled e.step.id error.stage error]
  | .ok _ => [.executed e.step.id e.step.typeName .completed e.depth]

/-- What an event tells of a step. -/
def EventData.telling? : EventData → Option Telling
  | .stepExecuted stepId stepType status _ depth _ => some (.executed stepId stepType status depth)
  | _ => none

/-- What is told of a step of a run by what is seen. -/
def Notice.telling? (id : Uuid) : Notice → Option Telling
  | .event e => if e.executionId = id then e.data.telling? else none
  | .reported stepId error => some (.handled stepId error.stage error)
  | _ => none

/-- What is told of a step of a run by a request. -/
def Request.telling? (id : Uuid) : Request → Option Telling
  | .emit i data => if i = id then data.telling? else none
  | .report _ stepId error => some (.handled stepId error.stage error)
  | _ => none

namespace Ending

variable {s : Step} {d ms : Nat} {o : Outcome}

theorem tellings_of_cancelled (h : o.isCancelled = true) : tellings ⟨s, d, o, ms⟩ = [] := by
  match o, h with
  | .error .cancelled, _ => rfl

/-- What is told of a step that was not cancelled: it is over, and its failure if it has one. -/
theorem tellings_eq (h : o.isCancelled = false) :
    tellings ⟨s, d, o, ms⟩ =
      .executed s.id s.typeName (if o.failure?.isSome then .failed else .completed) d ::
        (o.failure?.map fun e => .handled s.id e.stage e).toList := by
  unfold tellings
  dsimp only
  split
  · cases h
  · rfl
  · rfl
  next v hv => cases v <;> first | rfl | exact absurd rfl (hv _)

end Ending

namespace World

variable {w w' : World} {id : Uuid}

/-- What was told of the steps of a run. -/
def tellings (w : World) (id : Uuid) : List Telling :=
  w.log.reverse.filterMap fun x => x.2.telling? id

theorem tellings_note (n : Notice) :
    (w.note n).tellings id = w.tellings id ++ (n.telling? id).toList := by
  unfold tellings note
  rw [List.reverse_cons, List.filterMap_append]
  cases h : n.telling? id <;> simp [h]

theorem tellings_emit (i : Uuid) (data : EventData) :
    (w.emit i data).tellings id =
      w.tellings id ++ ((Request.emit i data).telling? id).toList :=
  tellings_note (w := w.newId.2.countEvent i) (.event (w.nextEvent i data))

/-- **What is told by a request** that is served. -/
theorem tellings_serve {r : Request} {reply : r.Reply} (hs : w.serve r = some (reply, w')) :
    w'.tellings id = w.tellings id ++ (r.telling? id).toList := by
  have htelling : (r.notice? w).bind (Notice.telling? id) = r.telling? id := by cases r <;> rfl
  rw [← htelling]
  exact filterMap_log_serve (Notice.telling? id) hs

/-- **What is told of a step that is announced.** -/
theorem tellings_announced {s : Step} {d ms : Nat} {o : Outcome} (h : o.isCancelled = false) :
    (w.announced id s d o ms).tellings id = w.tellings id ++ Ending.tellings ⟨s, d, o, ms⟩ := by
  have hemit : (w.emit id (.ofOutcome s d o ms)).tellings id = w.tellings id ++
      [.executed s.id s.typeName (if o.failure?.isSome then .failed else .completed) d] := by
    rw [tellings_emit, Request.telling?, if_pos rfl]
    rfl
  rw [Ending.tellings_eq h]
  unfold announced
  cases ho : o.failure? with
  | none =>
    rw [ho] at hemit
    exact hemit
  | some e =>
    rw [ho] at hemit
    dsimp only
    rw [tellings_note, hemit, List.append_assoc]
    rfl

/-- **What is told of a step that is over where it ends**: everything, unless it is at the top
level. -/
theorem tellings_observe (engine : Expr.Engine) (config : Config) (a : Assignment) (w : World)
    (e : Effect) :
    ((Setting.ofConfig engine config).observe a w e).tellings a.executionId =
      w.tellings a.executionId ++
        (e.ending?.toList.filter fun x => x.depth ≠ 0).flatMap Ending.tellings := by
  cases e with
  | finished s d o ms =>
    have hnote : (w.note (.finished s.id d o)).tellings a.executionId = w.tellings a.executionId :=
      (tellings_note _).trans (List.append_nil _)
    rw [Setting.observe_finished]
    by_cases hd : d = 0
    · simpa [hd, Effect.ending?] using hnote
    · cases ho : o.isCancelled with
      | true =>
        simp [hd, Effect.ending?, hnote, Ending.tellings_of_cancelled ho]
      | false => simp [hd, Effect.ending?, hnote, tellings_announced ho]
  | _ => exact (List.append_nil _).symm

end World

/-- A quiet request tells nothing. -/
theorem Request.IsQuiet.telling? {r : Request} (h : r.IsQuiet) (id : Uuid) :
    r.telling? id = none := by
  obtain ⟨-, hsilent⟩ := h
  cases r with
  | emit i data =>
    cases data with
    | stepExecuted => cases hsilent
    | _ => exact ite_self _
  | report => cases hsilent
  | _ => rfl

/-- A quiet request runs no step. -/
theorem Request.IsQuiet.ne_runStep {r : Request} (h : r.IsQuiet) (a : Assignment) (s : Step)
    (c : Context) : r ≠ .runStep a s c := by
  rintro rfl
  cases h.routine.isPlain

/-- A quiet program tells nothing. -/
theorem World.tellings_perform {α : Type} {w w' : World} {p : Program α} {x : α}
    (hp : p.Asks Request.IsQuiet) (h : w.perform p = some (x, w')) (id : Uuid) :
    w'.tellings id = w.tellings id := by
  induction p generalizing w with
  | done y =>
    cases h
    rfl
  | ask r k ih =>
    rw [perform] at h
    cases hs : w.serve r with
    | none =>
      rw [hs] at h
      cases h
    | some y =>
      obtain ⟨reply, w₁⟩ := y
      rw [hs] at h
      rw [ih reply (hp.2 reply) h, tellings_serve hs, hp.1.telling?]
      exact List.append_nil _

/-! ### What a run has to tell -/

namespace Program

variable {α β : Type} {id : Uuid} {owed : List Telling}

/-- **What a program has to tell of the step that is over**, whatever it is told: all of it, before
it ends or runs another step. What it has to tell of that one, then, is to be told after it. -/
inductive Owes (id : Uuid) : List Telling → Program α → Prop where
  | done {x} : Owes id [] (.done x)
  | runStep {a s c k} (ha : a.executionId = id)
      (h : ∀ o c', Owes id (Ending.tellings ⟨s, 0, o, 0⟩) (k (o, c'))) :
      Owes id [] (.ask (.runStep a s c) k)
  | ask {r k owed} (hr : ∀ a s c, r ≠ .runStep a s c) (h : ∀ reply, Owes id owed (k reply)) :
      Owes id ((r.telling? id).toList ++ owed) (.ask r k)

theorem Owes.bind {p : Program α} {f : α → Program β} (hp : Owes id owed p)
    (hf : ∀ x, Owes id [] (f x)) : Owes id owed (p.bind f) := by
  induction hp with
  | done => exact hf _
  | runStep ha _ ih => exact .runStep ha ih
  | ask hr _ ih => exact .ask hr ih

/-- A quiet program has nothing to tell. -/
theorem Asks.owes {p : Program α} (hp : p.Asks Request.IsQuiet) : Owes id [] p := by
  induction p with
  | done x => exact .done
  | ask r k ih =>
    have hask : Owes id ((r.telling? id).toList ++ []) (.ask r k) :=
      .ask hp.1.ne_runStep fun reply => ih reply (hp.2 reply)
    rwa [hp.1.telling?] at hask

end Program

namespace Orchestration

variable {α β : Type} {id : Uuid} {owed : List Telling}

/-- What a program has to tell of the step that is over. -/
def Owes (id : Uuid) (owed : List Telling) (p : Orchestration α) : Prop :=
  Program.Owes id owed (ExceptT.run p)

theorem Owes.bind {p : Orchestration α} {f : α → Orchestration β} (hp : Owes id owed p)
    (hf : ∀ x, Owes id [] (f x)) : Owes id owed (p >>= f) := by
  refine Program.Owes.bind (p := ExceptT.run p) (f := ExceptT.bindCont f) hp fun r => ?_
  cases r with
  | ok x => exact hf x
  | error e => exact .done

theorem IsQuiet.owes {p : Orchestration α} (hp : IsQuiet p) : Owes id [] p := Program.Asks.owes hp

/-- What is told of a step at the top level. -/
theorem owes_announceStep {a : Assignment} (ha : a.executionId = id) (s : Step) {o : Outcome}
    (h : o.isCancelled = false) (ms : Nat) :
    Owes id (Ending.tellings ⟨s, 0, o, 0⟩) (lift (announceStep a s 0 o ms)) := by
  subst ha
  have hstatus : (Request.emit a.executionId (.ofOutcome s 0 o ms)).telling? a.executionId =
      some (.executed s.id s.typeName (if o.failure?.isSome then .failed else .completed) 0) :=
    if_pos rfl
  have htellings : Ending.tellings ⟨s, 0, o, 0⟩ =
      ((Request.emit a.executionId (.ofOutcome s 0 o ms)).telling? a.executionId).toList ++
        (o.failure?.map fun e => .handled s.id e.stage e).toList := by
    rw [Ending.tellings_eq h, hstatus]
    rfl
  rw [htellings]
  -- the event, and after it the failure if there is one
  refine Program.Owes.bind (.ask (by rintro _ _ _ ⟨⟩) fun _ => ?_) fun _ => .done
  cases o.failure? with
  | none => exact .done
  | some e => exact .ask (r := .report a.executionId s.id e) (by rintro _ _ _ ⟨⟩) fun _ => .done

/-- **A run tells of each step at the top level once**, right after it. -/
theorem owes_runSteps {a : Assignment} (ha : a.executionId = id) (totalSteps : Nat)
    (steps : List Step) (c : Context) : Owes id [] (runSteps a totalSteps steps c) := by
  induction steps generalizing c with
  | nil =>
    rw [runSteps]
    refine (isQuiet_cancelRequested _).owes.bind fun cancelled => ?_
    cases cancelled
    · exact (isQuiet_finishCompleted _ _).owes
    · exact (isQuiet_finishCancelled _ _ _).owes
  | cons s steps ih =>
    rw [runSteps]
    refine (isQuiet_load _).owes.bind fun e => ?_
    refine (IsQuiet.owes (.lift (asks_isCancelled _))).bind fun cancelled => ?_
    split
    · exact (isQuiet_finishCancelled _ _ _).owes
    refine (isQuiet_update _ _).owes.bind fun _ => ?_
    refine Program.Owes.runStep ha fun o c' => ?_
    show Owes id _ (afterStep a totalSteps s steps (o, c'))
    unfold afterStep
    dsimp only
    split
    next ho =>
      rw [Ending.tellings_of_cancelled ho]
      exact (isQuiet_finishCancelled _ _ _).owes
    next ho =>
      -- all there is to tell is told before anything else is asked for
      refine (owes_announceStep ha s (by simpa using ho) _).bind fun _ => ?_
      refine (isQuiet_persist _ _).owes.bind fun _ => ?_
      split
      · exact ih c'
      · refine (isQuiet_cancelRequested _).owes.bind fun cancelled => ?_
        split
        · exact (isQuiet_finishCancelled _ _ _).owes
        · split
          · exact ih c'
          · exact (isQuiet_finishFailed _ _ _ _).owes

theorem owes_drive (engine : Expr.Engine) (e : Execution) (v : Workflow) :
    Owes e.id [] (drive engine e v) := by
  refine (IsQuiet.owes (.stored (asks_quiet .getWorkItem nofun rfl))).bind fun item => ?_
  split
  · exact IsQuiet.owes (.bind (isQuiet_markFailed _ _) fun _ => .throw _)
  · refine (IsQuiet.owes (.lift (asks_emit rfl rfl))).bind fun _ => ?_
    exact owes_runSteps (a := ⟨e.id, e.workflowId, e.workItemId⟩) rfl _ _ _

/-- **A run that has found its workflow** has nothing to tell yet. -/
theorem owes_begin (engine : Expr.Engine) (e : Execution) (v : Workflow) :
    Owes e.id [] (begin engine e.id e v) := by
  refine (IsQuiet.owes (.lift (asks_quiet .beginRun nofun rfl))).bind fun _ => ?_
  exact Program.Owes.bind (owes_drive engine e v) fun r =>
    .ask (r := .endRun e.id) nofun fun _ => .done

/-- A run tells nothing before it begins, and has nothing to tell then. -/
theorem eventually_owes_run (engine : Expr.Engine) (id : Uuid) (w : World) :
    ∃ n, Program.Eventually (Program.Owes id []) n w (ExceptT.run (run engine id)) := by
  refine eventually_run engine id (fun _ => .done) (fun error => ?_) fun e v hrec _ => ?_
  · exact IsQuiet.owes (.bind (isQuiet_markFailed id error.message) fun _ => .throw error)
  · obtain rfl : e.id = id := World.id_of_record? hrec
    exact owes_begin engine e v

end Orchestration

end WorkflowEngine
