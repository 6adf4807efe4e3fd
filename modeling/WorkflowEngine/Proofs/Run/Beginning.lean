import WorkflowEngine.Proofs.Run.Suspension

/-!
# Beginnings of runs

Before a run begins, it looks for its record and resolves its workflow. It waits for no one
meanwhile, so that what it finds is what the world holds, and what it does then is said of the one
record and the one workflow that it has found.

## Main definitions

* `World.workflowOf`: the workflow that a run is going to run
* `Request.Runs`: what a run may ask for
* `Program.Eventually`: what a program comes to when it is served
* `Orchestration.begin`: what a run does when it has found its workflow

## Main results

* `Orchestration.IsQuiet.eventually`: a quiet program before another one
* `Orchestration.eventually_run`: what a run comes to
-/

namespace WorkflowEngine

/-- The workflow that a run is going to run, if it has a record and that has a workflow without
errors. -/
def World.workflowOf (w : World) (id : Uuid) : Option Workflow :=
  (w.record? id).bind fun e => (w.store.resolved e.workflowId).toOption

theorem World.workflowOf_eq {w : World} {id : Uuid} {e : Execution} {v : Workflow}
    (he : w.record? id = some e) (hv : w.store.resolved e.workflowId = .ok v) :
    w.workflowOf id = some v := by
  rw [workflowOf, he, Option.bind_some, hv]
  rfl

/-- **What a run may ask for** whose steps are of a kind: one of these is run, or what it asks for
is served at once. -/
inductive Request.Runs (P : Step → Prop) : Request → Prop where
  | served {r} (h : r.isOutside = false) : Runs P r
  | runStep {a s c} (h : P s) : Runs P (.runStep a s c)

namespace System

variable {α : Type} {w : World} {setting : Setting}

/-- What is served at once is no wait. -/
theorem move_of_serve {w' : World} {r : Request} {k : r.Reply → Program α} {reply : r.Reply}
    (hs : w.serve r = some (reply, w')) :
    (ofProgram w (.ask r k)).move setting [] = some (.ofProgram w' (k reply), .silent) := by
  cases r with
  | runStep => cases hs
  | _ => simp [move, moveProgram, ofProgram, hs]

/-- A run that is not over does not wait between its steps. -/
theorem isSome_move_of_runs {P : WorkflowEngine.Step → Prop} {r : Request} (hr : r.Runs P)
    (k : r.Reply → Program α) : ((ofProgram w (.ask r k)).move setting []).isSome = true := by
  cases hr with
  | served h =>
    obtain ⟨x, hx⟩ := Option.ne_none_iff_exists'.mp
      (mt World.serve_eq_none_iff.mp (by simp [h] : ¬ r.isOutside = true))
    rw [move_of_serve hx]
    rfl
  | runStep => rfl

end System

namespace Program

variable {α : Type}

/-- **What a program comes to** when it is served a number of times, and tells nothing meanwhile. -/
inductive Eventually (P : Program α → Prop) : Nat → World → Program α → Prop where
  | now {w p} (h : P p) : Eventually P 0 w p
  | serve {n w r k reply w'} (hr : r.IsQuiet) (hs : w.serve r = some (reply, w'))
      (h : Eventually P n w' (k reply)) : Eventually P (n + 1) w (.ask r k)

end Program

namespace Orchestration

variable {α β : Type} {P : Program (Except RunError β) → Prop} {w : World}

/-- **A quiet program before another one**: it is done, and the other one comes next. -/
theorem IsQuiet.eventually {p : Orchestration α} {f : α → Orchestration β}
    {post : Except RunError α → World → Prop} (hp : p.IsQuiet) (hw : w.Ends p post)
    (hok : ∀ a w', post (.ok a) w' → ∃ n, Program.Eventually P n w' (ExceptT.run (f a)))
    (herr : ∀ e, P (.done (.error e))) :
    ∃ n, Program.Eventually P n w (ExceptT.run (p >>= f)) := by
  obtain ⟨r, w', hperform, hpost⟩ := hw
  show ∃ n, Program.Eventually P n w ((ExceptT.run p).bind (ExceptT.bindCont f))
  have hp : (ExceptT.run p).Asks Request.IsQuiet := hp
  generalize ExceptT.run p = q at hp hperform
  induction q generalizing w with
  | done r' =>
    cases hperform
    cases r with
    | ok a => exact hok a w' hpost
    | error e => exact ⟨0, .now (herr e)⟩
  | ask r' k ih =>
    rw [World.perform] at hperform
    cases hs : w.serve r' with
    | none =>
      rw [hs] at hperform
      cases hperform
    | some y =>
      obtain ⟨reply, w₁⟩ := y
      rw [hs] at hperform
      obtain ⟨n, hn⟩ := ih reply (hp.2 reply) hperform
      exact ⟨n + 1, .serve hp.1 hs hn⟩

/-- What a run does when it has found its record and its workflow. -/
def begin (engine : Expr.Engine) (id : Uuid) (e : Execution) (v : Workflow) :
    Orchestration Summary := do
  let () ← lift (Program.request (.beginRun id))
  ending id (drive engine e v)

theorem asks_begin {P : Step → Prop} (engine : Expr.Engine) (id : Uuid) (e : Execution)
    {v : Workflow} (h : ∀ s ∈ v.steps, P s) : Asks (Request.Runs P) (begin engine id e v) := by
  refine .bind (.lift (.request (.served rfl))) fun _ => ?_
  refine Program.Asks.bind ?_ fun _ => ⟨.served rfl, fun _ => trivial⟩
  exact asks_drive (fun r hr => .served hr.isPlain.isOutside) engine e fun a s hs c =>
    .runStep (h s hs)

/-- **What a run comes to**: to an error, or to the run of the resolved workflow of its record. If
the workflow cannot be run, that is kept as the error of the record. -/
theorem eventually_run {P : Program (Except RunError Summary) → Prop} (engine : Expr.Engine)
    (id : Uuid) (herr : ∀ e, P (.done (.error e)))
    (hfail : ∀ error : RunError, P (ExceptT.run do
      markFailed id error.message
      throw error))
    (hbegin : ∀ e v, w.record? id = some e → w.store.resolved e.workflowId = .ok v →
      P (ExceptT.run (begin engine id e v))) :
    ∃ n, Program.Eventually P n w (ExceptT.run (run engine id)) := by
  refine (isQuiet_load id).eventually (w.ends_load_found id) ?_ herr
  rintro e w₁ ⟨huntouched, hfound⟩
  cases e.status.isTerminal with
  | true => exact ⟨0, .now (herr _)⟩
  | false =>
    obtain ⟨r, w₂, hperform, -, hresolved⟩ := w₁.ends_runnable_resolved e.workflowId
    refine IsQuiet.eventually (.lift (isQuiet_runnable e.workflowId)) (World.ends_lift hperform)
      ?_ herr
    rintro _ _ ⟨⟨⟩, rfl⟩
    cases r with
    | error error => exact ⟨0, .now (hfail error)⟩
    | ok v =>
      refine ⟨0, .now (hbegin e v (hfound e rfl) ?_)⟩
      rw [← huntouched.store]
      exact hresolved v rfl

end Orchestration

end WorkflowEngine
