import WorkflowEngine.Proofs.Run.Beginning
import WorkflowEngine.Proofs.Task.Price

/-!
# What programs cost

What a program asks for has a price. A simple step asks the executor as often as it may be tried,
and between its steps a run asks for a number of things that depends only on how many there are.

## Main definitions

* `Request.price`: what is paid for what is asked for
* `Program.Costs`: a program asks for no more than a sum pays for
* `Orchestration.Lasts`: a program asks for a number of things at most

## Main results

* `Leaf.costs_run`: a simple step costs no more than its price
* `Orchestration.costs_begin`: a run costs no more than its steps and what is done between them
-/

namespace WorkflowEngine

namespace Program

variable {α β : Type} {price : Request → Nat} {p : Program α} {n m : Nat}

/-- **A program asks for no more than a sum pays for**, whatever it is told. -/
def Costs (price : Request → Nat) : Program α → Nat → Prop
  | .done _, _ => True
  | .ask r k, n => price r ≤ n ∧ ∀ reply, Costs price (k reply) (n - price r)

theorem Costs.mono (hp : p.Costs price n) (h : n ≤ m) : p.Costs price m := by
  induction p generalizing n m with
  | done => trivial
  | ask r k ih =>
    exact ⟨hp.1.trans h, fun reply => ih reply (hp.2 reply) (Nat.sub_le_sub_right h _)⟩

/-- One thing is asked for, and then others. -/
theorem Costs.ask {r : Request} {k : r.Reply → Program α} (h : ∀ reply, (k reply).Costs price n) :
    (Program.ask r k).Costs price (price r + n) :=
  ⟨Nat.le_add_right .., fun reply => (Nat.add_sub_cancel_left (price r) n).symm ▸ h reply⟩

theorem Costs.request (r : Request) : (request r).Costs price (price r) :=
  ⟨le_rfl, fun _ => trivial⟩

theorem Costs.bind {f : α → Program β} (hp : p.Costs price n) (hf : ∀ a, (f a).Costs price m) :
    (p.bind f).Costs price (n + m) := by
  induction p generalizing n with
  | done a => exact (hf a).mono (Nat.le_add_left ..)
  | ask r k ih =>
    refine ⟨hp.1.trans (Nat.le_add_right ..), fun reply => (ih reply (hp.2 reply)).mono ?_⟩
    exact (Nat.sub_add_comm hp.1).ge

/-- A program that asks for a number of things, none of which costs more than another sum. -/
theorem Costs.of_asks {ok : Request → Prop} {c : Nat} (h : p.Costs (fun _ => 1) n)
    (hp : p.Asks ok) (hok : ∀ r, ok r → price r ≤ c) : p.Costs price (n * c) := by
  induction p generalizing n with
  | done => trivial
  | ask r k ih =>
    obtain ⟨n, rfl⟩ := Nat.exists_eq_add_of_le' h.1
    rw [Nat.add_mul, Nat.one_mul, Nat.add_comm]
    refine (Costs.ask fun reply => ih reply (h.2 reply) (hp.2 reply)).mono ?_
    exact Nat.add_le_add_right (hok r hp.1) _

end Program

/-! ### Simple steps -/

variable (config : Config) (τ : Tariff)

/-- **What is paid for what is asked for**: a motion, and besides a call of the executor, or all
that is paid for a step that is run. -/
def Request.price : Request → Nat
  | .execute .. => τ.motion + τ.call
  | .runStep _ s _ => τ.motion + s.price config τ
  | _ => τ.motion

theorem Request.motion_le_price (r : Request) : τ.motion ≤ r.price config τ := by
  cases r <;> simp [price]

theorem Request.IsPlain.price_eq {r : Request} (h : r.IsPlain) : r.price config τ = τ.motion := by
  cases h <;> rfl

theorem Request.IsPlain.costs {r : Request} (h : r.IsPlain) :
    (Program.request r).Costs (Request.price config τ) τ.motion :=
  h.price_eq config τ ▸ .request r

namespace Leaf

theorem attempts_le (p : Policy) : attempts config p ≤ p.tries config := Nat.mod_le ..

/-- What is paid for a simple step each time it is tried. -/
theorem costs_attempt (r : StepRequest) (caller : Caller) (timeoutSecs : Option Nat) (tries : Nat)
    (last : Option StepError) :
    (attempt r caller timeoutSecs tries last).Costs (Request.price config τ)
      (tries * (2 * τ.motion + τ.call)) := by
  induction tries generalizing last with
  | zero => trivial
  | succ tries ih =>
    have hrest : (Program.ask (.execute r caller timeoutSecs)
        (afterResponse r caller timeoutSecs tries)).Costs (Request.price config τ)
          (τ.motion + τ.call + tries * (2 * τ.motion + τ.call)) := by
      refine .ask fun response => ?_
      rcases afterResponse_cases r caller timeoutSecs tries response with ⟨v, h⟩ | ⟨e, h⟩
      · rw [h]
        trivial
      · rw [h]
        exact ih _
    rw [attempt_succ]
    dsimp only
    split
    · have hasks : (Program.ask (.isCancelled caller.executionId) fun cancelled : Bool =>
          if cancelled then .done (.error .cancelled)
          else Program.ask (.execute r caller timeoutSecs)
            (afterResponse r caller timeoutSecs tries)).Costs (Request.price config τ)
            (τ.motion + (τ.motion + τ.call + tries * (2 * τ.motion + τ.call))) := by
        refine .ask fun cancelled => ?_
        cases (cancelled : Bool)
        · exact hrest
        · trivial
      exact hasks.mono (by rw [Nat.add_mul]; omega)
    · exact hrest.mono (by rw [Nat.add_mul]; omega)

/-- **A simple step costs no more than its price.** -/
theorem costs_run (engine : Expr.Engine) (a : Assignment) (head : Head) (leaf : Leaf) (depth : Nat)
    (c : Context) :
    (Leaf.run engine config a head leaf depth c).Costs (Request.price config τ)
      (head.price config τ) := by
  unfold Leaf.run
  split
  · have h : (awaitApproval engine config a head leaf c).Costs (Request.price config τ)
        (τ.motion + (τ.motion + (τ.motion + τ.motion))) := by
      rw [awaitApproval_eq]
      refine .ask fun cancelled => ?_
      cases (cancelled : Bool) with
      | true => trivial
      | false =>
        simp only [Bool.false_eq_true, if_false]
        split
        · trivial
        · refine .ask fun _ => .ask fun verdict => ?_
          split
          · exact .request (.emit ..)
          · trivial
    exact h.mono (by unfold Head.price; omega)
  · unfold dispatch
    split
    · trivial
    · refine (costs_attempt ..).mono ?_
      exact (Nat.mul_le_mul_right _ (attempts_le ..)).trans (Nat.le_add_left ..)

end Leaf

/-! ### Runs -/

namespace Orchestration

variable {α β : Type} {price : Request → Nat} {p : Orchestration α} {f : α → Orchestration β}
  {n m : Nat}

/-- A program asks for no more than a sum pays for. -/
def Costs (price : Request → Nat) (p : Orchestration α) (n : Nat) : Prop :=
  Program.Costs price (ExceptT.run p) n

/-- **A program asks for a number of things at most.** -/
def Lasts (p : Orchestration α) (n : Nat) : Prop := Costs (fun _ => 1) p n

theorem Costs.mono (hp : Costs price p n) (h : n ≤ m) : Costs price p m := Program.Costs.mono hp h

theorem Costs.pure (a : α) : Costs price (Pure.pure a : Orchestration α) n := trivial

theorem Costs.throw (e : RunError) : Costs price (throw e : Orchestration α) n := trivial

theorem Costs.bind (hp : Costs price p n) (hf : ∀ a, Costs price (f a) m) :
    Costs price (p >>= f) (n + m) := by
  refine Program.Costs.bind (p := ExceptT.run p) (f := ExceptT.bindCont f) hp fun r => ?_
  cases r with
  | ok a => exact hf a
  | error e => trivial

theorem Costs.lift {p : Program α} (hp : p.Costs price n) : Costs price (lift p) n :=
  Program.Costs.bind (p := p) (m := 0) hp fun _ => trivial

theorem Costs.stored {p : Program (Except StoreError α)} (hp : p.Costs price n) :
    Costs price (stored p) n :=
  Program.Costs.bind (p := p) (m := 0) hp fun _ => trivial

/-- A program that asks for routine things. -/
theorem Lasts.costs (h : Lasts p n) (hp : IsRoutine p) :
    Costs (Request.price config τ) p (n * τ.motion) :=
  Program.Costs.of_asks h hp fun _ hr => (hr.isPlain.price_eq config τ).le

/-- A program of routine things, within a sum. -/
theorem Lasts.costs_of_le (h : Lasts p n) (hp : IsRoutine p) (hle : n * τ.motion ≤ m) :
    Costs (Request.price config τ) p m :=
  (h.costs config τ hp).mono hle

theorem lasts_load (id : Uuid) : Lasts (load id) 1 := by
  refine Costs.bind (n := 1) (m := 0) (.stored (.request _)) fun e => ?_
  cases (e : Option Execution) with
  | none => exact .throw _
  | some e => exact .pure _

theorem lasts_update (e : Execution) (change : Execution → Timestamp → Execution) :
    Lasts (update e change) 2 :=
  Costs.bind (n := 1) (m := 1) (.lift (.request _)) fun _ =>
    .bind (n := 1) (m := 0) (.stored (.request _)) fun _ => .pure _

theorem lasts_markFailed (id : Uuid) (error : String) : Lasts (markFailed id error) 3 := by
  refine Costs.bind (n := 1) (m := 2) (lasts_load id) fun e => ?_
  cases e.status.isTerminal
  · exact .bind (n := 2) (m := 0) (lasts_update _ _) fun _ => .pure _
  · exact .pure _

theorem lasts_finishCancelled (a : Assignment) (totalSteps : Nat) (stepId : Option String) :
    Lasts (finishCancelled a totalSteps stepId) 4 := by
  refine Costs.bind (n := 1) (m := 3) (lasts_load _) fun e => ?_
  cases e.status.isTerminal
  · exact .bind (n := 2) (m := 1) (lasts_update _ _) fun _ =>
      .bind (n := 1) (m := 0) (.lift (.request _)) fun _ => .pure _
  · exact .bind (n := 2) (m := 1) (.pure e) fun _ =>
      .bind (n := 1) (m := 0) (.lift (.request _)) fun _ => .pure _

theorem lasts_finishTerminal (a : Assignment) (totalSteps : Nat) (status : Status)
    (stepId : Option String) : Lasts (finishTerminal a totalSteps status stepId) 4 := by
  cases status with
  | cancelled => exact lasts_finishCancelled _ _ _
  | _ => exact Costs.throw _

theorem lasts_finishFailed (a : Assignment) (totalSteps : Nat) (stepId : String)
    (error : StepError) : Lasts (finishFailed a totalSteps stepId error) 5 := by
  refine Costs.bind (n := 1) (m := 4) (lasts_load _) fun e => ?_
  cases e.status.isTerminal
  · exact .bind (n := 2) (m := 2) (lasts_update _ _) fun _ =>
      .bind (n := 1) (m := 1) (.lift (.request _)) fun _ => .throw _
  · exact lasts_finishTerminal _ _ _ _

theorem lasts_finishCompleted (a : Assignment) (totalSteps : Nat) :
    Lasts (finishCompleted a totalSteps) 5 := by
  refine Costs.bind (n := 1) (m := 4) (lasts_load _) fun e => ?_
  cases e.status.isTerminal
  · exact .bind (n := 2) (m := 2) (lasts_update _ _) fun _ =>
      .bind (n := 1) (m := 1) (.lift (.request _)) fun _ => .pure _
  · exact lasts_finishTerminal _ _ _ _

theorem lasts_cancelRequested (id : Uuid) : Lasts (cancelRequested id) 2 := by
  refine Costs.bind (n := 1) (m := 1) (.lift (.request _)) fun b => ?_
  cases (b : Bool)
  · exact .bind (n := 1) (m := 0) (lasts_load id) fun _ => .pure _
  · exact .pure _

theorem lasts_persist (id : Uuid) (r : StepResult) : Lasts (persist id r) 3 :=
  Costs.bind (n := 1) (m := 2) (lasts_load id) fun _ =>
    .bind (n := 2) (m := 0) (lasts_update _ _) fun _ => .pure _

theorem lasts_announceStep (a : Assignment) (s : Step) (depth : Nat) (o : Outcome) (ms : Nat) :
    Lasts (lift (announceStep a s depth o ms)) 2 := by
  refine Costs.lift (Program.Costs.bind (n := 1) (m := 1) (.request _) fun _ => ?_)
  cases o.failure? with
  | none => trivial
  | some e => exact .request _

section

variable {config τ} {a : Assignment} {totalSteps : Nat} {steps : List Step}

/-- What a run costs after a step, if the steps that follow do not cost more than a sum. -/
theorem costs_afterStep (hn : 7 * τ.motion ≤ n)
    (hrest : ∀ c, Costs (Request.price config τ) (runSteps a totalSteps steps c) n) (s : Step)
    (x : Outcome × Context) :
    Costs (Request.price config τ) (afterStep a totalSteps s steps x) (7 * τ.motion + n) := by
  have hcancelled {m : Nat} (hm : n ≤ m) : Costs (Request.price config τ)
      (finishCancelled a totalSteps (some s.id)) m :=
    (lasts_finishCancelled ..).costs_of_le config τ (isQuiet_finishCancelled ..).isRoutine
      (by omega)
  unfold afterStep
  split
  · exact hcancelled (Nat.le_add_left ..)
  -- the step is told of, kept, and followed by others, by a cancellation or by a failure
  refine Costs.mono (n := 2 * τ.motion + (3 * τ.motion + (2 * τ.motion + n))) ?_ (by omega)
  refine .bind ((lasts_announceStep ..).costs config τ (isRoutine_announceStep ..)) fun _ => ?_
  refine .bind ((lasts_persist ..).costs config τ (isQuiet_persist ..).isRoutine) fun _ => ?_
  split
  · exact (hrest _).mono (Nat.le_add_left ..)
  · refine .bind ((lasts_cancelRequested _).costs config τ (isQuiet_cancelRequested _).isRoutine)
      fun cancelled => ?_
    split
    · exact hcancelled le_rfl
    · split
      · exact hrest _
      · exact (lasts_finishFailed ..).costs_of_le config τ (isQuiet_finishFailed ..).isRoutine
          (by omega)

variable (config τ) in
/-- **What a run costs from one of its steps on**: what it asks for between steps, and the prices of
the steps. -/
theorem costs_runSteps (a : Assignment) (totalSteps : Nat) (steps : List Step) (c : Context) :
    Costs (Request.price config τ) (runSteps a totalSteps steps c)
      (7 * τ.motion + steps.length * (12 * τ.motion) + Step.priceList config τ steps) := by
  have hcancelled {n : Nat} (hn : 4 * τ.motion ≤ n) (stepId : Option String) :
      Costs (Request.price config τ) (finishCancelled a totalSteps stepId) n :=
    (lasts_finishCancelled ..).costs_of_le config τ (isQuiet_finishCancelled ..).isRoutine hn
  induction steps generalizing c with
  | nil =>
    rw [runSteps]
    refine Costs.mono (n := 2 * τ.motion + 5 * τ.motion) ?_ (by omega)
    refine .bind ((lasts_cancelRequested _).costs config τ (isQuiet_cancelRequested _).isRoutine)
      fun cancelled => ?_
    cases cancelled
    · exact (lasts_finishCompleted ..).costs config τ (isQuiet_finishCompleted ..).isRoutine
    · exact hcancelled (by omega) _
  | cons s steps ih =>
    rw [runSteps]
    generalize hn : 7 * τ.motion + steps.length * (12 * τ.motion) +
      Step.priceList config τ steps = n at ih
    -- five things are asked for up to the step, and seven before the next one
    have hsteps : 1 * τ.motion + (τ.motion + (2 * τ.motion +
        (τ.motion + s.price config τ + (7 * τ.motion + n)))) ≤
        7 * τ.motion + (s :: steps).length * (12 * τ.motion) +
          Step.priceList config τ (s :: steps) := by
      rw [List.length_cons, Step.priceList, Nat.add_mul]
      omega
    refine Costs.mono (.bind ((lasts_load _).costs config τ (isQuiet_load _).isRoutine) fun e => ?_)
      hsteps
    refine .bind (.lift (Request.IsPlain.isCancelled.costs config τ)) fun cancelled => ?_
    split
    · exact hcancelled (by omega) _
    refine .bind ((lasts_update ..).costs config τ (isQuiet_update ..).isRoutine) fun _ => ?_
    refine .bind (.lift (.request (.runStep a s _))) fun x => ?_
    exact costs_afterStep (by omega) ih s x

variable (config τ) in
theorem costs_fail (id : Uuid) (message : String) (e : RunError) :
    Costs (Request.price config τ) (do
      markFailed id message
      throw e : Orchestration Summary) (3 * τ.motion) :=
  .bind (m := 0) ((lasts_markFailed ..).costs config τ (isQuiet_markFailed ..).isRoutine)
    fun _ => .throw _

variable (config τ) in
/-- **What a run costs that has found its workflow.** -/
theorem costs_begin (engine : Expr.Engine) (id : Uuid) (e : Execution) (v : Workflow) :
    Costs (Request.price config τ) (begin engine id e v)
      (11 * τ.motion + v.steps.length * (12 * τ.motion) + Step.priceList config τ v.steps) := by
  generalize hn : 7 * τ.motion + v.steps.length * (12 * τ.motion) +
    Step.priceList config τ v.steps = n
  have hdrive : Costs (Request.price config τ) (drive engine e v) (τ.motion + (τ.motion + n)) := by
    refine .bind (.stored (Request.IsPlain.getWorkItem.costs config τ)) fun item => ?_
    split
    · exact (costs_fail config τ e.id _ _).mono (by omega)
    · refine .bind (.lift (Request.IsPlain.emit.costs config τ)) fun _ => ?_
      exact hn ▸ costs_runSteps config τ ⟨e.id, e.workflowId, e.workItemId⟩ v.steps.length v.steps _
  have hending : Costs (Request.price config τ) (ending id (drive engine e v))
      (τ.motion + (τ.motion + n) + τ.motion) :=
    Program.Costs.bind hdrive fun r => .bind (m := 0) (.request (.endRun id)) fun _ => trivial
  refine Costs.mono (.bind (.lift (Request.IsPlain.beginRun.costs config τ)) fun _ => hending) ?_
  omega

end

end Orchestration

end WorkflowEngine
