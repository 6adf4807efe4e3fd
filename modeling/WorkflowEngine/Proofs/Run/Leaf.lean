import WorkflowEngine.Proofs.Run.History

/-!
# Programs of simple steps

What the programs that do simple steps ask for, and what is told of a step that is over.

## Main definitions

* `Program.Asks`: everything that a program may ask for
* `Request.OfLeaf`: what is asked for while a simple step is done
* `World.announced`: the world after a step was announced
* `EventData.IsProgress`: what is announced while steps are run
* `Surroundings.Keeps`: what nothing changes that happens while a step is run

## Main results

* `Leaf.asks_run`: programs of simple steps ask for nothing else
* `Setting.observe_finished`: what is seen and told of a step that is over
* `Surroundings.Keeps.run`: what the single happenings keep, histories of steps keep
-/

namespace WorkflowEngine

namespace Program

variable {α β : Type} {ok : Request → Prop}

/-- Everything that a program may ask for, whatever it is told, is of a kind. -/
def Asks (ok : Request → Prop) : Program α → Prop
  | .done _ => True
  | .ask r k => ok r ∧ ∀ reply, Asks ok (k reply)

theorem Asks.bind {p : Program α} {f : α → Program β} (hp : p.Asks ok)
    (hf : ∀ a, (f a).Asks ok) : (p.bind f).Asks ok := by
  induction p with
  | done a => exact hf a
  | ask r k ih => exact ⟨hp.1, fun reply => ih reply (hp.2 reply)⟩

theorem Asks.mono {ok' : Request → Prop} {p : Program α} (hp : p.Asks ok)
    (h : ∀ r, ok r → ok' r) : p.Asks ok' := by
  induction p with
  | done a => trivial
  | ask r k ih => exact ⟨h r hp.1, fun reply => ih reply (hp.2 reply)⟩

theorem Asks.request {r : Request} (h : ok r) : (request r).Asks ok := ⟨h, fun _ => trivial⟩

end Program

/-- What is asked for while a simple step of a run is done. -/
inductive Request.OfLeaf (a : Assignment) : Request → Prop where
  | isCancelled : OfLeaf a (.isCancelled a.executionId)
  | paused {stepId reason} : OfLeaf a (.emit a.executionId (.paused stepId reason))
  | resumed {stepId} : OfLeaf a (.emit a.executionId (.resumed stepId))
  | execute {request caller timeoutSecs} : OfLeaf a (.execute request caller timeoutSecs)
  | awaitApproval {stepId timeoutSecs prompt} :
      OfLeaf a (.awaitApproval a.executionId stepId timeoutSecs prompt)

namespace Leaf

variable {engine : Expr.Engine} {config : Config} {a : Assignment} {head : Head} {leaf : Leaf}
  {depth : Nat} {c : Context}

/-- What follows a response to a simple step that is handed out. -/
def afterResponse (r : StepRequest) (caller : Caller) (timeoutSecs : Option Nat) (tries : Nat) :
    Option StepResponse → Program (Except StepError Json)
  | some ⟨true, value, _⟩ => .done (.ok (value.getD .null))
  | other => attempt r caller timeoutSecs tries (some (failure r timeoutSecs other))

theorem attempt_succ (r : StepRequest) (caller : Caller) (timeoutSecs : Option Nat) (tries : Nat)
    (last : Option StepError) :
    attempt r caller timeoutSecs (tries + 1) last =
      let rest : Program (Except StepError Json) :=
        .ask (.execute r caller timeoutSecs) (afterResponse r caller timeoutSecs tries)
      if last.isSome then
        .ask (.isCancelled caller.executionId) fun cancelled : Bool =>
          if cancelled then .done (.error .cancelled) else rest
      else rest := by
  rw [attempt]
  cases last <;> rfl

/-- **After a response a simple step has succeeded or is tried again.** -/
theorem afterResponse_cases (r : StepRequest) (caller : Caller) (timeoutSecs : Option Nat)
    (tries : Nat) (response : Option StepResponse) :
    (∃ v, afterResponse r caller timeoutSecs tries response = .done (.ok v)) ∨
      ∃ e, afterResponse r caller timeoutSecs tries response =
        attempt r caller timeoutSecs tries (some e) := by
  rcases response with _ | ⟨_ | _, value, error⟩
  · exact .inr ⟨_, rfl⟩
  · exact .inr ⟨_, rfl⟩
  · exact .inl ⟨_, rfl⟩

theorem asks_attempt {ok : Request → Prop} {r : StepRequest} {caller : Caller}
    {timeoutSecs : Option Nat} (hc : ok (.isCancelled caller.executionId))
    (he : ok (.execute r caller timeoutSecs)) (tries : Nat) (last : Option StepError) :
    (attempt r caller timeoutSecs tries last).Asks ok := by
  induction tries generalizing last with
  | zero => trivial
  | succ tries ih =>
    have hrest : (Program.ask (.execute r caller timeoutSecs)
        (afterResponse r caller timeoutSecs tries)).Asks ok := by
      refine ⟨he, fun response => ?_⟩
      rcases afterResponse_cases r caller timeoutSecs tries response with ⟨v, h⟩ | ⟨e, h⟩
      · rw [h]
        trivial
      · rw [h]
        exact ih _
    rw [attempt_succ]
    dsimp only
    split
    · refine ⟨hc, fun cancelled => ?_⟩
      cases (cancelled : Bool)
      · exact hrest
      · trivial
    · exact hrest

/-- The program of a simple step that asks for an approval. -/
theorem awaitApproval_eq (engine : Expr.Engine) (config : Config) (a : Assignment) (head : Head)
    (leaf : Leaf) (c : Context) :
    awaitApproval engine config a head leaf c =
      .ask (.isCancelled a.executionId) fun cancelled : Bool =>
        if cancelled then .done (.error .cancelled)
        else
          match promptText engine leaf c.toJson with
          | .error e => .done (.error (.expression head.id e.message))
          | .ok prompt =>
            .ask (.emit a.executionId (.paused head.id
              (prompt.getD ("awaiting approval for step '" ++ head.id ++ "'")))) fun _ =>
            .ask (.awaitApproval a.executionId head.id (approvalTimeout config head.policy)
              prompt) fun verdict : Verdict =>
            if (ofVerdict head.id verdict).isOk then
              .ask (.emit a.executionId (.resumed head.id)) fun _ =>
                .done (ofVerdict head.id verdict)
            else .done (ofVerdict head.id verdict) := rfl

/-- **Programs of simple steps ask for nothing else.** -/
theorem asks_run (engine : Expr.Engine) (config : Config) (a : Assignment) (head : Head)
    (leaf : Leaf) (depth : Nat) (c : Context) :
    (Leaf.run engine config a head leaf depth c).Asks (Request.OfLeaf a) := by
  unfold Leaf.run
  split
  · rw [awaitApproval_eq]
    refine ⟨.isCancelled, fun cancelled => ?_⟩
    cases (cancelled : Bool) with
    | true => trivial
    | false =>
      simp only [Bool.false_eq_true, if_false]
      split
      · trivial
      · refine ⟨.paused, fun _ => ⟨.awaitApproval, fun verdict => ?_⟩⟩
        dsimp only
        split
        · exact ⟨.resumed, fun _ => trivial⟩
        · trivial
  · unfold dispatch
    split
    · trivial
    · exact asks_attempt .isCancelled .execute _ _

end Leaf

/-! ### What is told of a step that is over -/

namespace World

/-- The world after a step was announced. -/
def announced (w : World) (id : Uuid) (s : Step) (depth : Nat) (o : Outcome) (ms : Nat) : World :=
  match o.failure? with
  | some e => (w.emit id (.ofOutcome s depth o ms)).note (.reported s.id e)
  | none => w.emit id (.ofOutcome s depth o ms)

theorem perform_announceStep (w : World) (a : Assignment) (s : Step) (depth : Nat) (o : Outcome)
    (ms : Nat) :
    w.perform (announceStep a s depth o ms) =
      some ((), w.announced a.executionId s depth o ms) := by
  unfold announced announceStep
  cases h : o.failure? with
  | none => rfl
  | some e => rfl

end World

/-- **What is seen and told of a step that is over**: it is announced by an event, unless it is at
the top level or was cancelled. -/
theorem Setting.observe_finished (engine : Expr.Engine) (config : Config) (a : Assignment)
    (w : World) (s : Step) (depth : Nat) (o : Outcome) (ms : Nat) :
    (Setting.ofConfig engine config).observe a w (.finished s depth o ms) =
      if depth = 0 || o.isCancelled then w.note (.finished s.id depth o)
      else (w.note (.finished s.id depth o)).announced a.executionId s depth o ms := by
  simp only [observe, ofConfig, WorkflowEngine.tellFinished]
  by_cases h : (decide (depth = 0) || o.isCancelled) = true
  · rw [if_pos h, if_pos h]
    rfl
  · rw [if_neg h, if_neg h, World.perform_announceStep]

/-! ### What is kept while a step is run -/

/-- What is announced while steps are run. -/
inductive EventData.IsProgress : EventData → Prop where
  | stepExecuted {stepId stepType status durationMs depth error} :
      IsProgress (.stepExecuted stepId stepType status durationMs depth error)
  | paused {stepId reason} : IsProgress (.paused stepId reason)
  | resumed {stepId} : IsProgress (.resumed stepId)

namespace Surroundings

/-- The surroundings of a run of the engine. -/
def ofRun (engine : Expr.Engine) (config : Config) (id : Uuid)
    (rule : Execution → Execution → Prop) : Surroundings :=
  ⟨.ofConfig engine config, id, rule⟩

/-- **What nothing changes that happens while a step is run.** -/
structure Keeps (S : Surroundings) (P : World → Prop) : Prop where
  note : ∀ {w n}, n.event? S.id = none → P w → P (w.note n)
  emit : ∀ {w data}, EventData.IsProgress data → P w → P (w.emit S.id data)
  cancel : ∀ {w w' r},
    w.perform (ExceptT.run (Orchestration.cancel S.id)) = some (r, w') → P w → P w'
  outside : ∀ {w w' : World}, w.Meanwhile S w' → P w → P w'

variable {engine : Expr.Engine} {config : Config} {id : Uuid}
  {rule : Execution → Execution → Prop} {P : World → Prop} {a : Assignment}

theorem Keeps.announced (hP : (ofRun engine config id rule).Keeps P) {w : World} (h : P w)
    (s : Step) (depth : Nat) (o : Outcome) (ms : Nat) : P (w.announced id s depth o ms) := by
  unfold World.announced
  split
  · exact hP.note rfl (hP.emit .stepExecuted h)
  · exact hP.emit .stepExecuted h

theorem Keeps.observe (hP : (ofRun engine config id rule).Keeps P) (ha : a.executionId = id)
    {w : World} (h : P w) (e : Effect) : P ((Setting.ofConfig engine config).observe a w e) := by
  cases e with
  | finished s depth o ms =>
    rw [Setting.observe_finished]
    split
    · exact hP.note rfl h
    · rw [ha]
      exact hP.announced (hP.note rfl h) _ _ _ _
  | _ => exact h

theorem Keeps.serve (hP : (ofRun engine config id rule).Keeps P) (ha : a.executionId = id)
    {w w' : World} {r : Request} {reply : r.Reply} (hr : r.OfLeaf a)
    (hs : w.serve r = some (reply, w')) (h : P w) : P w' := by
  subst ha
  cases hr with
  | isCancelled => cases hs; exact h
  | paused => cases hs; exact hP.emit .paused h
  | resumed => cases hs; exact hP.emit .resumed h
  | execute => cases hs
  | awaitApproval => cases hs

end Surroundings

namespace Passage

variable {engine : Expr.Engine} {config : Config} {id : Uuid}
  {rule : Execution → Execution → Prop} {a : Assignment} {st st' : Passage} {x : Happening}

/-- The programs of all simple steps that are being done are of a kind. -/
def Leaves (p : LeafProgram → Prop) (st : Passage) : Prop :=
  ∀ path q, st.leaf? path = some q → p q

theorem Leaves.setLeaf {p : LeafProgram → Prop} (hst : st.Leaves p) {path : Path} {q : LeafProgram}
    (hq : p q) : (st.setLeaf path q).Leaves p := by
  intro path' q' hq'
  rw [leaf?_setLeaf] at hq'
  split at hq'
  · cases hq'
    exact hq
  · exact hst path' q' hq'

/-- **The programs of simple steps stay of a kind** that is kept when they go on. -/
theorem Leaves.step {p : LeafProgram → Prop} (hst : st.Leaves p)
    (hrun : ∀ head leaf depth c, p (Leaf.run engine config a head leaf depth c))
    (hnext : ∀ r k reply, p (.ask r k) → p (k reply))
    (h : Passage.Step (.ofRun engine config id rule) a st x st') : st'.Leaves p := by
  cases h with
  | advance => exact hst
  | call => exact hst.setLeaf (hrun _ _ _ _)
  | @serve path r k reply w' hl hs =>
    have hst' : Leaves p { st with world := w' } := hst
    exact hst'.setLeaf (hnext r k reply (hst path _ hl))
  | @answer path r t hl h =>
    intro path' q hq
    have hq := (lookup_others st path path').symm.trans hq
    split at hq
    · cases hq
    · exact hst path' q hq
  | release hl => exact hst.setLeaf (hnext _ _ _ (hst _ _ hl))
  | tell hl => exact hst.setLeaf (hnext _ _ _ (hst _ _ hl))
  | cancel => exact hst
  | outside => exact hst

theorem Leaves.run {p : LeafProgram → Prop} {h : List Happening} (hst : st.Leaves p)
    (hrun : ∀ head leaf depth c, p (Leaf.run engine config a head leaf depth c))
    (hnext : ∀ r k reply, p (.ask r k) → p (k reply))
    (hr : Passage.Run (.ofRun engine config id rule) a st h st') : st'.Leaves p := by
  induction hr with
  | refl => exact hst
  | step hs _ ih => exact ih (hst.step hrun hnext hs)

/-- Every simple step that is being done asks only for what simple steps need. -/
def LeavesAsk (a : Assignment) (st : Passage) : Prop :=
  st.Leaves fun p => p.Asks (Request.OfLeaf a)

theorem LeavesAsk.step (hst : st.LeavesAsk a)
    (h : Passage.Step (.ofRun engine config id rule) a st x st') : st'.LeavesAsk a :=
  Leaves.step hst (Leaf.asks_run engine config a) (fun _ _ reply hp => hp.2 reply) h

end Passage

/-- What the single happenings keep, one of them keeps. -/
theorem Surroundings.Keeps.step {engine : Expr.Engine} {config : Config} {id : Uuid}
    {rule : Execution → Execution → Prop} {P : World → Prop} {a : Assignment} {st st' : Passage}
    {x : Happening} (hP : (ofRun engine config id rule).Keeps P) (ha : a.executionId = id)
    (hl : st.LeavesAsk a) (h : Passage.Step (.ofRun engine config id rule) a st x st')
    (hw : P st.world) : P st'.world := by
  cases h with
  | advance => exact hP.observe ha hw _
  | call => exact hw
  | serve hl' hs => exact hP.serve ha (hl _ _ hl').1 hs hw
  | answer => exact hw
  | release => exact hw
  | tell => exact hw
  | cancel _ hc => exact hP.cancel hc hw
  | outside _ hm => exact hP.outside hm hw

/-- **What the single happenings keep, histories of steps keep.** -/
theorem Surroundings.Keeps.run {engine : Expr.Engine} {config : Config} {id : Uuid}
    {rule : Execution → Execution → Prop} {P : World → Prop} {a : Assignment} {st st' : Passage}
    {h : List Happening} (hP : (ofRun engine config id rule).Keeps P) (ha : a.executionId = id)
    (hl : st.LeavesAsk a) (hr : Passage.Run (.ofRun engine config id rule) a st h st')
    (hw : P st.world) : P st'.world ∧ st'.LeavesAsk a := by
  induction hr with
  | refl => exact ⟨hw, hl⟩
  | step hs _ ih => exact ih (hl.step hs) (hP.step ha hl hs hw)

/-! ### Runs of a single step -/

/-- A workflow with a single step, which is handed out. -/
def Workflow.single (policy : Policy) (isAbstract : Bool) : Workflow :=
  { id := "w", name := "w", description := none, version := none, parent := none, isAbstract
    reusable := none, parameters := [], vars := []
    steps := [.simple ⟨"a", none, policy⟩ ⟨.command, "run", [], none, none⟩]
    metadata := [], createdAt := none, updatedAt := none }

/-- A world that holds a workflow and the record of a run of it. -/
def World.holding (v : Workflow) : World :=
  .ofStore { workflows := [(v.id, v)], executions := [.start ⟨1⟩ v.id "i" ⟨0, 0⟩] }

/-- An engine by which every expression has the same value. -/
def Expr.Engine.null : Expr.Engine := fun _ _ => .ok .null

namespace System

/-- The thread of the program moves a number of times. -/
def moves (n : Nat) : List Choice := List.replicate n (.move [])

/-- A simple step that is handed out has a response. -/
def Choice.respond (path : Path) (success : Bool) : Choice :=
  .tell path fun
    | .execute .. => some (some ⟨success, none, none⟩)
    | _ => none

end System

end WorkflowEngine
