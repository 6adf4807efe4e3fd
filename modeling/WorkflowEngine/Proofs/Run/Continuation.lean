import WorkflowEngine.Proofs.Run.Approval
import WorkflowEngine.Proofs.Run.Arrival
import WorkflowEngine.Proofs.Task.Order
import WorkflowEngine.Proofs.Task.Outcome

/-!
# What follows a failure that does not count

A step may say that its failure does not count. At the top level the run then goes on with the next
step, whatever the step was. In a branch or body it is the step itself that goes on: a simple step
ends without failure then, and so does a conditional of whose branch a step has failed. All others
fail as if they had not said so, and end the pass over their list.

That a thread goes on is told by what it comes to by moves of its own, with whatever happens
meanwhile. At the top level these are the moves of the program between two steps, during which calls
of the store may fail.

## Main definitions

* `Frame.GoesOnAfter`: a list goes on after a step that has come to an outcome
* `System.Starts`: a thread is about to begin a step
* `World.Uncancelled`: a run is not cancelled
* `Program.Continues`: a program goes on in a certain way after each step that it runs
* `System.AfterFailure`: what follows a failure of a step that says that failures do not count

## Main results

* `System.Run.comesTo_next`: a thread comes to the next step of its list
* `System.RunWhile.not_starts`: no step of a list begins after a failure that ends the list
* `System.Run.comesTo_next_top`: a run comes to the next step at the top level
* `run_goes_on_after_failures`: what `continueOnError` means for each type of step at each depth
-/

namespace WorkflowEngine

/-! ### The next step of a list -/

/-- **A list goes on after a step** that has come to an outcome. -/
inductive Frame.GoesOnAfter : Frame → Outcome → Prop where
  | ok {f v} : GoesOnAfter f (.ok v)
  | error {f e} (hf : f.GoesOn) (he : StepError.isCancelled e = false) : GoesOnAfter f (.error e)

namespace Task

variable {env : Env} {c : Context} {o : Outcome} {f : Frame} {fs : List Frame} {x : Step}
  {rest : List Step}

/-- A list that goes on after a step comes to what is left of it. -/
theorem exists_advance_of_goesOnAfter (hf : f.GoesOnAfter o) (hrest : f.rest? = some rest) :
    ∃ f', f'.rest? = some rest ∧ ∀ m, (Task.mk c (.settled o) (f :: fs)).advance env m =
      some (.mk c .proceed (f' :: fs), .silent) := by
  cases hf with
  | ok =>
    refine ⟨f, hrest, fun m => ?_⟩
    cases f with
    | finish => cases hrest
    | branch | loop => rfl
  | error hf he =>
    cases f with
    | finish | branch => cases hf
    | loop f =>
      refine ⟨.loop { f with failed := true }, hrest, fun m => ?_⟩
      have hrule : f.rule.onError = .proceed := hf
      simp only [Task.advance, returnToLoop, he, hrule, Bool.false_eq_true, if_false]

/-- In a run that is not cancelled the next step of a list begins. -/
theorem exists_advance_of_rest? {m : Moment} (hm : m.cancelled = false)
    (hrest : f.rest? = some (x :: rest)) :
    ∃ d f', (Task.mk c .proceed (f :: fs)).advance env m =
      some (.mk c (.enter x d) (f' :: fs), .silent) := by
  cases f with
  | finish => cases hrest
  | branch f =>
    have hrest : f.rest = x :: rest := Option.some.inj hrest
    refine ⟨f.depth, .branch { f with rest }, ?_⟩
    simp only [Task.advance, proceedBranch, hrest, hm, Bool.false_eq_true, if_false]
  | loop f =>
    have hrest : f.rest = x :: rest := Option.some.inj hrest
    refine ⟨f.depth, .loop { f with rest }, ?_⟩
    simp only [Task.advance, proceedLoop, hrest, hm, Bool.false_eq_true, if_false]

end Task

namespace System

variable {α : Type} {S : Surroundings} {s : System α} {path : Path} {c : Context} {o : Outcome}
  {y x : WorkflowEngine.Step} {rest : List WorkflowEngine.Step} {d : Nat} {f : Frame}
  {fs : List Frame}

/-- A thread is about to begin a step. -/
def Starts (path : Path) (x : WorkflowEngine.Step) (s : System α) : Prop :=
  ∃ c d fs, s.task? path = some (.mk c (.enter x d) fs)

/-- **A thread comes to the next step of its list**, in a run that is not cancelled. -/
theorem Run.comesTo_next {p : Program α} {w : World} {h : List Happening}
    (hr : Run S (.ofProgram w p) h s)
    (ht : s.task? path = some (.mk c (.settled o) (.finish y d :: f :: fs)))
    (hf : f.GoesOnAfter o) (hrest : f.rest? = some (x :: rest)) :
    s.ComesTo S (fun s => s.isCancelled = false) path (Starts path x) := by
  -- the outcome is told, the frame of the list goes on, and its next step begins
  refine .of_advance hr ht rfl rfl fun _ _ _ => ⟨_, _, rfl, fun h₁ s₁ hr₁ ht₁ _ => ?_⟩
  obtain ⟨f', hrest', hreturn⟩ := Task.exists_advance_of_goesOnAfter hf hrest
  refine .of_advance hr₁ ht₁ rfl rfl fun _ _ _ => ⟨_, _, hreturn _, fun h₂ s₂ hr₂ ht₂ _ => ?_⟩
  refine .of_advance hr₂ ht₂ rfl rfl fun s₃ ms hlive => ?_
  obtain ⟨d', f'', hproceed⟩ :=
    Task.exists_advance_of_rest? (m := ⟨s₃.isCancelled, ms⟩) hlive hrest'
  exact ⟨_, _, hproceed, fun h₄ s₄ _ ht₄ _ => .now ⟨_, _, _, ht₄⟩⟩

/-- **Nothing of a list begins after a failure** that it does not go on after. -/
theorem RunWhile.not_starts {s' : System α} {h : List Happening} {e : StepError}
    (hr : RunWhile S (fun s => s.IsWithin path f fs) s h s')
    (ht : s.task? path = some (.mk c (.settled (.error e)) (.finish y d :: f :: fs)))
    (hf : ¬ f.GoesOn) : ¬ s'.Starts path x := by
  rintro ⟨c', d', fs', hx⟩
  obtain ⟨c₁, ⟨y₁, d₁, h₁⟩ | h₁⟩ := hr.hasFailed ⟨c, .inl ⟨y, d, ht⟩⟩ hf
  · cases hx.symm.trans h₁
  · cases hx.symm.trans h₁

end System

/-! ### The next step at the top level -/

/-- **A run is not cancelled**: it was not told so, and its record does not say so. -/
structure World.Uncancelled (id : Uuid) (w : World) : Prop where
  told : w.isCancelled id = false
  record : ∃ e, w.record? id = some e ∧ e.status ≠ .cancelled

namespace World.Uncancelled

variable {id : Uuid} {w w' : World} {a : Assignment} {totalSteps : Nat}

theorem like (h : Uncancelled id w) (hl : Like id w w') {e : Execution}
    (hr : w'.record? id = some e) (he : e.status ≠ .cancelled) : Uncancelled id w' :=
  ⟨hl.isCancelled.trans h.told, e, hr, he⟩

theorem announced (h : Uncancelled id w) (s : Step) (d : Nat) (o : Outcome) (ms : Nat) :
    Uncancelled id (w.announced id s d o ms) := by
  have he : Uncancelled id (w.emit id (.ofOutcome s d o ms)) := by
    refine ⟨?_, h.record⟩
    have ht := h.told
    rw [isCancelled_eq] at ht ⊢
    rw [active_emit, List.any_map]
    exact ht
  unfold World.announced
  split
  · exact ⟨he.told, he.record⟩
  · exact he

/-- Looking whether it is cancelled, a run finds that it is not. -/
theorem ends_cancelRequested (h : Uncancelled id w) :
    w.Ends (Orchestration.cancelRequested id) fun r w' =>
      Uncancelled id w' ∧ (r = .ok false ∨ w.Fails r) := by
  obtain ⟨e, hr, he⟩ := h.record
  refine (World.ends_cancelRequested hr).mono ?_
  rintro r w' ⟨hw, hr'⟩
  refine ⟨h.like (hw.like id) ((hw.record id).trans hr) he, hr'.imp_left fun hok => ?_⟩
  rw [hok, h.told, Bool.false_or, beq_eq_false_iff_ne.mpr he]

/-- Coming to a step cancels no run. -/
theorem ends_atStep (h : Uncancelled id w) {e : Execution} (hr : w.record? id = some e)
    (stepId : String) :
    w.Ends (Orchestration.update e fun e now => e.atStep stepId now) fun r w' =>
      Uncancelled id w' ∧ (r = .ok (e.atStep stepId w.now) ∨ w.Fails r) := by
  obtain ⟨e', hr', he⟩ := h.record
  cases hr'.symm.trans hr
  refine (World.ends_update (fun e now => e.atStep stepId now) hr (id_of_record? hr :)).mono ?_
  rintro r w' ⟨hl, ⟨hok, hr'⟩ | ⟨hf, hr'⟩⟩
  · exact ⟨(h.like hl hr' he :), .inl hok⟩
  · exact ⟨h.like hl (hr'.trans hr) he, .inr hf⟩

/-- Keeping a result cancels no run. -/
theorem ends_persist (h : Uncancelled id w) (x : StepResult) :
    w.Ends (Orchestration.persist id x) fun r w' =>
      Uncancelled id w' ∧ (r = .ok () ∨ w.Fails r) := by
  obtain ⟨e, hr, he⟩ := h.record
  exact World.ends_persist hr x (fun now w₁ hl hr₁ => ⟨h.like hl hr₁ he, .inl rfl⟩)
    fun r w₁ hs => ⟨h.like hs.like (hs.record.trans hr) he, .inr hs.fails⟩

end World.Uncancelled

/-! ### What a run does after a step -/

namespace Program

variable {α β : Type} {Q : Assignment → Step → (Outcome × Context → Program α) → Prop}

/-- **A program goes on in a certain way after each step** that it runs. -/
inductive Continues (Q : Assignment → Step → (Outcome × Context → Program α) → Prop) :
    Program α → Prop where
  | done {x} : Continues Q (.done x)
  | runStep {a s c k} (h : Q a s k) (hk : ∀ x, Continues Q (k x)) :
      Continues Q (.ask (.runStep a s c) k)
  | other {r k} (hr : ∀ a s c, r ≠ .runStep a s c) (hk : ∀ reply, Continues Q (k reply)) :
      Continues Q (.ask r k)

/-- A plain program is done before the rest, which is all that runs steps. -/
theorem Continues.plain_bind {p : Program β} {f : β → Program α} (hp : p.Asks Request.IsPlain)
    (hf : ∀ x, (f x).Continues Q) : (p.bind f).Continues Q := by
  induction p with
  | done x => exact hf x
  | ask r k ih =>
    refine .other ?_ fun reply => ih reply (hp.2 reply)
    rintro a s c rfl
    cases hp.1

/-- **The step that is run is gone on after as the program does.** -/
theorem Reaches.of_continues {S : Surroundings} {p : Program α} {w : World} {h : List Happening}
    {st : Passage} {a : Assignment} {k : Outcome × Context → Program α} (hp : p.Continues Q)
    (hr : Reaches S p w h (st.toSystem a k)) :
    ∃ s c w₀ h₀, Q a s k ∧ Passage.Run S a ⟨w₀, .start s c 0, []⟩ h₀ st := by
  generalize hs : st.toSystem a k = s at hr
  -- Induction on what the program has come to; only a step that is run can be the one.
  induction hr with
  | here => cases hs
  | serve hserve _ ih =>
    cases hp with
    | runStep => cases hserve
    | other _ hk => exact ih (hk _) hs
  | @during _ _ _ _ _ _ st' hst =>
    obtain ⟨w, t, ls⟩ := st
    obtain ⟨w', t', ls'⟩ := st'
    cases hs
    cases hp with
    | runStep h => exact ⟨_, _, _, _, h, hst⟩
    | other hr => exact absurd rfl (hr _ _ _)
  | after _ _ _ ih =>
    cases hp with
    | runStep _ hk => exact ih (hk _) hs
    | other hr => exact absurd rfl (hr _ _ _)

end Program

namespace Orchestration

variable {α β : Type}

/-- What a program does after each step that it runs. -/
def Continues (Q : Assignment → Step → (Outcome × Context → Program (Except RunError α)) → Prop)
    (p : Orchestration α) : Prop :=
  Program.Continues Q (ExceptT.run p)

variable {Q : Assignment → Step → (Outcome × Context → Program (Except RunError α)) → Prop}

theorem Continues.plain_bind {p : Orchestration β} {f : β → Orchestration α} (hp : p.IsPlain)
    (hf : ∀ x, Continues Q (f x)) : Continues Q (p >>= f) := by
  refine Program.Continues.plain_bind (p := ExceptT.run p) (f := ExceptT.bindCont f) hp fun r => ?_
  cases r with
  | ok x => exact hf x
  | error e => exact .done

theorem Continues.of_plain {p : Orchestration α} (hp : p.IsPlain) : Continues Q p := by
  have h : Program.Continues Q ((ExceptT.run p).bind .done) := .plain_bind hp fun _ => .done
  rwa [Program.bind_done] at h

/-- **After a step come those that follow it** among the steps of a list. -/
def FollowsIn (steps : List Step) (a : Assignment) (s : Step)
    (k : Outcome × Context → Program (Except RunError Summary)) : Prop :=
  ∃ totalSteps rest, s :: rest <:+ steps ∧
    k = fun x => ExceptT.run (afterStep a totalSteps s rest x)

theorem continues_runSteps {all : List Step} (a : Assignment) (totalSteps : Nat)
    {steps : List Step} (hall : steps <:+ all) (c : Context) :
    Continues (FollowsIn all) (runSteps a totalSteps steps c) := by
  induction steps generalizing c with
  | nil =>
    rw [runSteps]
    refine .plain_bind (isPlain_cancelRequested _) fun cancelled => ?_
    cases cancelled
    · exact .of_plain (isPlain_finishCompleted _ _)
    · exact .of_plain (isPlain_finishCancelled _ _ _)
  | cons s steps ih =>
    -- whatever the program does after the step, it runs those that follow it or no more
    have hrest : ∀ c, Continues (FollowsIn all) (runSteps a totalSteps steps c) :=
      ih ((List.suffix_cons s steps).trans hall)
    rw [runSteps]
    refine .plain_bind (isPlain_load _) fun e => ?_
    refine .plain_bind (.lift (.request .isCancelled)) fun cancelled => ?_
    split
    · exact .of_plain (isPlain_finishCancelled _ _ _)
    refine .plain_bind (isPlain_update _ _) fun _ => ?_
    refine Program.Continues.runStep (k := fun x => ExceptT.run (afterStep a totalSteps s steps x))
      ⟨totalSteps, steps, hall, rfl⟩ fun x => ?_
    show Continues (FollowsIn all) (afterStep a totalSteps s steps x)
    unfold afterStep
    split
    · exact .of_plain (isPlain_finishCancelled _ _ _)
    refine .plain_bind (isPlain_announceStep _ _ _ _ _) fun _ => ?_
    refine .plain_bind (isPlain_persist _ _) fun _ => ?_
    split
    · exact hrest x.2
    · refine .plain_bind (isPlain_cancelRequested _) fun cancelled => ?_
      cases cancelled
      · simp only [Bool.false_eq_true, if_false]
        split
        · exact hrest x.2
        · exact .of_plain (isPlain_finishFailed _ _ _ _)
      · exact .of_plain (isPlain_finishCancelled _ _ _)

theorem continues_drive (engine : Expr.Engine) (e : Execution) (v : Workflow) :
    Continues (FollowsIn v.steps) (drive engine e v) := by
  rw [drive]
  refine .plain_bind (.stored (.request .getWorkItem)) fun item => ?_
  split
  · exact .of_plain (.bind (isPlain_markFailed _ _) fun _ => .throw _)
  · exact .plain_bind (.lift (.request .emit)) fun _ =>
      continues_runSteps _ _ (List.suffix_refl _) _

end Orchestration

namespace World.Uncancelled

variable {S : Surroundings} {a : Assignment} {w : World} {totalSteps : Nat}
  {live Q : System (Except RunError Summary) → Prop}
  {g : Except RunError Summary → Program (Except RunError Summary)}

/-- **The steps at the top level go on with the first one** of a run that is not cancelled, unless a
call of the store fails. -/
theorem comesTo_runSteps (h : w.Uncancelled a.executionId) (x : Step) (rest : List Step)
    (c : Context) (hQ : ∀ s, s.Starts [] x → Q s)
    (herr : ∀ e w', System.ComesTo S live [] Q (.ofProgram w' (g (.error (.store e))))) :
    System.ComesTo S live [] Q (.ofProgram w
      ((ExceptT.run (Orchestration.runSteps a totalSteps (x :: rest) c)).bind g)) := by
  obtain ⟨e, hrec, he⟩ := h.record
  rw [Orchestration.runSteps]
  -- the record that is loaded is not cancelled, and neither is the run told so
  refine .of_stored (World.ends_load hrec) (fun w₁ hw₁ => ?_) herr
  have hrec₁ := (hw₁.record _).trans hrec
  have h₁ := h.like (hw₁.like _) hrec₁ he
  refine .of_stored (x := false) (P := (w₁ = ·)) ?_ ?_ herr
  · have hlooks := World.ends_lift (w := w₁) (p := Program.isCancelled a.executionId) rfl
    exact hlooks.mono fun r w' hr => ⟨hr.2.symm, .inl (hr.1.trans (congrArg Except.ok h₁.told))⟩
  rintro _ rfl
  rw [if_neg (by simpa using he)]
  -- so the step is noted, and begins
  exact .of_stored (h₁.ends_atStep hrec₁ x.id)
    (fun w₂ _ => .of_program (e := .silent) rfl (.now (hQ _ ⟨_, _, _, rfl⟩))) herr

/-- **After a step whose failure does not count** a run that is not cancelled goes on with the next
one, unless a call of the store fails. -/
theorem comesTo_afterStep (h : w.Uncancelled a.executionId) {y : Step} {o : Outcome}
    (hn : o.isCancelled = false) (hy : y.policy.continueOnError = true) (x : Step)
    (rest : List Step) (c : Context) (hQ : ∀ s, s.Starts [] x → Q s)
    (herr : ∀ e w', System.ComesTo S live [] Q (.ofProgram w' (g (.error (.store e))))) :
    System.ComesTo S live [] Q (.ofProgram w
      ((ExceptT.run (Orchestration.afterStep a totalSteps y (x :: rest) (o, c))).bind g)) := by
  unfold Orchestration.afterStep
  rw [if_neg (by simp [hn])]
  -- the step is announced and its result kept; then a failure asks whether the run is cancelled
  have hannounce := World.ends_lift (World.perform_announceStep w a y 0 o c.lastDurationMs)
  refine .of_stored (hannounce.mono fun r w' hr => ⟨hr.2, .inl hr.1⟩) ?_ herr
  rintro _ rfl
  refine .of_stored ((h.announced y 0 o c.lastDurationMs).ends_persist _) (fun w₁ h₁ => ?_) herr
  cases o.failure? with
  | none => exact h₁.comesTo_runSteps x rest c hQ herr
  | some error =>
    refine .of_stored h₁.ends_cancelRequested (fun w₂ h₂ => ?_) herr
    rw [if_neg (by decide), if_pos hy]
    exact h₂.comesTo_runSteps x rest c hQ herr

end World.Uncancelled

/-! ### Running -/

/-- What motions keep holds throughout the tree of tasks while a step is run. -/
theorem Passage.Run.throughout {S : Surroundings} {a : Assignment} {st st' : Passage}
    {h : List Happening} {root : WorkflowEngine.Step} {d : Nat} {P : Task → Prop}
    (hP : Task.IsKept S.setting.env P) (ht : Task.Throughout P st.task)
    (hp : Task.Placed root d st.task) (hr : Passage.Run S a st h st') :
    Task.Throughout P st'.task := by
  induction hr with
  | refl => exact ht
  | step hs _ ih =>
    refine ih ?_ (hs.placed hp)
    cases hs with
    | advance _ hm => exact hP.moves hp ht hm
    | answer _ ha => exact hP.answers hp ht ha
    | _ => exact ht

/-- **What motions keep holds of the task of each thread of a run.** -/
theorem System.Run.of_isKept {α : Type} {S : Surroundings} {p : Program α} {w : World}
    {h : List Happening} {s : System α} {path : Path} {u : Task} {P : Task → Prop}
    (hP : Task.IsKept S.setting.env P) (hr : Run S (.ofProgram w p) h s)
    (hu : s.task? path = some u) : P u := by
  rcases hr.reaches.eq_ofProgram_or_toSystem with ⟨w', p', rfl⟩ | ⟨st, a, k, rfl⟩
  · cases hu
  obtain ⟨step, c₀, w₀, h₀, hpassage⟩ := hr.reaches.exists_passage
  exact hpassage.throughout hP (hP.throughout_start step c₀ 0) (.start step c₀ 0) path u hu

variable {engine : Expr.Engine} {config : Config} {id : Uuid} {rule : Execution → Execution → Prop}
  {w : World} {e : Execution} {h : List Happening} {s : System (Except RunError Summary)}

/-- Whatever follows an element of a list of distinct ones is next wherever that is found. -/
theorem exists_eq_cons_of_nodup {α : Type} {l rest : List α} {y x : α} (hl : l.Nodup)
    (hrest : y :: rest <:+ l) (hx : [y, x] <:+: l) : ∃ rest', rest = x :: rest' := by
  obtain ⟨l₁, rfl⟩ := hrest
  obtain ⟨l₂, l₃, he⟩ := hx
  obtain ⟨-, hcons, hdisjoint⟩ := List.nodup_append'.mp hl
  have heq : l₁ ++ y :: rest = l₂ ++ y :: x :: l₃ := by simpa using he.symm
  have hnot : y ∉ l₁ := fun hy => hdisjoint hy (List.mem_cons_self ..)
  rw [List.append_cons_inj_of_notMem hnot (List.nodup_cons.mp hcons).1] at heq
  exact ⟨l₃, heq.2.2⟩

/-- **A run that is not cancelled goes on with the next step at the top level** after a failure that
does not count, unless a call of the store fails. -/
theorem System.Run.comesTo_next_top {c : Context} {o : Outcome} {y x : WorkflowEngine.Step}
    {d : Nat} (hrec : w.record? id = some e)
    (hr : System.Run (.ofRun engine config id rule)
      (.ofProgram w (ExceptT.run (Orchestration.run engine id))) h s)
    (ht : s.task? [] = some (.mk c (.settled o) [.finish y d])) (hn : o.isCancelled = false)
    (hy : y.policy.continueOnError = true) (hx : [y, x] <:+: w.store.stepsOf e.workflowId) :
    s.ComesTo (.ofRun engine config id rule) (fun s => s.world.Uncancelled id) [] fun s =>
      s.Starts [] x ∨ ∃ err, s.result? = some (.error (.store err)) := by
  rcases hr.reaches.eq_ofProgram_or_toSystem with ⟨w', p, rfl⟩ | ⟨st, a, k, rfl⟩
  · cases ht
  -- the step is the one that the run goes on after with the steps that follow it
  obtain ⟨e', v, w', h', k', hrec', hv, -, hdrive, rfl⟩ := hr.reaches.drive_of_run
  cases hrec.symm.trans hrec'
  obtain ⟨ha, -⟩ := hr.reaches.stepping_of_run
  obtain ⟨y', c', w₀, h₀, ⟨totalSteps, rest, hrest, rfl⟩, hpassage⟩ :=
    hdrive.of_continues (Orchestration.continues_drive engine e v)
  have hplaced : Task.Placed y' 0 st.task := hpassage.placed (.start y' c' 0)
  rw [show st.task = .mk c (.settled o) [.finish y d] from Option.some.inj ht] at hplaced
  obtain rfl := hplaced.eq_of_ended
  have hsteps : w.store.stepsOf e.workflowId = v.steps := by rw [Store.stepsOf, hv]
  obtain ⟨rest', rfl⟩ := exists_eq_cons_of_nodup (w.store.nodup_stepsOf e.workflowId).of_map
    (hsteps ▸ hrest) hx
  -- the outcome is told, the step is over, and the program goes on
  refine .of_advance hr ht rfl rfl fun _ _ _ => ⟨_, _, rfl, fun h₁ s₁ hr₁ ht₁ hk₁ => ?_⟩
  obtain ⟨st₁, rfl⟩ := System.eq_toSystem_of_continuation? hk₁
  obtain ⟨y₁, c₁, w₁, h₁, hpassage₁⟩ := hr₁.reaches.exists_passage
  have ht₁ : st₁.task = _ := Option.some.inj ht₁
  have ho : st₁.task.outcome? = some o := by
    rw [ht₁]
    rfl
  refine .of_over ((Passage.Sound.start w₁ y₁ c₁ 0).run hpassage₁) ho fun hlive => ?_
  subst ha
  have hlive : st₁.world.Uncancelled a.executionId := hlive
  refine hlive.comesTo_afterStep hn hy x rest' _ (fun s hs => .inl hs) fun err w' => ?_
  exact .of_serve (r := .endRun a.executionId) rfl (.now (.inr ⟨err, rfl⟩))

/-! ### Steps that say that failures do not count -/

/-- **What follows a failure** of a step that says that failures do not count, by the frames behind
it.

* What the step ends with depends on its type.
* In a list it stands before what is left of that. If the list goes on after what the step ends
  with, its next step begins, as long as the run is not cancelled. If it ends with an error and the
  list does not go on after failures, no step begins any more in the same pass over it.
* At the top level the next step begins, as long as the run is not cancelled, or a call of the store
  fails and ends the run. -/
structure System.AfterFailure (S : Surroundings) (steps : List WorkflowEngine.Step)
    (s : System (Except RunError Summary)) (path : Path) (y : WorkflowEngine.Step) (o : Outcome)
    (fs : List Frame) : Prop where
  fails : y.FailsMarked S.setting.env o
  inList : ∀ f fs', fs = f :: fs' → ∃ rest p d fs'',
    f.rest? = some rest ∧ fs' = .finish p d :: fs'' ∧ p.EndsWith (y :: rest)
  goesOn : ∀ f fs' x rest, fs = f :: fs' → f.rest? = some (x :: rest) → f.GoesOnAfter o →
    s.ComesTo S (fun s => s.isCancelled = false) path (Starts path x)
  heldBack : ∀ f fs' e h s' x, fs = f :: fs' → o = .error e → ¬ f.GoesOn →
    RunWhile S (fun s => s.IsWithin path f fs') s h s' → ¬ s'.Starts path x
  atTop : ∀ x, path = [] → fs = [] → [y, x] <:+: steps →
    s.ComesTo S (fun s => s.world.Uncancelled S.id) [] fun s =>
      s.Starts [] x ∨ ∃ err, s.result? = some (.error (.store err))

/-- **What `continueOnError` means.** A step that has it fails without being cancelled. At the top
level it is followed by the next one, whatever its type. In a branch, or in a body whose loop does
not go on after failures, a simple step is followed by the next one, and so is a conditional if a
step of its branch has failed; but a conditional for which it cannot be decided which branch it
takes, a loop and a parallel step end the pass over their list. Threads move and answers come in any
order, calls of the store may fail, and others may change the record. -/
theorem run_goes_on_after_failures {path : Path} {c : Context} {o : Outcome}
    {y : WorkflowEngine.Step} {d : Nat} {fs : List Frame} (hrec : w.record? id = some e)
    (hr : System.Run (.ofRun engine config id rule)
      (.ofProgram w (ExceptT.run (Orchestration.run engine id))) h s)
    (ht : s.task? path = some (.mk c (.settled o) (.finish y d :: fs)))
    (hy : y.policy.continueOnError = true) (hf : o.hasFailed = true)
    (hn : o.isCancelled = false) :
    s.AfterFailure (.ofRun engine config id rule) (w.store.stepsOf e.workflowId) path y o fs where
  fails := by
    have hends : y.MayEnd (Surroundings.ofRun engine config id rule).setting.env o :=
      hr.of_isKept (Task.isKept_endsAsMay _) ht _ _ _ _ _ rfl
    exact hends.failsMarked hy hf hn
  inList := by
    rintro f fs' rfl
    cases (hr.of_isKept (Task.isKept_keepsOrder _) ht).of_step rfl with
    | list hrest hlist => exact ⟨_, _, _, _, hrest, rfl, hlist⟩
  goesOn := by
    rintro f fs' x rest rfl hrest hgoes
    exact hr.comesTo_next ht hgoes hrest
  heldBack := by
    rintro f fs' err h' s' x rfl rfl hstops hpass
    exact hpass.not_starts ht hstops
  atTop := by
    rintro x rfl rfl hx
    exact hr.comesTo_next_top hrec ht hn hy hx

/-- The policy of a step whose failure does not count. -/
def Policy.marked : Policy := ⟨none, none, true⟩

/-- A simple step. -/
def Step.plain (id : String) (policy : Policy) : Step :=
  .simple ⟨id, none, policy⟩ ⟨.command, "run", [], none, none⟩

/-- A conditional with a single step in its branch. -/
def Step.choice (id : String) (policy : Policy) : Step :=
  .conditional ⟨id, none, policy⟩ "x" (some [.plain "z" default]) none none none

/-- A loop that counts and fails with its body, with a bound. -/
def Step.counted (id : String) (policy : Policy) (bound : Bound) (body : List Step) : Step :=
  .loop ⟨id, none, policy⟩ ⟨some .count, none, some bound, none, .fail⟩ body

/-- An engine by which no expression has a value. -/
def Expr.Engine.broken : Expr.Engine := fun _ _ => .error .invalidIndex

/-- A run of a workflow of certain steps in which no expression has a value, and some calls of the
store fail. -/
def System.ofSteps (steps : List WorkflowEngine.Step) (faults : List (StoreCall × Nat)) :
    System (Except RunError Summary) :=
  .ofProgram { World.holding { Workflow.single default false with steps } with faults }
    (ExceptT.run (Orchestration.run .broken ⟨1⟩))

/-- A run of a loop whose body is a step before another one. -/
def System.beforeNext (y : WorkflowEngine.Step) : System (Except RunError Summary) :=
  .ofSteps [.counted "l" default (.count 1) [y, .plain "b" default]] []

/-- A simple step is followed by the next one after a failure that does not count, in a body and at
the top level; a loop holds back the next one of the body around. -/
theorem run_goes_on_after_failures_ofSteps :
    (∃ h s, System.Run (.ofRun .broken {} ⟨1⟩ Eq) (.beforeNext (.plain "y" .marked)) h s ∧
      s.ComesTo (.ofRun .broken {} ⟨1⟩ Eq) (fun s => s.isCancelled = false) []
        (System.Starts [] (.plain "b" default))) ∧
    (∃ h s f fs, System.Run (.ofRun .broken {} ⟨1⟩ Eq)
        (.beforeNext (.counted "y" .marked (.count 1) [.plain "c" default])) h s ∧
      ∀ h' s', System.RunWhile (.ofRun .broken {} ⟨1⟩ Eq) (fun s => s.IsWithin [] f fs) s h' s' →
        ¬ s'.Starts [] (.plain "b" default)) ∧
    ∃ h s, System.Run (.ofRun .broken {} ⟨1⟩ Eq)
        (.ofSteps [.plain "y" .marked, .plain "b" default] []) h s ∧
      s.ComesTo (.ofRun .broken {} ⟨1⟩ Eq) (fun s => s.world.Uncancelled ⟨1⟩) [] fun s =>
        s.Starts [] (.plain "b" default) ∨ ∃ err, s.result? = some (.error (.store err)) := by
  refine ⟨?simple, ?loop, ?top⟩
  case simple =>
    obtain ⟨h, s, hplay, c, o, y, d, f, fs, ht, hy, hf, hn, hrest, hok⟩ : ∃ h s,
        (System.beforeNext (.plain "y" .marked)).play (.ofRun .broken {} ⟨1⟩ Eq)
          (System.moves 15 ++ .respond [] false :: System.moves 1) = some (h, s) ∧
        ∃ c o y d f fs, s.task? [] = some (.mk c (.settled o) (.finish y d :: f :: fs)) ∧
          y.policy.continueOnError = true ∧ o.hasFailed = true ∧ o.isCancelled = false ∧
          f.rest? = some [.plain "b" default] ∧ ∃ v, o = .ok v :=
      ⟨_, _, rfl, _, _, _, _, _, _, rfl, rfl, rfl, rfl, rfl, _, rfl⟩
    obtain ⟨v, rfl⟩ := hok
    have hrun := System.Run.of_play hplay
    have hafter := run_goes_on_after_failures rfl hrun ht hy hf hn
    exact ⟨h, s, hrun, hafter.goesOn f fs _ [] rfl hrest .ok⟩
  case loop =>
    obtain ⟨h, s, hplay, c, e, y, d, f, fs, ht, hy, hn, hf⟩ : ∃ h s,
        (System.beforeNext (.counted "y" .marked (.count 1) [.plain "c" default])).play
          (.ofRun .broken {} ⟨1⟩ Eq)
          (System.moves 18 ++ .respond [] false :: System.moves 3) = some (h, s) ∧
        ∃ c e y d f fs,
          s.task? [] = some (.mk c (.settled (.error e)) (.finish y d :: .loop f :: fs)) ∧
          y.policy.continueOnError = true ∧ e.isCancelled = false ∧ f.rule.onError = .fail :=
      ⟨_, _, rfl, _, _, _, _, _, _, rfl, rfl, rfl, rfl⟩
    have hrun := System.Run.of_play hplay
    have hafter := run_goes_on_after_failures rfl hrun ht hy rfl hn
    have hstops : ¬ (Frame.loop f).GoesOn := fun hgoes => nomatch hf.symm.trans hgoes
    exact ⟨h, s, .loop f, fs, hrun, fun h' s' hpass =>
      hafter.heldBack _ fs e h' s' _ rfl rfl hstops hpass⟩
  case top =>
    obtain ⟨h, s, hplay, c, o, y, d, ht, hy, hf, hn, hid⟩ : ∃ h s,
        (System.ofSteps [.plain "y" .marked, .plain "b" default] []).play
          (.ofRun .broken {} ⟨1⟩ Eq)
          (System.moves 12 ++ .respond [] false :: System.moves 1) = some (h, s) ∧
        ∃ c o y d, s.task? [] = some (.mk c (.settled o) [.finish y d]) ∧
          y.policy.continueOnError = true ∧ o.hasFailed = true ∧ o.isCancelled = false ∧
          y = .plain "y" .marked :=
      ⟨_, _, rfl, _, _, _, _, rfl, rfl, rfl, rfl, rfl⟩
    subst hid
    have hrun := System.Run.of_play hplay
    have hafter := run_goes_on_after_failures rfl hrun ht hy hf hn
    exact ⟨h, s, hrun, hafter.atTop _ rfl rfl ⟨[], [], rfl⟩⟩

/-- A step fails that says that failures do not count. -/
def Happening.isMarkedFailure (id : String) : Happening → Bool
  | .moved _ _ (.finished s _ o _) _ =>
    s.id == id && s.policy.continueOnError && o.hasFailed && !o.isCancelled
  | _ => false

/-- A thread moves within a step. -/
def Happening.isWithin (id : String) : Happening → Bool
  | .moved _ around _ _ => around.any (·.id == id)
  | _ => false

/-- **A failure that does not count holds back another step**: nobody cancels the run meanwhile, and
no thread is ever within that step. -/
def Happening.HoldBack (h : List Happening) (y b : String) : Prop :=
  (∀ x ∈ h, x.isOwn = true) ∧ (∃ x ∈ h, x.isMarkedFailure y = true) ∧
    ∀ x ∈ h, x.isWithin b = false

instance (h : List Happening) (y b : String) : Decidable (Happening.HoldBack h y b) :=
  inferInstanceAs (Decidable (_ ∧ _ ∧ _))

theorem System.exists_holdBack {s : System (Except RunError Summary)} {y b : String}
    (cs : List System.Choice)
    (h : ((s.play (.ofRun .broken {} ⟨1⟩ Eq) cs).any fun x =>
      x.2.result?.isSome && decide (Happening.HoldBack x.1 y b)) = true) :
    ∃ h s', System.Run (.ofRun .broken {} ⟨1⟩ Eq) s h s' ∧ s'.result?.isSome = true ∧
      Happening.HoldBack h y b := by
  obtain ⟨⟨h, s'⟩, hrun, hx⟩ := (Option.any_eq_true _ _).mp h
  obtain ⟨hs, hb⟩ := Bool.and_eq_true_iff.mp hx
  exact ⟨h, s', .of_play hrun, hs, of_decide_eq_true hb⟩

/-- **Not every failure that does not count is followed by the next step of its list.** In the body
of a loop, a conditional that cannot decide, a loop without a bound and a parallel step hold it back
to the end of the run; and so does a call of the store that fails at the top level. -/
theorem marked_failures_hold_back :
    (∀ y ∈ [Step.choice "y" .marked, .counted "y" .marked (.template "x") [.plain "c" default],
        .parallel ⟨"y", none, .marked⟩ ⟨none, false⟩ [.choice "c" default]], ∃ h s,
      System.Run (.ofRun .broken {} ⟨1⟩ Eq) (.beforeNext y) h s ∧ s.result?.isSome = true ∧
        Happening.HoldBack h "y" "b") ∧
    ∃ h s, System.Run (.ofRun .broken {} ⟨1⟩ Eq)
        (.ofSteps [.plain "y" .marked, .plain "b" default] [(.updateExecution, 1)]) h s ∧
      s.result?.isSome = true ∧ Happening.HoldBack h "y" "b" := by
  refine ⟨?_, System.exists_holdBack (System.moves 12 ++ .respond [] false :: System.moves 9)
    (by decide +kernel)⟩
  intro y hy
  simp only [List.mem_cons, List.not_mem_nil, or_false] at hy
  rcases hy with rfl | rfl | rfl
  · exact System.exists_holdBack (System.moves 30) (by decide +kernel)
  · exact System.exists_holdBack (System.moves 31) (by decide +kernel)
  · exact System.exists_holdBack
      (System.moves 14 ++ List.replicate 5 (.move [0]) ++ System.moves 17) (by decide +kernel)

end WorkflowEngine
