import WorkflowEngine.Proofs.Run.Beginning
import WorkflowEngine.Proofs.Task.Texts

/-!
# Data is never evaluated

What a run evaluates is written in its workflow: in the variables of that and in its steps. Work
items, the results of steps, the names of branches and the values of variables are data. They stand
in the context, where expressions find them, and whatever they hold is never taken for an expression
or a template. So a run depends on its engine by nothing but what that makes of the texts of its
workflow.

## Main definitions

* `Workflow.Agree`: two engines make the same of what is written in a workflow
* `Program.Alike`, `System.Alike`: two programs, and two systems, go on alike

## Main results

* `Context.build_congr`: variables depend on what is written in them
* `System.Alike.step`: what happens to one of two systems happens to the other
* `data_is_never_code`: what templates, values and runs evaluate is written
-/

namespace WorkflowEngine

/-! ### Variables -/

/-- The templates of a variable: a text is one, and the texts within other values are not. -/
def Json.ownTemplates : Json → List String
  | .str template => [template]
  | _ => []

/-- The templates of the variables of a workflow. -/
def Workflow.varTemplates (vars : Dict Json) : List String := vars.flatMap fun x => x.2.ownTemplates

/-- **Two engines make the same of what is written in a workflow.** -/
structure Workflow.Agree (engine engine' : Expr.Engine) (v : Workflow) : Prop where
  vars : engine.AgreeOn engine' (varTemplates v.vars)
  steps : ∀ s ∈ v.steps, s.All fun x => engine.AgreeOn engine' x.templates

variable {engine engine' : Expr.Engine}

namespace Context

theorem resolveVariable_congr {c : Context} {v : Json}
    (h : engine.AgreeOn engine' v.ownTemplates) :
    c.resolveVariable engine v = c.resolveVariable engine' v := by
  cases v with
  | str template =>
    rw [resolveVariable, resolveVariable,
      Template.evaluate_congr ((h c.toJson).of_mem (List.mem_singleton_self template))]
  | _ => rfl

theorem resolveVariables_congr {c : Context} {vars : List (String × Json)}
    (h : engine.AgreeOn engine' (Workflow.varTemplates vars)) :
    c.resolveVariables engine vars = c.resolveVariables engine' vars := by
  induction vars generalizing c with
  | nil => rfl
  | cons x vars ih =>
    obtain ⟨name, v⟩ := x
    have hparts (context : Json) := Template.agree_append.mp (h context)
    rw [resolveVariables, resolveVariables, resolveVariable_congr fun context => (hparts context).1]
    -- what comes after a variable may refer to its value, but has texts of its own
    exact congrArg _ (funext fun value => ih fun context => (hparts context).2)

/-- **Variables depend on what is written in them.** -/
theorem build_congr {e : Execution} {item : Option WorkItem} {vars : Dict Json}
    (h : engine.AgreeOn engine' (Workflow.varTemplates vars)) :
    build engine e item vars = build engine' e item vars :=
  resolveVariables_congr h

end Context

theorem Orchestration.begin_congr {id : Uuid} {e : Execution} {v : Workflow}
    (h : v.Agree engine engine') : begin engine id e v = begin engine' id e v := by
  simp only [begin, drive, Context.build_congr h.vars]

/-! ### Programs that go on alike -/

/-- **Two programs go on alike**: they are the same one, which runs steps of a kind, or they ask
for the same thing, which is served at once, and go on alike after that. -/
inductive Program.Alike {α : Type} (P : Step → Prop) : Program α → Program α → World → Prop where
  | same {p w} (hp : p.Asks (Request.Runs P)) : Alike P p p w
  | serve {r k k' w reply w'} (hs : w.serve r = some (reply, w'))
      (h : Alike P (k reply) (k' reply) w') : Alike P (.ask r k) (.ask r k') w

namespace Program.Alike

variable {α β : Type} {P : Step → Prop} {w w' : World}

/-- Programs that go on alike after what is served at once. -/
theorem of_perform (p : Program α) (f f' : α → Program β) {a : α}
    (hp : w.perform p = some (a, w')) (h : Alike P (f a) (f' a) w') :
    Alike P (p.bind f) (p.bind f') w := by
  induction p generalizing w with
  | done b =>
    cases hp
    exact h
  | ask r k ih =>
    rw [World.perform] at hp
    split at hp
    next reply w₁ hs => exact .serve hs (ih reply hp)
    next => cases hp

theorem of_ends {p : Orchestration α} {f f' : α → Orchestration β}
    {post : Except RunError α → World → Prop} (hp : w.Ends p post)
    (h : ∀ a w', post (.ok a) w' → Alike P (ExceptT.run (f a)) (ExceptT.run (f' a)) w') :
    Alike P (ExceptT.run (p >>= f)) (ExceptT.run (p >>= f')) w := by
  obtain ⟨r, w', hp, hpost⟩ := hp
  refine of_perform (ExceptT.run p) (ExceptT.bindCont f) (ExceptT.bindCont f') hp ?_
  cases r with
  | ok a => exact h a w' hpost
  | error e => exact .same trivial

/-- **A run goes on alike** for two engines that make the same of what is written in its
workflow. -/
theorem run {id : Uuid} (h : ∀ v ∈ w.workflowOf id, v.Agree engine engine') :
    Alike (fun s => s.All fun x => engine.AgreeOn engine' x.templates)
      (ExceptT.run (Orchestration.run engine id))
      (ExceptT.run (Orchestration.run engine' id)) w := by
  refine of_ends (w.ends_load_found id) fun e w₁ hload => ?_
  obtain ⟨huntouched, hfound⟩ := hload
  cases ht : e.status.isTerminal with
  | true =>
    simp only [if_true]
    have hthrow : w₁.Ends (throw (.alreadyFinished id e.status) : Orchestration PUnit)
      fun r _ => r = .error (.alreadyFinished id e.status) := .throw rfl
    refine of_ends hthrow ?_
    rintro _ _ ⟨⟩
  | false =>
    simp only [Bool.false_eq_true, if_false]
    obtain ⟨r, w₂, hp, -, hrunnable⟩ := w₁.ends_runnable_resolved e.workflowId
    rw [huntouched.store] at hrunnable
    refine of_ends (World.ends_lift hp) ?_
    rintro r' w₃ ⟨⟨⟩, rfl⟩
    cases r with
    | error error =>
      have hfails := Orchestration.Asks.bind (Orchestration.isQuiet_markFailed id error.message)
        fun _ => .throw (α := Summary) error
      exact .same (Program.Asks.mono hfails fun r hr => .served hr.routine.isPlain.isOutside)
    | ok v =>
      have hv := h v (World.workflowOf_eq (hfound e rfl) (hrunnable v rfl))
      -- from here on it is the same program
      show Alike _ (ExceptT.run (Orchestration.begin engine id e v))
        (ExceptT.run (Orchestration.begin engine' id e v)) w₃
      rw [← Orchestration.begin_congr hv]
      exact .same (Orchestration.asks_begin engine id e hv.steps)

end Program.Alike

/-! ### Systems that go on alike -/

namespace System

variable {α : Type} {config : Config} {id : Uuid} {rule : Execution → Execution → Prop}
  {S : Surroundings} {s s' s₁ : System α} {x : Happening}

theorem Step.serve {w w' : World} {r : Request} {k : r.Reply → Program α} {reply : r.Reply}
    (hs : w.serve r = some (reply, w')) :
    Step S (.ofProgram w (.ask r k)) .silent (.ofProgram w' (k reply)) :=
  .move (move_of_serve hs)

theorem Step.runStep {w : World} {a : Assignment} {step : WorkflowEngine.Step} {c : Context}
    {k : Outcome × Context → Program α} :
    Step S (.ofProgram w (.ask (.runStep a step c) k)) .silent
      (Passage.toSystem ⟨w, .start step c 0, []⟩ a k) := by
  have hmove : (ofProgram w (.ask (.runStep a step c) k)).move S.setting [] =
      some (Passage.toSystem ⟨w, .start step c 0, []⟩ a k, .silent) := rfl
  exact .move hmove

/-- **Two systems go on alike**: their programs do, or they run a step in which the same is
written for both engines. -/
inductive Alike (engine engine' : Expr.Engine) : System α → System α → Prop where
  | program {p p' : Program α} {w}
      (h : p.Alike (fun s => s.All fun x => engine.AgreeOn engine' x.templates) p' w) :
      Alike engine engine' (.ofProgram w p) (.ofProgram w p')
  | stepping {st a} {k : Outcome × Context → Program α} {root} (hst : Passage.Sound st)
      (hp : Task.Placed root 0 st.task)
      (hroot : root.All fun x => engine.AgreeOn engine' x.templates)
      (hk : ∀ x, (k x).Asks
        (Request.Runs fun s => s.All fun x => engine.AgreeOn engine' x.templates)) :
      Alike engine engine' (st.toSystem a k) (st.toSystem a k)

/-- **While a step is run, threads move as what is written in it says.** -/
theorem move_congr {st : Passage} {a : Assignment} {k : Outcome × Context → Program α}
    {root : WorkflowEngine.Step} (hp : Task.Placed root 0 st.task)
    (hroot : root.All fun x => engine.AgreeOn engine' x.templates) (path : Path) (ms : Nat) :
    (st.toSystem a k).move (.ofConfig engine config) path ms =
      (st.toSystem a k).move (.ofConfig engine' config) path ms := by
  have hadvance (m : Moment) :
      Task.advanceAt (Setting.ofConfig engine config).env m path st.task =
        Task.advanceAt (Setting.ofConfig engine' config).env m path st.task := by
    refine Task.advanceAt_congr ?_ hp hroot
    rfl
  rw [move_toSystem, move_toSystem]
  split
  · rfl
  unfold moveTask
  rw [hadvance]
  split
  · rfl
  split
  next head leaf depth c hc =>
    have hleaf := (hp.all_of_callAt? hroot hc).own c.toJson
    have hrun : (Setting.ofConfig engine config).leaf a head leaf depth c =
        (Setting.ofConfig engine' config).leaf a head leaf depth c := Leaf.run_congr hleaf
    rw [hrun]
  · rfl

/-- **What happens to one of two systems that go on alike happens to the other.** -/
theorem Alike.step (h : Alike engine engine' s s₁)
    (hs : Step (.ofRun engine config id rule) s x s') :
    ∃ s₁', Step (.ofRun engine' config id rule) s₁ x s₁' ∧ Alike engine engine' s' s₁' := by
  cases h with
  | @program p p' w h =>
    obtain ⟨rfl, ⟨r, k, reply, w', rfl, hserve, rfl⟩ | ⟨a, step, c, k, rfl, rfl⟩⟩ := hs.of_program
    · cases h with
      | same hp => exact ⟨_, .serve hserve, .program (.same (hp.2 reply))⟩
      | serve hserve' h =>
        cases hserve.symm.trans hserve'
        exact ⟨_, .serve hserve, .program h⟩
    · cases h with
      | same hp =>
        cases hp.1 with
        | served h => cases h
        | runStep h => exact ⟨_, .runStep, .stepping (.start w step c 0) (.start step c 0) h hp.2⟩
      | serve hserve => cases hserve
  | @stepping st a k root hst hp hroot hk =>
    have hs' : Step (.ofRun engine' config id rule) (st.toSystem a k) x s' := by
      cases hs with
      | move hm => exact .move ((move_congr hp hroot _ _).symm.trans hm)
      | tell hw ht => exact .tell hw ht
      | cancel hpending hc => exact .cancel hpending hc
      | outside hpending hm => exact .outside hpending ⟨hm.like, hm.record⟩
    refine ⟨s', hs', ?_⟩
    rcases hs.of_toSystem with ⟨st', hst', rfl⟩ | ⟨o, ho, rfl, rfl⟩
    · exact .stepping (hst.step hst') (hst'.placed hp) hroot hk
    · rw [hst.leaves_eq_nil ho]
      exact .program (.same (hk _))

theorem Alike.run {h : List Happening} (ha : Alike engine engine' s s₁)
    (hr : Run (.ofRun engine config id rule) s h s') :
    ∃ s₁', Run (.ofRun engine' config id rule) s₁ h s₁' ∧ Alike engine engine' s' s₁' := by
  induction hr generalizing s₁ with
  | refl => exact ⟨s₁, .refl _, ha⟩
  | step hs _ ih =>
    obtain ⟨s₂, hs₂, h₂⟩ := ha.step hs
    obtain ⟨s₃, hr₃, h₃⟩ := ih h₂
    exact ⟨s₃, .step hs₂ hr₃, h₃⟩

/-- Systems that go on alike are in the same world and have ended alike. -/
theorem Alike.same (h : Alike engine engine' s s₁) :
    s₁.world = s.world ∧ s₁.result? = s.result? := by
  cases h with
  | program h => cases h <;> exact ⟨rfl, rfl⟩
  | stepping => exact ⟨rfl, rfl⟩

end System

/-- **Data is never evaluated as code.**

* A template or an expression has a finite list of texts. Two engines that make the same of these in
  a context make the same of the template there: of its value, its text and its truth.
* A value of a configuration is resolved by one evaluation of each of its texts. An array keeps its
  length, an object its keys, and a value without placeholders stays as it is in an object, which
  every context of a run is. What is asked for a simple step depends on the texts of its templates.
* Whatever happens in a run happens as well with an engine that makes the same of what is written in
  the workflow. -/
theorem data_is_never_code (engine engine' : Expr.Engine) :
    (∀ t context, engine.Agree engine' (Template.texts t) context →
      Template.evaluateExpression engine t context =
          Template.evaluateExpression engine' t context ∧
        Template.evaluate engine t context = Template.evaluate engine' t context ∧
        Template.render engine t context = Template.render engine' t context ∧
        Template.evaluateCondition engine t context =
          Template.evaluateCondition engine' t context) ∧
    (∀ scope,
      (∀ t, Leaf.resolve engine scope (.str t) = Template.evaluate engine t scope) ∧
      (∀ items v, Leaf.resolve engine scope (.arr items) = .ok v ↔ ∃ vs, v = .arr vs ∧
        List.Forall₂ (fun x y => Leaf.resolve engine scope x = .ok y) items vs) ∧
      (∀ fields v, Leaf.resolve engine scope (.obj fields) = .ok v ↔ ∃ fs, v = .obj fs ∧
        List.Forall₂ (fun f g => f.1 = g.1 ∧ Leaf.resolve engine scope f.2 = .ok g.2) fields fs) ∧
      (∀ v, scope.isObj = true →
        (∀ t ∈ v.strings, Template.hasPlaceholder t.toList = false) →
        Leaf.resolve engine scope v = .ok v) ∧
      (∀ v e, Leaf.resolve engine scope v = .error e →
        ∃ t ∈ v.strings, Template.evaluate engine t scope = .error e) ∧
      ∀ head leaf, engine.Agree engine' (Template.textsOf leaf.templates) scope →
        Leaf.request engine head leaf scope = Leaf.request engine' head leaf scope) ∧
    ∀ (config : Config) (id : Uuid) (rule : Execution → Execution → Prop) (w : World) h s,
      (∀ v ∈ w.workflowOf id, v.Agree engine engine') →
      System.Run (.ofRun engine config id rule)
        (.ofProgram w (ExceptT.run (Orchestration.run engine id))) h s →
      ∃ s', System.Run (.ofRun engine' config id rule)
          (.ofProgram w (ExceptT.run (Orchestration.run engine' id))) h s' ∧
        s'.world = s.world ∧ s'.result? = s.result? := by
  refine ⟨fun t context h => ?_, fun scope => ?_, fun config id rule w h s hv hr => ?_⟩
  · exact ⟨Template.evaluateExpression_congr h, Template.evaluate_congr h, Template.render_congr h,
      Template.evaluateCondition_congr h⟩
  · exact ⟨fun t => by rw [Leaf.resolve], fun items v => Leaf.resolve_arr_iff,
      fun fields v => Leaf.resolve_obj_iff, fun v hscope => Leaf.resolve_of_plain engine hscope v,
      fun v e => Leaf.exists_of_resolve_error v, fun head leaf => Leaf.request_congr⟩
  · obtain ⟨s', hr', ha⟩ := System.Alike.run (.program (.run hv)) hr
    exact ⟨s', hr', ha.same⟩

/-- An engine for which every expression has a value that looks like a template. -/
def Expr.Engine.quoting : Expr.Engine := fun _ _ => .ok (.str "\x7b\x7bsecret\x7d\x7d")

/-- An engine that would tell the secret, if it was asked for it. -/
def Expr.Engine.telling : Expr.Engine := fun text context =>
  if text = "secret" then .ok (.str "told") else Expr.Engine.quoting text context

/-- A workflow with a simple step that has a prompt. -/
def Workflow.prompting : Workflow :=
  { Workflow.single default false with
    steps := [.simple ⟨"a", none, default⟩ ⟨.llm, "ask", [], none, some "go on"⟩] }

/-- What an expression evaluates to is not evaluated, in a template as little as in a run. -/
theorem data_is_never_code_secret :
    Template.evaluate .telling "title: \x7b\x7bworkItem.title\x7d\x7d" (.obj []) =
        Template.evaluate .quoting "title: \x7b\x7bworkItem.title\x7d\x7d" (.obj []) ∧
      ∃ h s s', System.Run (.ofRun .telling {} ⟨1⟩ Eq)
          (.ofProgram (.holding .prompting) (ExceptT.run (Orchestration.run .telling ⟨1⟩))) h s ∧
        System.Run (.ofRun .quoting {} ⟨1⟩ Eq)
          (.ofProgram (.holding .prompting) (ExceptT.run (Orchestration.run .quoting ⟨1⟩))) h s' ∧
        s.result?.isSome = true ∧ s'.result? = s.result? := by
  have hagree {texts : List String} (h : "secret" ∉ texts) (context : Json) :
      Expr.Engine.telling.Agree .quoting texts context :=
    fun text ht => if_neg (by rintro rfl; exact h ht)
  obtain ⟨hevaluate, -, hruns⟩ := data_is_never_code .telling .quoting
  refine ⟨(hevaluate _ _ (hagree (by decide +kernel) _)).2.1, ?_⟩
  have hplay : (((System.ofProgram (.holding .prompting)
      (ExceptT.run (Orchestration.run .telling ⟨1⟩))).play (.ofRun .telling {} ⟨1⟩ Eq)
        (System.moves 12 ++ .respond [] true :: System.moves 14)).any fun x =>
          x.2.result?.isSome) = true := by decide +kernel
  obtain ⟨⟨h, s⟩, hr, hresult⟩ := (Option.any_eq_true _ _).mp hplay
  have hr := System.Run.of_play hr
  have hv : ∀ v ∈ (World.holding .prompting).workflowOf ⟨1⟩,
      v.Agree .telling .quoting := by
    rintro v ⟨⟩
    refine ⟨fun context => hagree (by decide +kernel) context, ?_⟩
    refine List.forall_mem_singleton.mpr (.intro (hagree (by decide +kernel)) ?_)
    rintro x ⟨steps, hsteps, -⟩
    cases hsteps
  obtain ⟨s', hr', -, he⟩ := hruns {} ⟨1⟩ Eq _ h s hv hr
  exact ⟨h, s, s', hr, hr', hresult, he⟩

end WorkflowEngine
