import WorkflowEngine.Proofs.Run.Suspension
import WorkflowEngine.Proofs.Task.Scope

/-!
# Scopes of loops in runs

There is no loop around a step at the top level of a run. So while a step of it is run, every
context tells of the loops around the thread and of no other ones: a step of a body sees its own
loop, in its iteration, as the innermost one, and a loop leaves the loops around as it has found
them, however it ends.

## Main definitions

* `System.task?`: the task of a thread
* `System.RunWhile`: a history all through which something holds
* `Program.Begins`: which steps a program may begin

## Main results

* `Program.Reaches.of_begins`: the step that is run is one that the program may begin
* `Orchestration.begins_drive`: a run begins the steps of its workflow, with no loop around
* `run_scopes_loops`: scopes of loops in runs
-/

namespace WorkflowEngine

namespace System

variable {α : Type}

/-- The task of the thread at a path, while a step is run. -/
def task? (s : System α) (path : Path) : Option Task :=
  match s.main with
  | .stepping _ t _ => t.at? path
  | .program _ => none

/-- The loops around the tree that the thread at a path runs. -/
def baseAt (s : System α) (path : Path) : List (String × Nat) :=
  match s.main with
  | .stepping _ t _ => t.baseAt [] path
  | .program _ => []

/-- **A history all through which something holds.** -/
inductive RunWhile (S : Surroundings) (P : System α → Prop) :
    System α → List Happening → System α → Prop where
  | refl {s} (hp : P s) : RunWhile S P s [] s
  | step {s x s' h s''} (hp : P s) (hs : Step S s x s') (hr : RunWhile S P s' h s'') :
      RunWhile S P s (x :: h) s''

variable {S : Surroundings} {s s' : System α} {x : Happening} {h : List Happening}

theorem RunWhile.first {P : System α → Prop} (hr : RunWhile S P s h s') : P s := by
  cases hr <;> assumption

theorem RunWhile.last {P : System α → Prop} (hr : RunWhile S P s h s') : P s' := by
  induction hr with
  | refl hp => exact hp
  | step _ _ _ ih => exact ih

theorem RunWhile.run {P : System α → Prop} (hr : RunWhile S P s h s') : Run S s h s' := by
  induction hr with
  | refl => exact .refl _
  | step _ hs _ ih => exact .step hs ih

theorem RunWhile.trans {P : System α → Prop} {s'' : System α} {h' : List Happening}
    (hr : RunWhile S P s h s') (hr' : RunWhile S P s' h' s'') :
    RunWhile S P s (h ++ h') s'' := by
  induction hr with
  | refl => exact hr'
  | step hp hs _ ih => exact .step hp hs (ih hr')

/-- What happens by one choice after the other, as long as something holds. -/
def playWhile (S : Surroundings) (p : System α → Bool) (s : System α) :
    List Choice → Option (List Happening × System α)
  | [] => if p s then some ([], s) else none
  | c :: cs =>
    if p s then do
      let (x, s') ← s.choose S c
      let (h, s'') ← playWhile S p s' cs
      return (x :: h, s'')
    else none

theorem RunWhile.of_playWhile {p : System α → Bool} {cs : List Choice}
    (hp : s.playWhile S p cs = some (h, s')) : RunWhile S (fun s => p s = true) s h s' := by
  induction cs generalizing s h with
  | nil =>
    rw [playWhile] at hp
    split at hp
    next hps =>
      cases hp
      exact .refl hps
    next => cases hp
  | cons c cs ih =>
    rw [playWhile] at hp
    split at hp
    next hps =>
      obtain ⟨⟨x, s₁⟩, hc, hp⟩ := Option.bind_eq_some_iff.mp hp
      obtain ⟨⟨h₁, s₂⟩, hp₁, hp⟩ := Option.bind_eq_some_iff.mp hp
      cases hp
      exact .step hps (.of_choose hc) (ih hp₁)
    next => cases hp

/-! ### What is around a thread -/

/-- **What is around a thread stays as it is** as long as the thread is there. -/
theorem Step.baseAt_eq {path : Path} (h : Step S s x s') (hu : (s.task? path).isSome = true)
    (hu' : (s'.task? path).isSome = true) : s'.baseAt path = s.baseAt path := by
  obtain ⟨w, main, leaves⟩ := s
  cases main with
  | program p => cases hu
  | stepping a t k =>
    -- while a step is run, only its task may change
    have h : Step S (Passage.toSystem ⟨w, t, leaves⟩ a k) x s' := h
    rcases h.of_toSystem with ⟨st', hst, rfl⟩ | ⟨o, -, -, rfl⟩
    · cases hst with
      | advance _ hm => exact hm.baseAt_eq hu hu'
      | answer _ ha => exact ha.baseAt_eq hu hu'
      | _ => rfl
    · cases hu'

theorem RunWhile.baseAt_eq {path : Path}
    (hr : RunWhile S (fun s => (s.task? path).isSome = true) s h s') :
    s'.baseAt path = s.baseAt path := by
  induction hr with
  | refl => rfl
  | step hp hs hr ih => exact ih.trans (hs.baseAt_eq hp hr.first)

end System

/-- A step stays scoped while it is run. -/
theorem Passage.Run.scoped {S : Surroundings} {a : Assignment} {st st' : Passage}
    {h : List Happening} {root : WorkflowEngine.Step} {d : Nat} {base : List (String × Nat)}
    (ht : Task.Scoped base st.task) (hp : Task.Placed root d st.task)
    (ha : root.ApartFrom (base.map Prod.fst)) (hr : Passage.Run S a st h st') :
    Task.Scoped base st'.task := by
  induction hr with
  | refl => exact ht
  | step hs _ ih =>
    refine ih ?_ (hs.placed hp)
    cases hs with
    | advance _ hm => exact ht.moves hp ha hm
    | answer _ hm => exact ht.answers hm
    | _ => exact ht

/-! ### Steps that a program begins -/

namespace Program

variable {α β : Type} {P : Step → Context → Prop} {R : Context → Prop}

/-- **A program begins only certain steps in certain contexts**, provided that the contexts that it
gets back are as they should be. -/
inductive Begins (P : Step → Context → Prop) (R : Context → Prop) : Program α → Prop where
  | done {x} : Begins P R (.done x)
  | runStep {a s c k} (h : P s c) (hk : ∀ o c', R c' → Begins P R (k (o, c'))) :
      Begins P R (.ask (.runStep a s c) k)
  | other {r k} (hr : ∀ a s c, r ≠ .runStep a s c) (hk : ∀ reply, Begins P R (k reply)) :
      Begins P R (.ask r k)

theorem Begins.bind {p : Program α} {f : α → Program β} (hp : p.Begins P R)
    (hf : ∀ x, (f x).Begins P R) : (p.bind f).Begins P R := by
  induction hp with
  | done => exact hf _
  | runStep h _ ih => exact .runStep h ih
  | other hr _ ih => exact .other hr ih

theorem Begins.of_plain {p : Program α} (hp : p.Asks Request.IsPlain) : p.Begins P R := by
  induction p with
  | done => exact .done
  | ask r k ih =>
    refine .other ?_ fun reply => ih reply (hp.2 reply)
    rintro a s c rfl
    cases hp.1

/-- **The step that is run is one that the program may begin**, in a context in which it may. -/
theorem Reaches.of_begins {S : Surroundings} {p : Program α} {w : World} {h : List Happening}
    {s : System α} {a : Assignment} {t : Task} {k : Outcome × Context → Program α}
    (hp : p.Begins P R)
    (hback : ∀ a x c w h st o, P x c → Passage.Run S a ⟨w, .start x c 0, []⟩ h st →
      st.task.outcome? = some o → R st.task.context)
    (hr : Reaches S p w h s) (hs : s.main = .stepping a t k) :
    ∃ x c w h st, P x c ∧ Passage.Run S a ⟨w, .start x c 0, []⟩ h st ∧ st.task = t := by
  induction hr with
  | here => cases hs
  | serve hserve _ ih =>
    cases hp with
    | runStep => cases hserve
    | other _ hk => exact ih (hk _) hs
  | during hst =>
    cases hs
    cases hp with
    | runStep h => exact ⟨_, _, _, _, _, h, hst, rfl⟩
    | other hr => exact absurd rfl (hr _ _ _)
  | after hst ho _ ih =>
    cases hp with
    | runStep h hk => exact ih (hk _ _ (hback _ _ _ _ _ _ _ h hst ho)) hs
    | other hr => exact absurd rfl (hr _ _ _)

end Program

namespace Orchestration

variable {α β : Type} {P : Step → Context → Prop} {R : Context → Prop}

/-- Which steps a program may begin. -/
def Begins (P : Step → Context → Prop) (R : Context → Prop) (p : Orchestration α) : Prop :=
  Program.Begins P R (ExceptT.run p)

theorem Begins.of_plain {p : Orchestration α} (hp : p.IsPlain) : Begins P R p :=
  Program.Begins.of_plain hp

theorem Begins.bind {p : Orchestration α} {f : α → Orchestration β} (hp : Begins P R p)
    (hf : ∀ x, Begins P R (f x)) : Begins P R (p >>= f) := by
  refine Program.Begins.bind (p := ExceptT.run p) (f := ExceptT.bindCont f) hp fun r => ?_
  cases r with
  | ok x => exact hf x
  | error e => exact .done

/-- What is plain is done before the rest. -/
theorem Begins.plain_bind {p : Orchestration α} {f : α → Orchestration β} (hp : p.IsPlain)
    (hf : ∀ x, Begins P R (f x)) : Begins P R (p >>= f) :=
  .bind (.of_plain hp) hf

theorem Begins.runStep_bind {a : Assignment} {s : Step} {c : Context}
    {f : Outcome × Context → Orchestration β} (h : P s c)
    (hf : ∀ o c', R c' → Begins P R (f (o, c'))) :
    Begins P R (lift (Program.request (.runStep a s c)) >>= f) :=
  Program.Begins.runStep (k := fun x => ExceptT.run (f x)) h hf

/-- The steps at the top level begin one after the other, each in the context that the one before
has left. -/
theorem begins_runSteps {a : Assignment} {totalSteps : Nat} {steps : List Step} {c : Context}
    (hP : ∀ s ∈ steps, ∀ c, R c → P s c) (hR : ∀ c e, R c → R (c.refresh e)) (hc : R c) :
    Begins P R (runSteps a totalSteps steps c) := by
  induction steps generalizing c with
  | nil =>
    rw [runSteps]
    refine .plain_bind (isPlain_cancelRequested _) fun cancelled => ?_
    cases cancelled
    · exact .of_plain (isPlain_finishCompleted _ _)
    · exact .of_plain (isPlain_finishCancelled _ _ _)
  | cons s steps ih =>
    have ih : ∀ c, R c → Begins P R (runSteps a totalSteps steps c) := fun c hc =>
      ih (fun s hs => hP s (List.mem_cons_of_mem _ hs)) hc
    rw [runSteps]
    refine .plain_bind (isPlain_load _) fun e => ?_
    refine .plain_bind (.lift (.request .isCancelled)) fun cancelled => ?_
    split
    · exact .of_plain (isPlain_finishCancelled _ _ _)
    refine .plain_bind (isPlain_update _ _) fun _ => ?_
    refine .runStep_bind (hP s (List.mem_cons_self ..) _ (hR c e hc)) fun o c' hc' => ?_
    dsimp only
    split
    · exact .of_plain (isPlain_finishCancelled _ _ _)
    refine .plain_bind (isPlain_announceStep _ _ _ _ _) fun _ => ?_
    refine .plain_bind (isPlain_persist _ _) fun _ => ?_
    split
    · exact ih c' hc'
    · refine .plain_bind (isPlain_cancelRequested _) fun cancelled => ?_
      cases cancelled
      · simp only [Bool.false_eq_true, if_false]
        split
        · exact ih c' hc'
        · exact .of_plain (isPlain_finishFailed _ _ _ _)
      · exact .of_plain (isPlain_finishCancelled _ _ _)

/-- **A run begins the steps of its workflow, with no loop around.** -/
theorem begins_drive (engine : Expr.Engine) (e : Execution) (v : Workflow) :
    Begins (fun s c => s ∈ v.steps ∧ c.loops = []) (fun c => c.loops = []) (drive engine e v) := by
  rw [drive]
  refine .plain_bind (.stored (.request .getWorkItem)) fun item => ?_
  split
  · exact .of_plain (.bind (isPlain_markFailed _ _) fun _ => .throw _)
  next c hc =>
    refine .plain_bind (.lift (.request .emit)) fun _ => ?_
    exact begins_runSteps (fun s hs c hc => ⟨hs, hc⟩) (fun _ _ hc => hc) (Context.loops_build hc)

end Orchestration

/-! ### Scopes -/

variable {engine : Expr.Engine} {config : Config} {id : Uuid} {rule : Execution → Execution → Prop}
  {w : World} {e : Execution} {v : Workflow} {h : List Happening}
  {s : System (Except RunError Summary)}

/-- A task that is over has given back the loops that it began with. -/
theorem Task.Scoped.loops_of_outcome? {base : List (String × Nat)} {t : Task} {o : Outcome}
    (ht : Scoped base t) (ho : t.outcome? = some o) : t.context.loops = base := by
  obtain ⟨c, control, fs⟩ := t
  cases control with
  | settled o =>
    cases fs with
    | nil => exact ht.loops rfl
    | cons f fs => cases ho
  | _ => cases ho

/-- **Every thread of a run is told of the loops around**, and of no other ones. -/
theorem scoped_of_run (hrec : w.record? id = some e) (hv : w.store.resolved e.workflowId = .ok v)
    (ha : v.LoopsApart)
    (hr : System.Run (.ofRun engine config id rule)
      (.ofProgram w (ExceptT.run (Orchestration.run engine id))) h s)
    {path : Path} {t : Task} (ht : s.task? path = some t) : Task.Scoped (s.baseAt path) t := by
  rcases hr.reaches.eq_ofProgram_or_toSystem with ⟨w', p', rfl⟩ | ⟨st, a, k, rfl⟩
  · cases ht
  obtain ⟨e', v', w', h', k', hrec', hv', -, hr', rfl⟩ := hr.reaches.drive_of_run
  obtain rfl : e = e' := Option.some.inj (hrec.symm.trans hrec')
  obtain rfl : v = v' := Except.ok.inj (hv.symm.trans hv')
  -- a step at the top level begins with no loop around, and stays scoped
  have hscoped : ∀ a x c w h st, x ∈ v.steps ∧ c.loops = [] →
      Passage.Run (.ofRun engine config id rule) a ⟨w, .start x c 0, []⟩ h st →
      Task.Scoped [] st.task := by
    rintro a x c w h st ⟨hx, hc⟩ hst
    refine Passage.Run.scoped (?_ : Task.Scoped [] (Task.start x c 0)) (.start x c 0)
      (ha.apartFrom hx) hst
    exact hc ▸ Task.Scoped.start x c 0
  obtain ⟨x, c, w₁, h₁, st₁, hx, hst, he⟩ := hr'.of_begins
    (Orchestration.begins_drive engine e v)
    (fun a x c w h st o hx hst ho => (hscoped a x c w h st hx hst).loops_of_outcome? ho) rfl
  exact (he ▸ hscoped a x c w₁ h₁ st₁ hx hst).at ht

/-- **Loops are scoped.** In a run of a workflow in which no loop is within another one with its id,
each step of a body begins with its own loop, in its iteration, as the innermost one that
expressions see; and a loop that ends, however it does, leaves the loops around as it has found
them. -/
theorem run_scopes_loops (hrec : w.record? id = some e)
    (hv : w.store.resolved e.workflowId = .ok v) (ha : v.LoopsApart)
    (hr : System.Run (.ofRun engine config id rule)
      (.ofProgram w (ExceptT.run (Orchestration.run engine id))) h s) (path : Path) :
    (∀ c x d f fs, s.task? path = some (.mk c (.enter x d) (.loop f :: fs)) →
      c.loops.head? = some (f.head.id, f.iteration) ∧
      c.toJson.get? "loop" =
        some (.ofFields [("id", .str f.head.id), ("iteration", .ofNat f.iteration)])) ∧
    ∀ c c' head loopRule body d o fs h' s',
      s.task? path = some (.mk c (.enter (.loop head loopRule body) d) fs) →
      s.RunWhile (.ofRun engine config id rule) (fun s => (s.task? path).isSome = true) h' s' →
      s'.task? path = some (.mk c' (.settled o) (.finish (.loop head loopRule body) d :: fs)) →
      c'.loops = c.loops := by
  constructor
  · intro c x d f fs ht
    have hloops := (scoped_of_run hrec hv ha hr ht).loops rfl
    exact ⟨by rw [hloops]; rfl, Context.get?_toJson_loop hloops⟩
  · intro c c' head loopRule body d o fs h' s' ht hwhile ht'
    have hloops := (scoped_of_run hrec hv ha hr ht).loops rfl
    have hloops' := (scoped_of_run hrec hv ha (hr.trans hwhile.run) ht').loops rfl
    -- the loops around the thread's tree are the same, and so are the frames below the loop
    rw [hloops', hloops, hwhile.baseAt_eq]
    rfl

/-- A loop within another one; both have one iteration. -/
def Workflow.nestedLoops (outer inner : String) : Workflow :=
  let once (id : String) (body : List Step) : Step :=
    .loop ⟨id, none, default⟩ ⟨some .count, none, some (.count 1), none, .fail⟩ body
  let leaf (id : String) : Step :=
    .simple ⟨id, none, default⟩ ⟨.command, "run", [], none, none⟩
  { Workflow.single default false with steps := [once outer [once inner [leaf "a"], leaf "b"]] }

/-- A run of a loop within another one. -/
def System.nestedLoops (outer inner : String) : System (Except RunError Summary) :=
  .ofProgram (.holding (.nestedLoops outer inner)) (ExceptT.run (Orchestration.run .null ⟨1⟩))

/-- The inner loop sees the outer one when it begins, and leaves it as it is. -/
theorem run_scopes_loops_nested : ∃ h s h' s' c c' head loopRule body d o f fs,
    System.Run (.ofRun .null {} ⟨1⟩ Eq) (.nestedLoops "l" "m") h s ∧
    s.task? [] = some (.mk c (.enter (.loop head loopRule body) d) (.loop f :: fs)) ∧
    c.toJson.get? "loop" = some (.ofFields [("id", .str "l"), ("iteration", .ofNat 1)]) ∧
    s.RunWhile (.ofRun .null {} ⟨1⟩ Eq) (fun s => (s.task? []).isSome = true) h' s' ∧
    s'.task? [] =
      some (.mk c' (.settled o) (.finish (.loop head loopRule body) d :: .loop f :: fs)) ∧
    c.loops = [("l", 1)] ∧ c'.loops = c.loops := by
  have hapart : (Workflow.nestedLoops "l" "m").LoopsApart := by
    intro s hs l hl
    obtain rfl := List.mem_singleton.mp hs
    refine List.append_nil (l.filterMap _) ▸ Step.ApartFrom.loop (by decide) ?_ l hl
    rintro x (_ | ⟨_, _ | ⟨_, ⟨⟩⟩⟩)
    · refine .loop (by decide) ?_
      rintro x (_ | ⟨_, ⟨⟩⟩)
      exact .simple (by decide)
    · exact .simple (by decide)
  obtain ⟨h, s, hplay, c, head, loopRule, body, d, f, fs, ht, hid, hf, hloops, h', s', hplay', c',
    o, ht'⟩ :
      ∃ h s, (System.nestedLoops "l" "m").play (.ofRun .null {} ⟨1⟩ Eq) (System.moves 13) =
        some (h, s) ∧ ∃ c head loopRule body d f fs,
        s.task? [] = some (.mk c (.enter (.loop head loopRule body) d) (.loop f :: fs)) ∧
        f.head.id = "l" ∧ f.iteration = 1 ∧ c.loops = [("l", 1)] ∧ ∃ h' s',
        s.playWhile (.ofRun .null {} ⟨1⟩ Eq) (fun s => (s.task? []).isSome)
          (System.moves 5 ++ .respond [] true :: System.moves 4) = some (h', s') ∧ ∃ c' o,
        s'.task? [] =
          some (.mk c' (.settled o) (.finish (.loop head loopRule body) d :: .loop f :: fs)) :=
    ⟨_, _, rfl, _, _, _, _, _, _, _, rfl, rfl, rfl, rfl, _, _, rfl, _, _, rfl⟩
  have hrun := System.Run.of_play hplay
  have hwhile := System.RunWhile.of_playWhile hplay'
  obtain ⟨hsees, hleaves⟩ := run_scopes_loops (w := .holding (.nestedLoops "l" "m")) rfl rfl hapart
    hrun []
  have hloop := (hsees _ _ _ _ _ ht).2
  rw [hid, hf] at hloop
  exact ⟨h, s, h', s', c, c', head, loopRule, body, d, o, f, fs, hrun, ht, hloop, hwhile, ht',
    hloops, hleaves _ _ _ _ _ _ _ _ _ _ ht hwhile ht'⟩

/-- A loop within another one with its id, which is no error: the inner one takes itself for the
outer one, so that no loop is around when it has ended, and the next step of the outer one sees
none. -/
theorem run_of_twin_loops : (Workflow.nestedLoops "l" "l").validate.isValid = true ∧
    ∃ h s h' s' h'' s'' c c' c'' head loopRule body d o f fs x f',
    System.Run (.ofRun .null {} ⟨1⟩ Eq) (.nestedLoops "l" "l") h s ∧
    s.task? [] = some (.mk c (.enter (.loop head loopRule body) d) (.loop f :: fs)) ∧
    s.RunWhile (.ofRun .null {} ⟨1⟩ Eq) (fun s => (s.task? []).isSome = true) h' s' ∧
    s'.task? [] =
      some (.mk c' (.settled o) (.finish (.loop head loopRule body) d :: .loop f :: fs)) ∧
    c.loops = [("l", 1)] ∧ c'.loops = [] ∧
    System.Run (.ofRun .null {} ⟨1⟩ Eq) s' h'' s'' ∧
    s''.task? [] = some (.mk c'' (.enter x d) (.loop f' :: fs)) ∧
    f'.head.id = "l" ∧ f'.iteration = 1 ∧ c''.toJson.get? "loop" = none := by
  refine ⟨by decide +kernel, ?_⟩
  obtain ⟨h, s, hplay, h', s', hplay', h'', s'', hplay'', hrest⟩ :
      ∃ h s, (System.nestedLoops "l" "l").play (.ofRun .null {} ⟨1⟩ Eq) (System.moves 13) =
        some (h, s) ∧ ∃ h' s',
        s.playWhile (.ofRun .null {} ⟨1⟩ Eq) (fun s => (s.task? []).isSome)
          (System.moves 5 ++ .respond [] true :: System.moves 4) = some (h', s') ∧ ∃ h'' s'',
        s'.play (.ofRun .null {} ⟨1⟩ Eq) (System.moves 3) = some (h'', s'') ∧
        ∃ c c' c'' head loopRule body d o f fs x f',
        s.task? [] = some (.mk c (.enter (.loop head loopRule body) d) (.loop f :: fs)) ∧
        s'.task? [] =
          some (.mk c' (.settled o) (.finish (.loop head loopRule body) d :: .loop f :: fs)) ∧
        c.loops = [("l", 1)] ∧ c'.loops = [] ∧
        s''.task? [] = some (.mk c'' (.enter x d) (.loop f' :: fs)) ∧
        f'.head.id = "l" ∧ f'.iteration = 1 ∧ c''.toJson.get? "loop" = none :=
    ⟨_, _, rfl, _, _, rfl, _, _, rfl, _, _, _, _, _, _, _, _, _, _, _, _, rfl, rfl, rfl, rfl, rfl,
      rfl, rfl, rfl⟩
  obtain ⟨c, c', c'', head, loopRule, body, d, o, f, fs, x, f', ht, ht', hc, hc', hrest⟩ := hrest
  exact ⟨h, s, h', s', h'', s'', c, c', c'', head, loopRule, body, d, o, f, fs, x, f',
    .of_play hplay, ht, .of_playWhile hplay', ht', hc, hc', .of_play hplay'', hrest⟩

end WorkflowEngine
