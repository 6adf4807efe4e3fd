import WorkflowEngine.Proofs.Task.Recording
import WorkflowEngine.Proofs.Task.Scope

/-!
# The account that contexts give of steps

A context changes in few ways: a result is recorded, and loops begin iterations and end. So its
results only grow, and what expressions see of a step is the last of its results. With the trace of
a step, this says what a context tells of the steps that were run.

## Main definitions

* `Context.Becomes`: what a context may become
* `Context.TellsLast`: what expressions see of steps are their last results
* `Task.Throughout`: something holds of every task of a tree
* `Context.Reachable`: the contexts that runs come to

## Main results

* `Task.advance_becomes`: what the context of a task becomes
* `Task.Throughout.moves`: what contexts keep when they change holds of all of them
* `Context.Reachable.tellsLast`: what expressions see of steps
* `Task.leaves_one_trace`: what is recorded of a step that is run
-/

namespace WorkflowEngine

namespace Context

/-! ### What contexts become -/

/-- **What a context may become** while a step is run. -/
inductive Becomes (c : Context) : Context → Prop where
  | refl : Becomes c c
  | record {c'} (h : Becomes c c') (r : StepResult) : Becomes c (c'.record r)
  | enterLoop {c'} (h : Becomes c c') (id : String) (n : Nat) : Becomes c (c'.enterLoop id n)
  | exitLoop {c'} (h : Becomes c c') (id : String) : Becomes c (c'.exitLoop id)

variable {c c' : Context}

theorem Becomes.trans {c'' : Context} (h : Becomes c c') (h' : Becomes c' c'') :
    Becomes c c'' := by
  induction h' with
  | refl => exact h
  | record _ r ih => exact ih.record r
  | enterLoop _ id n ih => exact ih.enterLoop id n
  | exitLoop _ id ih => exact ih.exitLoop id

theorem Becomes.foldl_record (h : Becomes c c') (rs : List StepResult) :
    Becomes c (rs.foldl Context.record c') := by
  induction rs generalizing c' with
  | nil => exact h
  | cons r rs ih => exact ih (h.record r)

theorem Becomes.recordAll {τ : Type} (h : Becomes c c') (b : Block τ) :
    Becomes c (b.recordAll c') := by
  unfold Block.recordAll
  induction b.inOrder generalizing c' with
  | nil => exact h
  | cons f fs ih => exact ih (h.foldl_record f.results)

/-- **Results only grow.** -/
theorem Becomes.keeps_results (h : Becomes c c') : c.results <+: c'.results := by
  induction h with
  | refl => exact List.prefix_rfl
  | record _ r ih => exact ih.trans (List.prefix_append ..)
  | enterLoop _ id n ih => rwa [results_enterLoop]
  | exitLoop _ id ih => rwa [results_exitLoop]

/-- **What expressions see of steps are their last results**, and they see no other step. -/
def TellsLast (c : Context) : Prop :=
  ∀ id, Dict.find? c.steps id = (c.results.reverse.find? (·.stepId == id)).map stepJson

theorem TellsLast.record (h : c.TellsLast) (r : StepResult) : (c.record r).TellsLast := by
  intro id
  show Dict.find? (Dict.insert c.steps r.stepId (stepJson r)) id =
    ((c.results ++ [r]).reverse.find? (·.stepId == id)).map stepJson
  rw [List.reverse_append, List.reverse_singleton, List.singleton_append]
  by_cases hid : id = r.stepId
  · subst hid
    rw [Dict.find?_insert_self, List.find?_cons_of_pos (by simp)]
    rfl
  · rw [Dict.find?_insert_of_ne _ _ hid,
      List.find?_cons_of_neg (by simpa using fun he => hid he.symm)]
    exact h id

theorem TellsLast.of_eq (h : c.TellsLast) (hsteps : c'.steps = c.steps)
    (hresults : c'.results = c.results) : c'.TellsLast := by
  intro id
  rw [hsteps, hresults]
  exact h id

@[simp] theorem steps_enterLoop (c : Context) (id : String) (n : Nat) :
    (c.enterLoop id n).steps = c.steps := by
  unfold enterLoop
  split
  · split <;> rfl
  · rfl

@[simp] theorem steps_exitLoop (c : Context) (id : String) : (c.exitLoop id).steps = c.steps := by
  unfold exitLoop
  split <;> rfl

theorem Becomes.tellsLast (h : Becomes c c') (hc : c.TellsLast) : c'.TellsLast := by
  induction h with
  | refl => exact hc
  | record _ r ih => exact ih.record r
  | enterLoop _ id n ih => exact ih.of_eq (steps_enterLoop ..) (results_enterLoop ..)
  | exitLoop _ id ih => exact ih.of_eq (steps_exitLoop ..) (results_exitLoop ..)

/-- **The run that a context belongs to is told once** for a step. -/
theorem Becomes.identity_eq (h : Becomes c c') : c'.identity = c.identity := by
  induction h with
  | refl => rfl
  | record _ r ih => exact ih
  | enterLoop _ id n ih =>
    rw [← ih]
    unfold Context.enterLoop
    split
    · split <;> rfl
    · rfl
  | exitLoop _ id ih =>
    rw [← ih]
    unfold Context.exitLoop
    split <;> rfl

end Context

namespace Task

open Context

variable {env : Env} {m : Moment}

/-- **What the context of a task becomes** when it moves by itself; no task is within it then. -/
theorem advance_becomes {t t' : Task} {e : Effect} (h : t.advance env m = some (t', e)) :
    Becomes t.context t'.context ∧ ∀ i path, at? (i :: path) t' = none := by
  match t, h with
  | .mk c (.enter s d) fs, h =>
    have he := enters_enter env m c s d fs
    rw [show Task.enter env m c s d fs = _ from Option.some.inj h] at he
    cases he with
    | @parallel head rule body =>
      -- no worker has taken a step yet
      refine ⟨.refl, fun i path => ?_⟩
      by_contra hn
      obtain ⟨_, _, _, _, _, ⟨⟩, hi, -⟩ := exists_worker_of_at? (Option.isSome_iff_ne_none.mpr hn)
      cases List.eq_of_mem_replicate (List.mem_of_getElem? hi)
    | _ => exact ⟨.refl, fun _ _ => rfl⟩
  | .mk c (.joining b) fs, h =>
    simp only [Task.advance] at h
    split at h
    · cases h
      exact ⟨Becomes.refl.recordAll b, fun _ _ => rfl⟩
    · cases h
  | .mk c .proceed (.branch f :: fs), h =>
    cases h
    rcases proceedBranch_cases m c f fs with ⟨-, he⟩ | ⟨-, he⟩ | ⟨s, rest, -, -, he⟩ <;> rw [he] <;>
      exact ⟨.refl, fun _ _ => rfl⟩
  | .mk c .proceed (.loop f :: fs), h =>
    cases h
    rcases proceedLoop_cases env m c f fs with ⟨result, he⟩ | he | ⟨s, rest, -, -, he⟩ <;> rw [he]
    · exact ⟨.exitLoop .refl _, fun _ _ => rfl⟩
    · exact ⟨.refl, fun _ _ => rfl⟩
    · exact ⟨.refl, fun _ _ => rfl⟩
  | .mk c .iterate (.loop f :: fs), h =>
    cases h
    rcases iterate_cases env m c f fs with ⟨result, he⟩ | ⟨result, he⟩ | ⟨-, he⟩ <;> rw [he]
    · exact ⟨.exitLoop .refl _, fun _ _ => rfl⟩
    · exact ⟨.exitLoop (.enterLoop .refl _ _) _, fun _ _ => rfl⟩
    · exact ⟨.enterLoop .refl _ _, fun _ _ => rfl⟩
  | .mk c (.settled o) (.finish s d :: fs), h =>
    cases h
    refine ⟨?_, fun _ _ => rfl⟩
    show Becomes c (if o.isCancelled then c else c.record (.ofOutcome s.id o m.elapsedMs))
    split
    · exact .refl
    · exact .record .refl _
  | .mk c (.settled o) (.branch f :: fs), h =>
    cases h
    rcases returnToBranch_cases c f o fs with ⟨-, he⟩ | ⟨e, -, he⟩ | ⟨e, -, -, -, he⟩ <;>
      rw [he] <;>
      exact ⟨.refl, fun _ _ => rfl⟩
  | .mk c (.settled o) (.loop f :: fs), h =>
    cases h
    rcases returnToLoop_cases c f o fs with
      ⟨-, he⟩ | ⟨e, -, he⟩ | ⟨e, -, -, -, he⟩ | ⟨e, -, -, -, he⟩ <;> rw [he]
    · exact ⟨.refl, fun _ _ => rfl⟩
    · exact ⟨.exitLoop .refl _, fun _ _ => rfl⟩
    · exact ⟨.refl, fun _ _ => rfl⟩
    · exact ⟨.exitLoop .refl _, fun _ _ => rfl⟩
  | .mk _ (.calling ..) _, h | .mk _ .proceed [], h | .mk _ .proceed (.finish .. :: _), h
  | .mk _ .iterate [], h | .mk _ .iterate (.finish .. :: _), h
  | .mk _ .iterate (.branch _ :: _), h | .mk _ (.settled _) [], h => cases h

/-- **What the context of a task becomes** when a thread in its tree moves. -/
theorem Moves.becomes {path : List Nat} {t t' : Task} {e : Effect} (h : Moves env m path t t' e) :
    Becomes t.context t'.context := by
  cases h with
  | here h => exact (advance_becomes h).1
  | stop | skip | take | handIn | inner => exact .refl

theorem Answers.context_eq {r : Except StepError Json} {path : List Nat} {t t' : Task}
    (h : Answers r path t t') : t'.context = t.context := by
  cases h <;> rfl

/-! ### Tasks within the tree -/

/-- **Something holds of every task of the tree.** -/
def Throughout (P : Task → Prop) (t : Task) : Prop := ∀ path u, at? path t = some u → P u

section Throughout

variable {P : Task → Prop}

theorem Throughout.here {t : Task} (h : Throughout P t) : P t := h [] t rfl

/-- There is no other task in the tree. -/
theorem Throughout.alone {t : Task} (h : P t) (hn : ∀ i path, at? (i :: path) t = none) :
    Throughout P t := by
  intro path u hu
  cases path with
  | nil =>
    cases hu
    exact h
  | cons i path =>
    rw [hn] at hu
    cases hu

theorem Throughout.worker {c : Context} {b : Block Task} {fs : List Frame} {i index : Nat}
    {t : Task} (h : Throughout P (.mk c (.joining b) fs))
    (hi : b.workers[i]? = some (.running index t)) : Throughout P t :=
  fun path u hu => h (i :: path) u (by rw [at?, hi]; exact hu)

/-- A worker of a parallel step has changed. -/
theorem Throughout.setWorker {c : Context} {b b' : Block Task} {fs : List Frame} {i : Nat}
    {w : Worker Task} (h : Throughout P (.mk c (.joining b) fs))
    (hworkers : b'.workers = (b.setWorker i w).workers) (hP : P (.mk c (.joining b') fs))
    (hw : ∀ index t, w = .running index t → Throughout P t) :
    Throughout P (.mk c (.joining b') fs) := by
  intro path u hu
  cases path with
  | nil =>
    cases hu
    exact hP
  | cons j path =>
    obtain ⟨_, _, _, index, t, ⟨⟩, hj, he⟩ := exists_worker_of_at? (Option.isSome_of_mem hu)
    rw [he] at hu
    rw [hworkers] at hj
    rcases Block.workers_setWorker hj with hw' | hj
    · exact hw index t hw'.symm path u hu
    · exact h.worker hj path u hu

end Throughout

/-! ### Contexts within the tree -/

section Contexts

variable {Q : Context → Prop}

theorem Throughout.start {c : Context} (h : Q c) (s : Step) (d : Nat) :
    Throughout (fun u => Q u.context) (Task.start s c d) :=
  .alone h fun _ _ => rfl

/-- **What contexts keep when they change holds of all of them**, wherever in the tree. -/
theorem Throughout.moves (hQ : ∀ c c', Becomes c c' → Q c → Q c') {path : List Nat} {t t' : Task}
    {e : Effect} (ht : Throughout (fun u => Q u.context) t) (h : Moves env m path t t' e) :
    Throughout (fun u => Q u.context) t' := by
  induction h with
  | here h =>
    obtain ⟨hb, hnone⟩ := advance_becomes h
    exact .alone (hQ _ _ hb ht.here) hnone
  | stop | skip | handIn => exact ht.setWorker rfl ht.here nofun
  | take =>
    refine ht.setWorker rfl ht.here fun index t he => ?_
    cases he
    exact .start ht.here _ _
  | inner hi _ _ ih =>
    refine ht.setWorker rfl ht.here fun index t he => ?_
    cases he
    exact ih (ht.worker hi)

theorem Throughout.answers {r : Except StepError Json} {path : List Nat} {t t' : Task}
    (ht : Throughout (fun u => Q u.context) t) (h : Answers r path t t') :
    Throughout (fun u => Q u.context) t' := by
  induction h with
  | here => exact .alone ht.here fun _ _ => rfl
  | inner hi _ ih =>
    refine ht.setWorker rfl ht.here fun index t he => ?_
    cases he
    exact ih (ht.worker hi)

end Contexts

/-- **What expressions see of steps are their last results**, wherever in the tree. -/
def Informed (t : Task) : Prop := ∀ path u, at? path t = some u → u.context.TellsLast

theorem Informed.start {c : Context} (h : c.TellsLast) (s : Step) (d : Nat) :
    Informed (start s c d) :=
  Throughout.start h s d

theorem Informed.moves {path : List Nat} {t t' : Task} {e : Effect} (ht : Informed t)
    (h : Moves env m path t t' e) : Informed t' :=
  Throughout.moves (fun _ _ hb hc => hb.tellsLast hc) ht h

theorem Informed.answers {r : Except StepError Json} {path : List Nat} {t t' : Task}
    (ht : Informed t) (h : Answers r path t t') : Informed t' :=
  Throughout.answers (Q := TellsLast) ht h

/-- **What is followed keeps contexts informed, and lets the one of the task only grow.** -/
theorem Informed.follow {xs : List Motion} {t t' : Task} {es : List Ending}
    (h : follow env xs t = some (t', es)) :
    Becomes t.context t'.context ∧ (Informed t → Informed t') := by
  induction xs generalizing t es with
  | nil =>
    cases h
    exact ⟨.refl, id⟩
  | cons x xs ih =>
    obtain ⟨u, e, es', hu, hrest, rfl⟩ := follow_cons_eq_some_iff.mp h
    obtain ⟨hb, hi⟩ := ih hrest
    cases x with
    | moves path m =>
      have hm := advanceAt_eq_some_iff.mp hu
      exact ⟨hm.becomes.trans hb, fun ht => hi (ht.moves hm)⟩
    | answers path r =>
      obtain ⟨u', hu', heq⟩ := Option.map_eq_some_iff.mp hu
      cases heq
      have ha := answerAt_eq_some_iff.mp hu'
      exact ⟨ha.context_eq ▸ hb, fun ht => hi (ht.answers ha)⟩

end Task

/-! ### Contexts that runs come to -/

namespace Context

/-- **The contexts that runs come to**: one that holds only a work item, or the one at the start of
a run, one whose record or a variable has changed, and those within a step that is run. -/
inductive Reachable (env : Env) : Context → Prop where
  | ofWorkItem (item : Json) : Reachable env (ofWorkItem item)
  | built {e item vars c} (h : build env.engine e item vars = .ok c) : Reachable env c
  | refresh {c} (h : Reachable env c) (e : Execution) : Reachable env (c.refresh e)
  | setVariable {c} (h : Reachable env c) (name : String) (value : Json) :
      Reachable env (c.setVariable name value)
  | during {c s d xs t es path u} (h : Reachable env c)
      (ht : Task.follow env xs (Task.start s c d) = some (t, es)) (hu : t.at? path = some u) :
      Reachable env u.context

variable {env : Env} {c : Context}

theorem TellsLast.resolveVariables {engine : Expr.Engine} {vars : List (String × Json)}
    {c' : Context} (h : c.TellsLast) (hv : c.resolveVariables engine vars = .ok c') :
    c'.TellsLast := by
  induction vars generalizing c with
  | nil =>
    cases hv
    exact h
  | cons x vars ih =>
    obtain ⟨name, v⟩ := x
    rw [Context.resolveVariables] at hv
    cases hx : c.resolveVariable engine v with
    | error e =>
      rw [hx] at hv
      cases hv
    | ok value =>
      rw [hx] at hv
      have hset : (c.setVariable name value).TellsLast := h.of_eq rfl rfl
      exact ih hset hv

theorem tellsLast_ofWorkItem (item : Json) : (ofWorkItem item).TellsLast := fun _ => rfl

/-- **What expressions see of steps are their last results**, in every context that runs come to. -/
theorem Reachable.tellsLast (h : Reachable env c) : c.TellsLast := by
  induction h with
  | ofWorkItem item => exact tellsLast_ofWorkItem item
  | @built e item vars c h =>
    have hstart :
        (Context.refresh (Context.ofWorkItem (workItemJson e.workItemId item)) e).TellsLast :=
      (tellsLast_ofWorkItem (workItemJson e.workItemId item)).of_eq rfl rfl
    exact ((Becomes.refl.foldl_record e.stepResults).tellsLast hstart).resolveVariables h
  | refresh _ e ih => exact ih.of_eq rfl rfl
  | setVariable _ name value ih => exact ih.of_eq rfl rfl
  | during _ ht hu ih => exact (Task.Informed.follow ht).2 (.start ih _ _) _ _ hu

end Context

/-- **What is recorded of a step that is run.** However its task is moved, the results of the
context only grow. When it is over, they are those at the beginning and those of the steps that were
run for it, each of which was told of once: every step behind those that were run for it, the steps
of a parallel step in the order of the list, and none that was cancelled. In every context that runs
come to, what expressions see of steps are their last results. -/
theorem Task.leaves_one_trace (env : Env) :
    (∀ (s : Step) (c : Context) (d : Nat) (xs : List Motion) (t : Task) (es : List Ending),
      follow env xs (start s c d) = some (t, es) →
        (∀ ys u es', follow env ys t = some (u, es') →
          t.context.results <+: u.context.results) ∧
        c.results <+: t.context.results ∧
        ∀ o, t.outcome? = some o → ∃ (tr : Trace) (ms : Nat),
          tr.Fits ∧ tr.ending = ⟨s, d, o, ms⟩ ∧ tr.Told es ∧ es.Perm tr.postorder ∧
            t.context.results = c.results ++ tr.postorder.filterMap Ending.result?) ∧
    ∀ c : Context, c.Reachable env → ∀ id,
      Dict.find? c.steps id =
        (c.results.reverse.find? fun r => r.stepId == id).map Context.stepJson := by
  refine ⟨fun s c d xs t es h => ⟨fun ys u es' hu => ?_, ?_, fun o ho => ?_⟩, fun c hc => ?_⟩
  · exact (Informed.follow hu).1.keeps_results
  · exact (Informed.follow h).1.keeps_results
  · obtain ⟨tr, ms, hf, hending, ht, hresults⟩ := ((Traced.start s c d).follow h).exists_trace ho
    exact ⟨tr, ms, hf, hending, ht, tr.perm_postorder_of_told ht, hresults⟩
  · exact hc.tellsLast

/-- Two steps side by side. -/
def Step.twoBeside : Step :=
  .parallel ⟨"p", none, default⟩ ⟨none, false⟩ <| ["a", "b"].map fun id =>
    .simple ⟨id, none, default⟩ ⟨.command, "run", [], none, none⟩

/-- The second one of two steps is over first. -/
def Motion.secondFirst : List Motion :=
  let now : Moment := { cancelled := false }
  [.moves [] now, .moves [1] now, .moves [0] now, .moves [0] now, .moves [1] now,
    .answers [0] (.ok .null), .moves [0] now, .moves [0] now,
    .answers [1] (.ok .null), .moves [1] now, .moves [1] now,
    .moves [0] now, .moves [1] now, .moves [] now, .moves [] now]

/-- Two steps that are over in another order than the one of the list. -/
theorem Task.leaves_one_trace_secondFirst : ∃ t es,
    follow ⟨fun _ _ => .ok .null, 1⟩ Motion.secondFirst (start .twoBeside (.ofWorkItem .null) 0) =
        some (t, es) ∧
      es.map (fun e => e.step.id) = ["b", "a", "p"] ∧
      (∃ tr : Trace, tr.Fits ∧ tr.Told es ∧
        t.context.results = tr.postorder.filterMap Ending.result?) ∧
      ∀ id, Dict.find? t.context.steps id =
        (t.context.results.reverse.find? fun r => r.stepId == id).map Context.stepJson := by
  obtain ⟨htrace, hlast⟩ := leaves_one_trace ⟨fun _ _ => .ok .null, 1⟩
  obtain ⟨t, es, h, hids, o, ho⟩ : ∃ t es, follow ⟨fun _ _ => .ok .null, 1⟩ Motion.secondFirst
      (start .twoBeside (.ofWorkItem .null) 0) = some (t, es) ∧
    es.map (fun e => e.step.id) = ["b", "a", "p"] ∧ ∃ o, t.outcome? = some o :=
    ⟨_, _, rfl, rfl, _, rfl⟩
  obtain ⟨tr, -, hf, -, ht, -, hresults⟩ := (htrace _ _ _ _ _ _ h).2.2 o ho
  have hat : t.at? [] = some t := rfl
  exact ⟨t, es, h, hids, ⟨tr, hf, ht, hresults⟩, hlast _ (.during (.ofWorkItem .null) h hat)⟩

end WorkflowEngine
