import Mathlib.Data.List.Forall2
import Mathlib.Logic.Relation
import WorkflowEngine.Proofs.Run.Race

/-!
# Runs that are over

Runs are begun, run and cancelled by calls. Any number of calls is under way at once, also for the
same run, and they take turns where they wait for the response to a simple step or for an approval.
Each call is told of a cancel on its own and numbers its own events. While all of them wait, others
may change the records in any way but for the status of a run that is over. Then no call changes
such a status either: what a call keeps it has loaded since it last waited, and a record that it
loads is never kept with another status once that says that the run is over.

## Main definitions

* `World.Spares`: runs that are over stay so, by the same status
* `Call`, `Service`: calls under way, and all of them with the world that they share
* `Service.Step`: what may happen next
* `System.Steady`: what holds of the program of a call
* `Service.Steady`: what holds of all calls

## Main results

* `System.Steady.step`: a move of a call spares the runs that are over
* `Service.Steady.step`: so does whatever may happen
* `terminal_is_final`: the status of a run that is over is final
-/

namespace WorkflowEngine

open Relation (ReflTransGen)

namespace World

variable {id i : Uuid} {w w' w'' : World} {k : Hold}

/-- **Runs that are over stay so**, by the same status. -/
def Spares (w w' : World) : Prop := ∀ id st, w.IsOver id st → w'.IsOver id st

theorem Spares.refl (w : World) : w.Spares w := fun _ _ h => h

theorem Spares.trans (h : w.Spares w') (h' : w'.Spares w'') : w.Spares w'' :=
  fun id st ho => h' id st (h id st ho)

theorem Spares.of_records (h : ∀ i, w'.record? i = w.record? i) : w.Spares w' :=
  fun i _ ho => ho.grows (.of_eq (h i))

/-- The record of a run grows, and those of all others stay as they are. -/
theorem Spares.of_grows (hg : w.Grows id w') (h : ∀ i, i ≠ id → w'.record? i = w.record? i) :
    w.Spares w' := by
  intro i st ho
  by_cases hi : i = id
  · subst hi
    exact ho.grows hg
  · exact ho.grows (.of_eq (h i hi))

/-! ### The records of others -/

/-- A record that is kept takes the place of no record of another run. -/
theorem find?_update_of_ne (executions : List Execution) {e : Execution} (h : e.id ≠ i) :
    (executions.map fun x => if x.id == e.id then e else x).find? (fun x => x.id == i) =
      executions.find? fun x => x.id == i := by
  induction executions with
  | nil => rfl
  | cons x xs ih =>
    rw [List.map_cons]
    by_cases hx : x.id = e.id
    · -- the record that is replaced is found by neither
      rw [List.find?_cons_of_neg (by simp [hx, h]), List.find?_cons_of_neg (by simp [hx, h]), ih]
    · rw [if_neg (by simpa using hx), List.find?_cons, List.find?_cons, ih]

theorem serve_updateExecution_of_ne {e : Execution} {reply : Except StoreError Unit}
    (h : e.id ≠ i) (hs : w.serve (.updateExecution e) = some (reply, w')) :
    w'.record? i = w.record? i := by
  obtain ⟨r, faults, hw, -⟩ := w.countCall_eq .updateExecution
  rw [serve, change, hw] at hs
  cases r with
  | error err => cases hs; rfl
  | ok u =>
    dsimp only at hs
    split at hs
    next => cases hs; rfl
    next store hstore =>
      cases hs
      split at hstore
      next =>
        unfold Store.updateExecution at hstore
        split at hstore
        next =>
          cases hstore
          exact congrArg (fun x => if w.isVisible i then x else none) (find?_update_of_ne _ h)
        next => cases hstore
      next => cases hstore

/-- **Serving a proper request leaves the records of other runs alone.** -/
theorem record?_of_serve {r : Request} {reply : r.Reply} (hp : r.Proper id k)
    (hk : ∀ e, k.loaded = some e → e.id = id) (hs : w.serve r = some (reply, w')) (hi : i ≠ id) :
    w'.record? i = w.record? i := by
  cases r with
  | getWorkflows | getWorkflow | getWorkItem => exact (untouched_of_look hs).record i
  | getExecution j => exact (serve_getExecution hs).1.record i
  | updateExecution e =>
    obtain ⟨e₀, he₀, hg⟩ := hp
    exact serve_updateExecution_of_ne (hg.id.trans (hk e₀ he₀) ▸ hi.symm) hs
  | createExecution e => cases hp
  | runStep | execute | awaitApproval | delegate => cases hs
  | _ => cases hs; rfl

/-- A new record takes the place of none. -/
theorem spares_of_createExecution {e : Execution} {reply : Except StoreError Unit}
    (hs : w.serve (.createExecution e) = some (reply, w')) : w.Spares w' := by
  obtain ⟨r, faults, hw, -⟩ := w.countCall_eq .createExecution
  rw [serve, change, hw] at hs
  cases r with
  | error err => cases hs; exact .of_records fun _ => rfl
  | ok u =>
    dsimp only at hs
    split at hs
    next => cases hs; exact .of_records fun _ => rfl
    next store hstore =>
      cases hs
      unfold Store.createExecution at hstore
      split at hstore
      next => cases hstore
      next =>
        cases hstore
        rintro i st ⟨hst, e', he', hs'⟩
        refine ⟨hst, e', ?_, hs'⟩
        -- the record that was found first still is
        unfold record? at he' ⊢
        split at he'
        next hv =>
          have hfound : w.store.executions.find? (fun x => x.id == i) = some e' := he'
          refine (if_pos hv).trans ((List.find?_append ..).trans ?_)
          rw [hfound]
          rfl
        next => cases he'

end World

/-! ### Calls that are served at once -/

/-- One party alone knows what is true. -/
theorem World.Agrees.alone {id : Uuid} {w : World} {k : Hold} (h : k.IsTrue id w true) :
    Agrees id (w.eventsOf id) (fun _ => true)
      (fun | .run => k | .canceller => ⟨none, none⟩) w := by
  refine ⟨fun q => ?_, [], (List.append_nil _).symm, by simp⟩
  cases q with
  | run => exact h
  | canceller => exact Hold.isTrue_none id w true

/-- Who knows the record knows it after its own turn too. -/
theorem Turn.after_self (t : Turn) : t.after (fun _ => true) t.party = true := by
  unfold after
  cases t.deed <;> simp

/-- **A program that knows what is true is served**: it still does, and runs that are over stay
so. -/
theorem Hold.IsTrue.serve {k : Hold} {id : Uuid} {w w' : World} {r : Request} {reply : r.Reply}
    (hk : k.IsTrue id w true) (hp : r.Proper id k) (hs : w.serve r = some (reply, w')) :
    (k.after r reply).IsTrue id w' true ∧ w.Spares w' := by
  obtain ⟨hw, hg⟩ := World.Agrees.serve (p := .run) (World.Agrees.alone hk) hp hs fun _ => rfl
  have hk' := hw.knows .run
  rw [Function.update_self, Turn.after_self] at hk'
  exact ⟨hk', .of_grows hg fun i hi => World.record?_of_serve hp hk.ofRun hs hi⟩

/-- **A program that heeds the record of a run and never waits** spares the runs that are over. -/
theorem Program.Heeds.spares {α : Type} {p : Program α} {post : Hold → α → Prop} {k : Hold}
    {id : Uuid} {w w' : World} {a : α} (hp : p.Heeds id post k) (hk : k.IsTrue id w true)
    (h : w.perform p = some (a, w')) : w.Spares w' := by
  induction p generalizing k w with
  | done b =>
    cases h
    exact .refl _
  | ask r next ih =>
    rw [World.perform] at h
    split at h
    next reply w₁ hs =>
      obtain ⟨hk₁, hw⟩ := hk.serve hp.1 hs
      exact hw.trans (ih reply (hp.2 reply (World.fits_of_serve hs)) hk₁ h)
    next => cases h

namespace World

variable {id : Uuid} {w : World}

/-- **A record of a run that is to begin is kept beside the others.** -/
theorem ends_start (w : World) (workflowId workItemId : String) :
    w.Ends (Orchestration.start workflowId workItemId) fun _ w' => w.Spares w' := by
  have hget := ends_stored_look (w := w) (p := Program.request (.getWorkflow workflowId))
    .getWorkflow (fun s => s.getWorkflow? workflowId) rfl
  refine hget.bind_looked (fun w₁ hw => ?_) fun e w₁ hw _ => .of_records hw.record
  have hw : w.Spares w₁ := .of_records hw.record
  have hcreate : ∀ (w₂ : World) (e : Execution), w.Spares w₂ →
      w₂.Ends (Orchestration.stored (Program.request (.createExecution e))) fun _ w' =>
        w.Spares w' := by
    intro w₂ e hw₂
    cases hs : w₂.serve (.createExecution e) with
    | none => cases hs
    | some x =>
      exact ⟨_, _, (perform_bind _ _).trans (congrArg (Option.bind · _) (perform_request hs)),
        hw₂.trans (spares_of_createExecution hs)⟩
  cases w.store.getWorkflow? workflowId with
  | none => exact .throw hw
  | some v =>
    -- the id and the time that are asked for change no record
    have hw₂ : w.Spares w₁.newId.2 := hw.trans (.of_records fun _ => rfl)
    refine .lift_bind (r := .newId) rfl (.lift_bind (r := .now) rfl ?_)
    refine (hcreate w₁.newId.2 _ hw₂).bind (fun _ w₃ h => ?_) fun _ w₃ h => ?_
    · exact .pure h
    · exact h

/-- A run that is over is not run again. -/
theorem ends_run_of_isTerminal {e : Execution} (engine : Expr.Engine) (h : w.record? id = some e)
    (hs : e.status.isTerminal = true) :
    w.Ends (Orchestration.run engine id) fun r w' => Untouched w w' ∧
      (r = .error (.alreadyFinished id e.status) ∨ w.Fails r) := by
  refine (ends_load h).bind_looked (fun w' hw => ?_) fun err w' hw hne =>
    ⟨hw, .inr ⟨hne, err, rfl⟩⟩
  rw [if_pos hs]
  exact .throw ⟨hw, .inl rfl⟩

/-- A run that is over is not cancelled. -/
theorem ends_cancel_of_isTerminal {e : Execution} (h : w.record? id = some e)
    (hs : e.status.isTerminal = true) :
    w.Ends (Orchestration.cancel id) fun r w' => Untouched w w' ∧
      (r = .error (.alreadyFinished id e.status) ∨ w.Fails r) := by
  refine (ends_load h).bind_looked (fun w' hw => ?_) fun err w' hw hne =>
    ⟨hw, .inr ⟨hne, err, rfl⟩⟩
  rw [if_pos hs]
  exact .throw ⟨hw, .inl rfl⟩

end World

/-! ### Calls under way -/

/-- The call of a run that is under way. Whether it was told that the run is cancelled, and how many
events it has announced, is its own. -/
structure Call where
  id : Uuid
  main : Main (Except RunError Summary)
  leaves : List (Path × LeafProgram)
  runs : List ActiveRun

/-- Calls that are under way in the same world. -/
structure Service where
  world : World
  calls : List Call

namespace Call

/-- The system of a call. Of the runs that have begun it sees its own, whatever the world has. -/
def on (c : Call) (w : World) : System (Except RunError Summary) :=
  ⟨{ w with runs := c.runs }, c.main, c.leaves⟩

/-- The call that a system is at. -/
def ofSystem (id : Uuid) (s : System (Except RunError Summary)) : Call :=
  ⟨id, s.main, s.leaves, s.world.runs⟩

/-- A run that is about to be run. -/
def begin (engine : Expr.Engine) (id : Uuid) : Call :=
  ⟨id, .program (ExceptT.run (Orchestration.run engine id)), [], []⟩

/-- A call waits for the response to a simple step or for an approval, or has ended. -/
def Rests (c : Call) (w : World) : Prop :=
  (c.on w).IsPending ∨ (c.on w).result?.isSome = true

/-- **A call that rests stays where it is.** What it is told meanwhile is left open: of the calls of
one run a cancel reaches the one that has begun last, unless another one has ended since. -/
structure Stays (c c' : Call) : Prop where
  id : c'.id = c.id
  main : c'.main = c.main
  leaves : c'.leaves = c.leaves

theorem Stays.exists_of_mem {cs cs' : List Call} {c' : Call} (h : List.Forall₂ Stays cs cs')
    (hc : c' ∈ cs') : ∃ c ∈ cs, c.Stays c' := by
  induction h with
  | nil => cases hc
  | cons hs _ ih =>
    rcases List.mem_cons.mp hc with rfl | hc
    · exact ⟨_, List.mem_cons_self .., hs⟩
    · obtain ⟨c, hc, hs⟩ := ih hc
      exact ⟨c, List.mem_cons_of_mem _ hc, hs⟩

end Call

namespace Service

/-- All calls wait or have ended. -/
def Rests (s : Service) : Prop := ∀ c ∈ s.calls, c.Rests s.world

/-- **What may happen next**: while all calls rest, a run is started, cancelled or begins to be run,
or others change something, sparing the runs that are over; and any call may move while the others
rest. -/
inductive Step (engine : Expr.Engine) (config : Config) : Service → Service → Prop where
  | start {s : Service} {workflowId workItemId r w'} (hs : s.Rests)
      (h : s.world.perform (ExceptT.run (Orchestration.start workflowId workItemId)) =
        some (r, w')) :
      Step engine config s { s with world := w' }
  | cancel {s : Service} {id r w' calls} (hs : s.Rests)
      (h : s.world.perform (ExceptT.run (Orchestration.cancel id)) = some (r, w'))
      (hc : List.Forall₂ Call.Stays s.calls calls) : Step engine config s ⟨w', calls⟩
  | run {s : Service} {id} (hs : s.Rests) :
      Step engine config s { s with calls := .begin engine id :: s.calls }
  | move {w calls c calls' x s'} (hr : ∀ c' ∈ calls ++ calls', c'.Rests w)
      (h : System.Step (.ofRun engine config c.id Eq) (c.on w) x s') (hx : x.isOwn = true) :
      Step engine config ⟨w, calls ++ c :: calls'⟩
        ⟨s'.world, calls ++ .ofSystem c.id s' :: calls'⟩
  | outside {s : Service} {w' calls} (hs : s.Rests) (h : s.world.Spares w')
      (hc : List.Forall₂ Call.Stays s.calls calls) : Step engine config s ⟨w', calls⟩

end Service

/-! ### What holds of calls -/

variable {engine : Expr.Engine} {config : Config} {id : Uuid}

/-- **What holds of the program of a call**: it heeds the record of its run, and what it knows of
that is true. -/
def System.Steady {α : Type} (id : Uuid) (s : System α) : Prop :=
  ∃ k : Hold, s.Heeds id k ∧ k.IsTrue id s.world true

namespace System.Steady

variable {α : Type} {s s' : System α} {w' : World} {x : Happening}
  {rule : Execution → Execution → Prop}

/-- **A move of a call spares the runs that are over.** -/
theorem step (hs : s.Steady id) (h : System.Step (.ofRun engine config id rule) s x s')
    (hx : x.isOwn = true) : s'.Steady id ∧ s.world.Spares s'.world := by
  obtain ⟨k, hk, ht⟩ := hs
  rcases hk.cases h hx with ⟨r, reply, hp, hr, -, hk'⟩ | ⟨-, hk', hp⟩
  · obtain ⟨ht', hw⟩ := ht.serve hp hr
    exact ⟨⟨_, hk', ht'⟩, hw⟩
  · refine ⟨⟨k, hk', ht.grows (.of_eq (hp.record id)) fun hc => ⟨hc, hp.record id⟩⟩, ?_⟩
    exact .of_records hp.record

/-- **A call that rests has nothing at hand** that others could change. -/
theorem withWorld (hs : s.Steady id) (hr : s.IsPending ∨ s.result?.isSome = true)
    (hw : s.world.Spares w') : System.Steady id { s with world := w' } := by
  obtain ⟨k, hk, ht⟩ := hs
  cases hk with
  | @program w p h =>
    cases p with
    | done a => exact ⟨⟨none, none⟩, .program trivial, Hold.isTrue_none id w' true⟩
    | ask r next =>
      rcases hr with hr | hr
      · exact absurd hr (System.not_isPending_ofProgram _ w)
      · cases hr
  | @stepping st a next ha hl hst hleaves hn =>
    -- while a step is run no record is held
    refine ⟨k, (System.Heeds.stepping ha hl hst hleaves hn).withWorld w', ht.ofRun, ?_,
      fun st hst => hw id st (ht.ended st hst)⟩
    rw [hl]
    rintro _ ⟨⟩

end System.Steady

namespace Service

variable {s s' : Service} {w' : World}

/-- **What holds of all calls.** -/
def Steady (s : Service) : Prop := ∀ c ∈ s.calls, (c.on s.world).Steady c.id

/-- Nothing is lost for calls that rest while runs that are over stay so, whatever they are told. -/
theorem Steady.withWorld {calls : List Call} (hs : s.Steady) (hr : s.Rests)
    (hw : s.world.Spares w') (hc : List.Forall₂ Call.Stays s.calls calls) :
    Steady ⟨w', calls⟩ := by
  intro c' hc'
  obtain ⟨c, hmem, hstays⟩ := Call.Stays.exists_of_mem hc hc'
  have hown : (c.on s.world).world.Spares { w' with runs := c'.runs } := hw
  have hrest := (hs c hmem).withWorld (hr c hmem) hown
  rw [hstays.id, Call.on, hstays.main, hstays.leaves]
  exact hrest

/-- **Whatever may happen spares the runs that are over.** -/
theorem Steady.step (hs : s.Steady) (h : Step engine config s s') :
    s'.Steady ∧ s.world.Spares s'.world := by
  cases h with
  | start hr h =>
    obtain ⟨r, w₁, hp, hw⟩ := s.world.ends_start _ _
    cases hp.symm.trans h
    exact ⟨hs.withWorld hr hw (List.forall₂_same.mpr fun _ _ => ⟨rfl, rfl, rfl⟩), hw⟩
  | cancel hr h hc =>
    have hw := (Orchestration.heeds_cancel _ ⟨none, none⟩).spares (Hold.isTrue_none _ _ true) h
    exact ⟨hs.withWorld hr hw hc, hw⟩
  | @run _ id hr =>
    refine ⟨fun c hc => ?_, .refl _⟩
    rcases List.mem_cons.mp hc with rfl | hc
    · -- a call begins without knowing anything
      exact ⟨⟨none, none⟩, .program (.mono (Orchestration.heeds_run engine id _)
        fun _ _ _ => trivial), Hold.isTrue_none id _ true⟩
    · exact hs c hc
  | @move w calls c calls' x s' hr h hx =>
    obtain ⟨hc, hw⟩ := (hs c (by simp)).step h hx
    refine ⟨fun c' hc' => ?_, hw⟩
    rcases List.mem_append.mp hc' with hc' | hc'
    · exact (hs c' (by simp [hc'])).withWorld (hr c' (by simp [hc'])) hw
    · rcases List.mem_cons.mp hc' with rfl | hc'
      · exact hc
      · exact (hs c' (by simp [hc'])).withWorld (hr c' (by simp [hc'])) hw
  | outside hr hw hc => exact ⟨hs.withWorld hr hw hc, hw⟩

/-- One thing after the other spares the runs that are over. -/
theorem Steady.steps (hs : s.Steady) (h : ReflTransGen (Step engine config) s s') :
    s'.Steady ∧ s.world.Spares s'.world := by
  induction h with
  | refl => exact ⟨hs, .refl _⟩
  | tail _ h ih =>
    obtain ⟨hs₁, hw₁⟩ := ih
    obtain ⟨hs₂, hw₂⟩ := hs₁.step h
    exact ⟨hs₂, hw₁.trans hw₂⟩

end Service

/-- **The status of a run that is over is final.** Runs are started, run and cancelled by any calls,
many at once and for the same run too, taking turns where they wait for the response to a simple
step or for an approval, while others may do anything that spares the runs that are over. Once a
record says that its run is over, it says so by the same status ever after. To run or to cancel such
a run is refused with its status, unless the call of the store that looks at it fails; it changes no
record, and nothing is announced or handed out. -/
theorem terminal_is_final {w : World} {s s' : Service} {e : Execution}
    (h : ReflTransGen (Service.Step engine config) ⟨w, []⟩ s)
    (h' : ReflTransGen (Service.Step engine config) s s')
    (he : s.world.record? id = some e) (hs : e.status.isTerminal = true) :
    (∃ e', s'.world.record? id = some e' ∧ e'.status = e.status) ∧
    (s.world.Ends (Orchestration.run engine id) fun r w' => World.Untouched s.world w' ∧
      (r = .error (.alreadyFinished id e.status) ∨ s.world.Fails r)) ∧
    (s.world.Ends (Orchestration.cancel id) fun r w' => World.Untouched s.world w' ∧
      (r = .error (.alreadyFinished id e.status) ∨ s.world.Fails r)) := by
  have hstart : Service.Steady ⟨w, []⟩ := by rintro c ⟨⟩
  obtain ⟨hsteady, -⟩ := hstart.steps h
  obtain ⟨-, hspares⟩ := hsteady.steps h'
  refine ⟨?_, World.ends_run_of_isTerminal engine he hs, World.ends_cancel_of_isTerminal he hs⟩
  exact (hspares id e.status ⟨hs, e, he, rfl⟩).2

/-! ### Histories of one call -/

/-- A history of a run that others only cancel is one of its call. -/
theorem Service.steps_of_run {s s' : System (Except RunError Summary)} {h : List Happening}
    (hr : System.Run (.ofRun engine config id Eq) s h s')
    (hh : (h.all fun | .outside => false | _ => true) = true) :
    ReflTransGen (Service.Step engine config) ⟨s.world, [.ofSystem id s]⟩
      ⟨s'.world, [.ofSystem id s']⟩ := by
  induction hr with
  | refl => exact .refl
  | @step s x s₁ h s₂ hx _ ih =>
    obtain ⟨hx', hh⟩ := Bool.and_eq_true_iff.mp (List.all_cons.symm.trans hh)
    refine .head ?_ (ih hh)
    have hmove : x.isOwn = true → Service.Step engine config ⟨s.world, [] ++ .ofSystem id s :: []⟩
        ⟨s₁.world, [] ++ .ofSystem id s₁ :: []⟩ := Service.Step.move nofun hx
    cases x with
    | moved => exact hmove rfl
    | told => exact hmove rfl
    | outside => cases hx'
    | cancelled r =>
      cases hx with
      | cancel hp hc =>
        refine .cancel (fun c hc => ?_) hc (.cons ⟨rfl, rfl, rfl⟩ .nil)
        rw [List.mem_singleton.mp hc]
        exact .inl hp

/-- A run of a single step is cancelled while its step is being done. The run keeps the result of
the step and ends, and the record still says that it was cancelled. -/
theorem terminal_is_final_single : ∃ s s' e,
    ReflTransGen (Service.Step .null {}) ⟨.holding (.single ⟨none, none, false⟩ false), []⟩ s ∧
    ReflTransGen (Service.Step .null {}) s s' ∧
    s.world.record? ⟨1⟩ = some e ∧ e.status = .cancelled ∧ e.stepResults.length = 0 ∧
    (∃ e', s'.world.record? ⟨1⟩ = some e' ∧ e'.stepResults.length = 1) ∧
    ((∃ e', s'.world.record? ⟨1⟩ = some e' ∧ e'.status = e.status) ∧
    (s.world.Ends (Orchestration.run .null ⟨1⟩) fun r w' => World.Untouched s.world w' ∧
      (r = .error (.alreadyFinished ⟨1⟩ e.status) ∨ s.world.Fails r)) ∧
    (s.world.Ends (Orchestration.cancel ⟨1⟩) fun r w' => World.Untouched s.world w' ∧
      (r = .error (.alreadyFinished ⟨1⟩ e.status) ∨ s.world.Fails r))) := by
  have hplay : (((System.ofProgram (.holding (.single ⟨none, none, false⟩ false))
      (ExceptT.run (Orchestration.run .null ⟨1⟩))).play (.ofRun .null {} ⟨1⟩ Eq)
        (System.moves 12 ++ [.cancel])).any fun x =>
      (x.1.all fun | .outside => false | _ => true) &&
      ((x.2.world.record? ⟨1⟩).any fun e => e.status = .cancelled && e.stepResults.length = 0) &&
      (x.2.play (.ofRun .null {} ⟨1⟩ Eq) (.respond [] true :: System.moves 11)).any fun y =>
        (y.1.all fun | .outside => false | _ => true) &&
        (y.2.world.record? ⟨1⟩).any fun e => e.stepResults.length = 1) = true := by
    decide +kernel
  obtain ⟨⟨h, s⟩, hs, hx⟩ := (Option.any_eq_true _ _).mp hplay
  obtain ⟨hx, hy⟩ := Bool.and_eq_true_iff.mp hx
  obtain ⟨hh, hrec⟩ := Bool.and_eq_true_iff.mp hx
  obtain ⟨e, he, hst⟩ := (Option.any_eq_true _ _).mp hrec
  obtain ⟨hst, hlen⟩ := Bool.and_eq_true_iff.mp hst
  have hst : e.status = .cancelled := of_decide_eq_true hst
  obtain ⟨⟨h', s'⟩, hs', hy⟩ := (Option.any_eq_true _ _).mp hy
  obtain ⟨hh', hrec'⟩ := Bool.and_eq_true_iff.mp hy
  obtain ⟨e', he', hlen'⟩ := (Option.any_eq_true _ _).mp hrec'
  have hsteps := Service.steps_of_run (.of_play hs) hh
  have hsteps' := Service.steps_of_run (.of_play hs') hh'
  -- the call begins in a world without calls
  have hrests : Service.Rests ⟨.holding (.single ⟨none, none, false⟩ false), []⟩ := by rintro c ⟨⟩
  have hsteps := ReflTransGen.head (Service.Step.run hrests) hsteps
  exact ⟨_, _, e, hsteps, hsteps', he, hst, of_decide_eq_true hlen,
    ⟨e', he', of_decide_eq_true hlen'⟩, terminal_is_final hsteps hsteps' he (by rw [hst]; rfl)⟩

end WorkflowEngine
