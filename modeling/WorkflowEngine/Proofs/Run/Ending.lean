import WorkflowEngine.Proofs.Run.Between
import WorkflowEngine.Proofs.Run.Delivery
import WorkflowEngine.Proofs.Run.Leaf

/-!
# How runs end

A run that has begun is announced, and so is its end, by one event that is the last one. The events
of a run are numbered from one without a gap, and its last event, what it reports and its record say
the same. This holds in whatever order threads move and answers come, and whoever cancels the run or
takes its record out of `RUNNING` meanwhile.

## Main definitions

* `World.Tells`: the events since a run began, with their numbers
* `World.Underway`: a run that has begun and not ended
* `Closing`: the last event, the report and the record of a run agree

## Main results

* `Program.Reaches.closed_of_runSteps`: the steps at the top level end a run
* `run_closes`: every run ends with its last event
-/

namespace WorkflowEngine

open Relation (ReflTransGen)

/-- A record changes from outside at most from `RUNNING` to `CANCELLED`. -/
def Execution.MayBecome (e e' : Execution) : Prop :=
  e'.status = e.status ∨ e.status = .running ∧ e'.status = .cancelled

/-- **What a run ends with**: its report, its last event and its record agree. -/
inductive Closing (totalSteps : Nat) : Except RunError Summary → EventData → Execution → Prop where
  | completed {e : Execution} (h : e.status = .completed) :
      Closing totalSteps (.ok (e.summary totalSteps)) (.completed e.completedCount totalSteps 0) e
  | cancelled {e : Execution} {stepId} (h : e.status = .cancelled) :
      Closing totalSteps (.ok (e.summary totalSteps))
        (.cancelled stepId e.completedCount totalSteps) e
  | failed {e : Execution} {stepId} {error : StepError} (h : e.status = .failed)
      (he : e.error = some error.message) :
      Closing totalSteps (.error (.stepFailed stepId error))
        (.failed stepId error.message e.completedCount totalSteps) e

namespace World

variable {w w' : World} {id : Uuid} {base es : List Event} {start : EventData}

/-- **The events of a run since it began**, numbered from one. -/
structure Tells (w : World) (id : Uuid) (base es : List Event) : Prop where
  events : w.eventsOf id = base ++ es
  active : ∃ cancelled, w.active id = [⟨id, cancelled, es.length⟩]
  numbers : es.map Event.sequenceNumber = List.range' 1 es.length

theorem Tells.eventCount (h : w.Tells id base es) : w.eventCount id = es.length := by
  obtain ⟨cancelled, ha⟩ := h.active
  rw [eventCount_eq, ha]
  rfl

theorem Tells.beginRun (w : World) (id : Uuid) :
    (w.beginRun id).Tells id (w.eventsOf id) [] :=
  ⟨(List.append_nil _).symm, ⟨false, active_beginRun⟩, rfl⟩

theorem Tells.like (h : w.Tells id base es) (hl : Like id w w') : w'.Tells id base es :=
  ⟨hl.events.trans h.events, by rw [hl.active]; exact h.active, h.numbers⟩

/-- The next event has the next number. -/
theorem Tells.emit (h : w.Tells id base es) (data : EventData) :
    (w.emit id data).Tells id base (es ++ [w.nextEvent id data]) := by
  obtain ⟨cancelled, ha⟩ := h.active
  refine ⟨?_, ⟨cancelled, ?_⟩, ?_⟩
  · rw [eventsOf_emit, h.events, List.append_assoc]
  · rw [active_emit, ha, List.length_append]
    rfl
  · rw [List.map_append, h.numbers, List.length_append]
    have hn : (w.nextEvent id data).sequenceNumber = es.length + 1 := by
      rw [← h.eventCount]
      rfl
    simp [hn, Nat.add_comm, List.range'_concat]

/-- **A run that has begun and not ended**: it was announced, and since then it has told of steps
only. -/
structure Underway (w : World) (id : Uuid) (base : List Event) (start : EventData) : Prop where
  tells : ∃ first middle, w.Tells id base (first :: middle) ∧ first.data = start ∧
    ∀ x ∈ middle, x.data.IsProgress
  record : ∃ e, w.record? id = some e ∧ (e.status = .running ∨ e.status = .cancelled)
  faults : w.faults = []

theorem Underway.like (h : w.Underway id base start) (hl : Like id w w') {e : Execution}
    (hr : w'.record? id = some e) (he : e.status = .running ∨ e.status = .cancelled) :
    w'.Underway id base start := by
  obtain ⟨first, middle, ht, hs⟩ := h.tells
  exact ⟨⟨first, middle, ht.like hl, hs⟩, ⟨e, hr, he⟩, hl.faults h.faults⟩

theorem Underway.emit (h : w.Underway id base start) {data : EventData} (hd : data.IsProgress) :
    (w.emit id data).Underway id base start := by
  obtain ⟨first, middle, ht, hs, hm⟩ := h.tells
  refine ⟨⟨first, middle ++ [w.nextEvent id data], ht.emit data, hs, ?_⟩, h.record, h.faults⟩
  intro x hx
  rcases List.mem_append.mp hx with hx | hx
  · exact hm x hx
  · rw [List.mem_singleton.mp hx]
    exact hd

/-- **A run that has ended.** -/
def Closed (w : World) (id : Uuid) (base : List Event) (start : EventData) (totalSteps : Nat)
    (r : Except RunError Summary) : Prop :=
  ∃ first middle last e, w.eventsOf id = base ++ (first :: middle ++ [last]) ∧
    (first :: middle ++ [last]).map Event.sequenceNumber =
      List.range' 1 (first :: middle ++ [last]).length ∧
    first.data = start ∧ (∀ x ∈ middle, x.data.IsProgress) ∧
    w.record? id = some e ∧ Closing totalSteps r last.data e

/-- A run ends when its last event agrees with its record and its report. -/
theorem Underway.close (h : w.Underway id base start) {data : EventData} {totalSteps : Nat}
    {r : Except RunError Summary} {e : Execution} (hl : Like id w w')
    (hr : w'.record? id = some e) (hc : Closing totalSteps r data e) :
    (w'.emit id data).Closed id base start totalSteps r := by
  obtain ⟨first, middle, ht, hs, hm⟩ := h.tells
  have ht' := (ht.like hl).emit data
  exact ⟨first, middle, _, e, ht'.events, ht'.numbers, hs, hm, hr, hc⟩

/-! ### Ending -/

variable {a : Assignment} {totalSteps : Nat}

/-- Without failing calls of the store, the record of a run is loaded. -/
theorem Underway.ends_load (h : w.Underway id base start) :
    w.Ends (Orchestration.load id) fun r w' => ∃ e, r = .ok e ∧ w'.record? id = some e ∧
      (e.status = .running ∨ e.status = .cancelled) ∧ w'.Underway id base start := by
  obtain ⟨e, hr, he⟩ := h.record
  refine (World.ends_load hr).mono ?_
  rintro r w' ⟨hw, hok | ⟨hne, -⟩⟩
  · have hr' := (hw.record id).trans hr
    exact ⟨e, hok, hr', he, h.like (hw.like id) hr' he⟩
  · exact absurd h.faults hne

/-- Without failing calls of the store, the record of a run is kept. -/
theorem Underway.ends_update (h : w.Underway id base start) {e : Execution}
    (change : Execution → Timestamp → Execution) (hid : (change e w.now).id = id) :
    w.Ends (Orchestration.update e change) fun r w' => ∃ e', r = .ok e' ∧ e' = change e w.now ∧
      Like id w w' ∧ w'.record? id = some e' := by
  obtain ⟨old, hr, -⟩ := h.record
  refine (World.ends_update change hr hid).mono ?_
  rintro r w' ⟨hl, ⟨hok, hr'⟩ | ⟨⟨hne, -⟩, -⟩⟩
  · exact ⟨_, hok, rfl, hl, hr'⟩
  · exact absurd h.faults hne

theorem Underway.ends_finishCancelled (h : w.Underway a.executionId base start)
    (totalSteps : Nat) (stepId : Option String) :
    w.Ends (Orchestration.finishCancelled a totalSteps stepId) fun r w' =>
      w'.Closed a.executionId base start totalSteps r := by
  obtain ⟨e, hr, he⟩ := h.record
  refine World.ends_finishCancelled hr stepId (fun ht w₁ hl hr₁ => ?_)
    (fun _ now w₁ hl hr₁ => ?_) fun r w₁ hs => absurd h.faults hs.fails.1
  · rcases he with he | he
    · rw [he] at ht
      cases ht
    · exact h.close hl hr₁ (.cancelled he)
  · -- the record still says `RUNNING`, and is kept as cancelled first
    exact h.close hl hr₁ (.cancelled rfl)

theorem Underway.ends_finishCompleted (h : w.Underway a.executionId base start)
    (totalSteps : Nat) :
    w.Ends (Orchestration.finishCompleted a totalSteps) fun r w' =>
      w'.Closed a.executionId base start totalSteps r := by
  obtain ⟨e, hr, he⟩ := h.record
  refine World.ends_finishCompleted hr (fun ht w₁ hw => ?_) (fun _ now w₁ hl hr₁ => ?_)
    fun r w₁ hs => absurd h.faults hs.fails.1
  · rcases he with he | he
    · rw [he] at ht
      cases ht
    · -- someone has cancelled the run since it was asked last
      rw [hw.same h.faults, he]
      exact h.ends_finishCancelled totalSteps none
  · exact h.close hl hr₁ (.completed rfl)

theorem Underway.ends_finishFailed (h : w.Underway a.executionId base start)
    (totalSteps : Nat) (stepId : String) (error : StepError) :
    w.Ends (Orchestration.finishFailed a totalSteps stepId error) fun r w' =>
      w'.Closed a.executionId base start totalSteps r := by
  obtain ⟨e, hr, he⟩ := h.record
  refine World.ends_finishFailed hr stepId error (fun ht w₁ hw => ?_)
    (fun _ now w₁ hl hr₁ => ?_) fun r w₁ hs => absurd h.faults hs.fails.1
  · rcases he with he | he
    · rw [he] at ht
      cases ht
    · rw [hw.same h.faults, he]
      exact h.ends_finishCancelled totalSteps (some stepId)
  · exact h.close hl hr₁ (.failed (e := e.fail error.message now) rfl rfl)

/-- A result is kept in the record. -/
theorem Underway.ends_persist (h : w.Underway id base start) (x : StepResult) :
    w.Ends (Orchestration.persist id x) fun r w' => r = .ok () ∧ w'.Underway id base start := by
  obtain ⟨e, hr, he⟩ := h.record
  exact World.ends_persist hr x (fun now w₁ hl hr₁ => ⟨rfl, h.like hl hr₁ he⟩)
    fun r w₁ hs => absurd h.faults hs.fails.1

/-- A run looks whether it is cancelled. -/
theorem Underway.ends_cancelRequested (h : w.Underway id base start) :
    w.Ends (Orchestration.cancelRequested id) fun r w' => (∃ b, r = .ok b) ∧
      w'.Underway id base start := by
  obtain ⟨e, hr, -⟩ := h.record
  refine ((World.ends_cancelRequested hr).of_faults h.faults).mono ?_
  rintro r w' ⟨hr', rfl⟩
  exact ⟨⟨_, hr'⟩, h⟩

end World

/-! ### Running -/

variable {engine : Expr.Engine} {config : Config} {id : Uuid}
  {rule : Execution → Execution → Prop} {base : List Event} {start : EventData}

/-- **A run stays under way while a step is run.** -/
theorem Surroundings.keeps_underway (hrule : ∀ e e', rule e e' → e.MayBecome e') :
    (ofRun engine config id rule).Keeps fun w => w.Underway id base start where
  note := by
    intro w n hn h
    obtain ⟨e, hr, he⟩ := h.record
    exact h.like (World.like_note hn) hr he
  emit hd h := h.emit hd
  cancel := by
    intro w w' r hc h
    obtain ⟨e, hr, he⟩ := h.record
    obtain ⟨r', w'', hc', hev, hf, hcases⟩ := World.ends_cancel hr
    obtain ⟨rfl, rfl⟩ : r' = r ∧ w'' = w' := by
      have := hc'.symm.trans hc
      simpa using this
    obtain ⟨first, middle, ht, hs⟩ := h.tells
    rcases hcases with ⟨-, -, ha, now, hr'⟩ | ⟨-, ha, hr'⟩
    · obtain ⟨cancelled, ha'⟩ := ht.active
      refine ⟨⟨first, middle, ⟨hev.trans ht.events, ⟨true, ?_⟩, ht.numbers⟩, hs⟩,
        ⟨_, hr', .inr rfl⟩, hf h.faults⟩
      rw [ha, ha']
      rfl
    · exact h.like ⟨ha, hev, hf⟩ hr' he
  outside := by
    intro w w' hm h
    obtain ⟨e, hr, he⟩ := h.record
    obtain ⟨e', hr', hchange⟩ := hm.record e hr
    refine h.like hm.like hr' ?_
    rcases hrule e e' hchange with hs | ⟨-, hs⟩
    · rw [hs]
      exact he
    · exact .inr hs

/-- **The steps at the top level end a run.** -/
theorem Program.Reaches.closed_of_runSteps {a : Assignment} {totalSteps : Nat} {steps : List Step}
    {c : Context} {w w' : World} {h : List Happening} {r : Except RunError Summary}
    (hrule : ∀ e e', rule e e' → e.MayBecome e') (hw : w.Underway a.executionId base start)
    (hr : Reaches (.ofRun engine config a.executionId rule)
      (ExceptT.run (Orchestration.runSteps a totalSteps steps c)) w h
      (.ofProgram w' (.done r))) :
    w'.Closed a.executionId base start totalSteps r := by
  have hkeeps : (Surroundings.ofRun engine config a.executionId rule).Keeps fun w =>
      w.Underway a.executionId base start := Surroundings.keeps_underway hrule
  induction steps generalizing c w h with
  | nil =>
    rw [Orchestration.runSteps] at hr
    rcases hr.of_ends trivial hw.ends_cancelRequested with
      ⟨b, w₁, -, h₂, ⟨-, hw₁⟩, hr, -⟩ | ⟨e, w₁, ⟨⟨b, ⟨⟩⟩, -⟩, -⟩
    cases b with
    | true => exact hr.post_of_ends (hw₁.ends_finishCancelled totalSteps none)
    | false => exact hr.post_of_ends (hw₁.ends_finishCompleted totalSteps)
  | cons s steps ih =>
    rw [Orchestration.runSteps] at hr
    rcases hr.of_ends trivial hw.ends_load with
      ⟨e, w₁, -, h₂, ⟨_, ⟨⟩, hrec, he, hw₁⟩, hr, -⟩ | ⟨e, w₁, ⟨_, ⟨⟩, -⟩, -⟩
    obtain ⟨h₃, hr, -⟩ := hr.of_lift (r := .isCancelled a.executionId) trivial rfl
    split at hr
    · exact hr.post_of_ends (hw₁.ends_finishCancelled totalSteps (some s.id))
    have hid : (e.atStep s.id w₁.now).id = a.executionId := (World.id_of_record? hrec :)
    rcases hr.of_ends trivial
        (hw₁.ends_update (fun e now => e.atStep s.id now) hid) with
      ⟨e₂, w₂, -, h₄, ⟨_, ⟨⟩, rfl, hl₂, hrec₂⟩, hr, -⟩ | ⟨e, w₁, ⟨_, ⟨⟩, -⟩, -⟩
    have hw₂ := hw₁.like hl₂ hrec₂ he
    obtain ⟨st, o, h₅, h₆, hst, ho, hr, -⟩ := hr.of_runStep
    have hw₃ := (hkeeps.run rfl (by rintro path p ⟨⟩) hst hw₂).1
    dsimp only at hr
    split at hr
    · exact hr.post_of_ends (hw₃.ends_finishCancelled totalSteps (some s.id))
    rcases hr.of_ends trivial (World.ends_lift (World.perform_announceStep _ a s 0 o _)) with
      ⟨u, w₄, -, h₇, ⟨-, rfl⟩, hr, -⟩ | ⟨e, w₄, ⟨⟨⟩, -⟩, -⟩
    have hw₄ := hkeeps.announced hw₃ s 0 o st.task.context.lastDurationMs
    rcases hr.of_ends trivial (hw₄.ends_persist _) with
      ⟨u, w₅, -, h₈, ⟨-, hw₅⟩, hr, -⟩ | ⟨e, w₄, ⟨⟨⟩, -⟩, -⟩
    cases hf : o.failure? with
    | none =>
      rw [hf] at hr
      exact ih hw₅ hr
    | some error =>
      rw [hf] at hr
      rcases hr.of_ends trivial hw₅.ends_cancelRequested with
        ⟨b, w₆, -, h₉, ⟨-, hw₆⟩, hr, -⟩ | ⟨e, w₆, ⟨⟨b, ⟨⟩⟩, -⟩, -⟩
      cases b with
      | true => exact hr.post_of_ends (hw₆.ends_finishCancelled totalSteps (some s.id))
      | false =>
        simp only [Bool.false_eq_true, if_false] at hr
        split at hr
        · exact ih hw₆ hr
        · exact hr.post_of_ends (hw₆.ends_finishFailed totalSteps s.id error)

/-- A run that has ended was announced, told of steps after that, and its last number is that of the
event that ends it. -/
theorem System.Run.closed {w : World} {e : Execution} {v : Workflow} {c : Context}
    {s : System (Except RunError Summary)} {h : List Happening} {r : Except RunError Summary}
    (hf : w.faults = []) (hrec : w.record? id = some e) (hrunning : e.status = .running)
    (hv : w.store.resolved e.workflowId = .ok v) (ha : v.isAbstract = false)
    (hc : Context.build engine e (w.store.getWorkItem? e.workItemId) v.vars = .ok c)
    (hrule : ∀ e e', rule e e' → e.MayBecome e')
    (hr : System.Run (.ofRun engine config id rule)
      (.ofProgram w (ExceptT.run (Orchestration.run engine id))) h s)
    (hs : s.result? = some r) :
    s.world.Closed id (w.eventsOf id) (.started e.workflowId e.workItemId v.steps.length)
      v.steps.length r := by
  have hr := hr.reaches
  obtain ⟨w', rfl⟩ : ∃ w', s = .ofProgram w' (.done r) := ⟨s.world, hr.eq_ofProgram hs⟩
  rw [Orchestration.run] at hr
  obtain ⟨-, h₁, hr, -⟩ := hr.of_ends_ok trivial ((World.ends_load hrec).of_faults hf)
  simp only [hrunning, Status.isTerminal, Bool.false_eq_true, if_false] at hr
  have hrunnable : w.Ends (Orchestration.lift (ExceptT.run (Orchestration.runnable e.workflowId)))
      fun r w' => r = .ok (.ok v) ∧ w' = w := by
    obtain ⟨r, w₁, hp, rfl, rfl⟩ := (w.ends_runnable e.workflowId).of_faults hf
    simp only [hv, ha] at hp
    exact World.ends_lift hp
  obtain ⟨-, h₂, hr, -⟩ := hr.of_ends_ok trivial hrunnable
  obtain ⟨h₃, hr, -⟩ := hr.of_lift (r := .beginRun id) trivial rfl
  obtain ⟨w₁, h₄, hd, rfl, -⟩ := hr.of_ending
  rw [Orchestration.drive] at hd
  have hitem := World.ends_stored_look (w := w.beginRun id)
    (p := Program.request (.getWorkItem e.workItemId)) .getWorkItem
    (fun s => s.getWorkItem? e.workItemId) rfl
  obtain ⟨-, h₅, hd, -⟩ := hd.of_ends_ok trivial (hitem.of_faults hf)
  have hc' : Context.build engine e ((w.beginRun id).store.getWorkItem? e.workItemId) v.vars =
      .ok c := hc
  rw [hc'] at hd
  obtain ⟨h₆, hd, -⟩ := hd.of_lift
    (r := .emit e.id (.started e.workflowId e.workItemId v.steps.length)) trivial rfl
  obtain rfl : e.id = id := World.id_of_record? hrec
  have hw : ((w.beginRun e.id).emit e.id
      (.started e.workflowId e.workItemId v.steps.length)).Underway e.id (w.eventsOf e.id)
      (.started e.workflowId e.workItemId v.steps.length) :=
    ⟨⟨_, [], (World.Tells.beginRun w e.id).emit _, rfl, fun x hx => by cases hx⟩,
      ⟨e, hrec, .inl hrunning⟩, hf⟩
  have hclosed : w₁.Closed e.id (w.eventsOf e.id)
      (.started e.workflowId e.workItemId v.steps.length) v.steps.length r :=
    Program.Reaches.closed_of_runSteps (a := ⟨e.id, e.workflowId, e.workItemId⟩) hrule hw hd
  exact hclosed

/-! ### What is received of a run -/

/-- **A run that has returned, by the events that were received.** Each of the numbers from one on
was received once, the first event has the first number, and the last one, which has the last
number, agrees with the report and the record. In between, an event comes before one with a smaller
number only if their threads are apart. -/
structure Relay.Closed (r : Relay (Except RunError Summary)) (id : Uuid) (start : EventData)
    (totalSteps : Nat) (result : Except RunError Summary) : Prop where
  held : r.held = []
  numbers : (r.events.map Event.sequenceNumber).Perm (List.range' 1 r.events.length)
  order : r.received.Pairwise fun x y =>
    x.2.sequenceNumber < y.2.sequenceNumber ∨ Path.Apart x.1 y.1
  ends : ∃ first middle last e, r.events = first :: middle ++ [last] ∧
    first.sequenceNumber = 1 ∧ last.sequenceNumber = r.events.length ∧
    first.data = start ∧ (∀ x ∈ middle, x.data.IsProgress) ∧
    r.system.world.record? id = some e ∧ Closing totalSteps result last.data e

theorem Closing.not_isProgress {totalSteps : Nat} {result : Except RunError Summary}
    {data : EventData} {e : Execution} (h : Closing totalSteps result data e) :
    ¬ data.IsProgress := by
  intro hd
  cases h <;> cases hd

/-- Events that are numbered from one have increasing numbers. -/
theorem Event.lt_of_numbered {es : List Event}
    (h : es.map Event.sequenceNumber = List.range' 1 es.length) {x y : Event}
    (hxy : [x, y].Sublist es) : x.sequenceNumber < y.sequenceNumber := by
  have hsub := h ▸ hxy.map Event.sequenceNumber
  simpa using (List.pairwise_lt_range' (s := 1) (n := es.length)).sublist hsub

/-- The numbers of events that are numbered from one. -/
theorem Event.mem_of_numbered {es : List Event}
    (h : es.map Event.sequenceNumber = List.range' 1 es.length) {x : Event} (hx : x ∈ es) :
    1 ≤ x.sequenceNumber ∧ x.sequenceNumber ≤ es.length := by
  have hmem := h ▸ List.mem_map_of_mem (f := Event.sequenceNumber) hx
  have := List.mem_range'_1.mp hmem
  omega

/-- The first and the last number. -/
theorem Event.ends_of_numbered {first last : Event} {middle : List Event}
    (h : (first :: middle ++ [last]).map Event.sequenceNumber =
      List.range' 1 (first :: middle ++ [last]).length) :
    first.sequenceNumber = 1 ∧ last.sequenceNumber = (first :: middle ++ [last]).length := by
  constructor
  · simpa [List.range'_succ] using congrArg List.head? h
  · have hlast := congrArg List.getLast? h
    rw [List.map_append, List.map_singleton, List.getLast?_concat] at hlast
    simpa [List.getLast?_range', Nat.add_comm] using hlast

namespace Relay

/-- Nothing is received before an event of the program that comes before it. -/
theorem eq_nil_of_before {es : List Event} {x : Path × Event} {l₁ l₂ : List (Path × Event)}
    (h : (l₁ ++ x :: l₂).Pairwise fun x y => [x.2, y.2].Sublist es ∨ Path.Apart x.1 y.1)
    (hx : x.1 = []) (hleast : ∀ y ∈ l₁, ¬ [y.2, x.2].Sublist es) : l₁ = [] := by
  refine List.eq_nil_iff_forall_not_mem.mpr fun y hy => ?_
  rcases (List.pairwise_append.mp h).2.2 y hy x (List.mem_cons_self ..) with hyx | hyx
  · exact hleast y hy hyx
  · exact Path.not_apart_nil (hx ▸ hyx.symm)

/-- Nor after one that comes after it. -/
theorem eq_nil_of_after {es : List Event} {x : Path × Event} {l₁ l₂ : List (Path × Event)}
    (h : (l₁ ++ x :: l₂).Pairwise fun x y => [x.2, y.2].Sublist es ∨ Path.Apart x.1 y.1)
    (hx : x.1 = []) (hgreatest : ∀ y ∈ l₂, ¬ [x.2, y.2].Sublist es) : l₂ = [] := by
  refine List.eq_nil_iff_forall_not_mem.mpr fun y hy => ?_
  rcases (List.pairwise_cons.mp (List.pairwise_append.mp h).2.1).1 y hy with hxy | hxy
  · exact hgreatest y hy hxy
  · exact Path.not_apart_nil (hx ▸ hxy)

namespace Traces

variable {r : Relay (Except RunError Summary)} {es : List Event} {first last : Event}
  {middle : List Event}

/-- If nothing is in hand, everything was received. -/
theorem perm_events (h : r.Traces id base es) (hheld : r.held = []) : r.events.Perm es := by
  have honce := h.once
  rwa [hheld, List.append_nil] at honce

theorem order_received (h : r.Traces id base es) (hheld : r.held = []) :
    r.received.Pairwise fun x y => [x.2, y.2].Sublist es ∨ Path.Apart x.1 y.1 := by
  have horder := h.order
  rwa [hheld, List.append_nil] at horder

/-- Nothing but progress is announced by threads of workers. -/
theorem path_eq_nil (h : r.Traces id base es) {x : Path × Event} (hx : x ∈ r.received)
    (hp : ¬ x.2.data.IsProgress) : x.1 = [] := by
  by_contra hne
  exact hp (h.tells x (List.mem_append_left _ hx) hne)

/-- **The first and the last event of a run are received first and last**: the threads of workers
announce neither of them. -/
theorem exists_middle (h : r.Traces id base (first :: middle ++ [last])) (hheld : r.held = [])
    (hnumbers : (first :: middle ++ [last]).map Event.sequenceNumber =
      List.range' 1 (first :: middle ++ [last]).length)
    (hfirst : ¬ first.data.IsProgress) (hlast : ¬ last.data.IsProgress) :
    ∃ middle', r.events = first :: middle' ++ [last] ∧ middle'.Perm middle := by
  have honce := h.perm_events hheld
  have horder := h.order_received hheld
  obtain ⟨hone, hlen⟩ := Event.ends_of_numbered hnumbers
  have hmem (y : Path × Event) (hy : y ∈ r.received) :=
    Event.mem_of_numbered hnumbers (honce.mem_iff.mp (List.mem_map_of_mem hy))
  -- what comes before the first event would have a smaller number
  obtain ⟨x, hx, rfl⟩ : ∃ x ∈ r.received, x.2 = first :=
    List.mem_map.mp (honce.mem_iff.mpr (List.mem_cons_self ..))
  obtain ⟨l₁, l₂, hl⟩ := List.append_of_mem hx
  obtain rfl : l₁ = [] := by
    refine eq_nil_of_before (hl ▸ horder) (h.path_eq_nil hx hfirst) fun y hy hyx => ?_
    have hlt := Event.lt_of_numbered hnumbers hyx
    have hle := (hmem y (hl ▸ List.mem_append_left _ hy)).1
    omega
  -- and what comes after the last one, a greater one
  obtain ⟨z, hz, rfl⟩ : ∃ z ∈ r.received, z.2 = last :=
    List.mem_map.mp (honce.mem_iff.mpr (List.mem_append_right _ (List.mem_singleton_self _)))
  obtain ⟨l₃, l₄, hl'⟩ := List.append_of_mem hz
  obtain rfl : l₄ = [] := by
    refine eq_nil_of_after (hl' ▸ horder) (h.path_eq_nil hz hlast) fun y hy hzy => ?_
    have hlt := Event.lt_of_numbered hnumbers hzy
    have hle := (hmem y (hl' ▸ List.mem_append_right _ (List.mem_cons_of_mem _ hy))).2
    omega
  have hevents : r.events = x.2 :: l₂.map Prod.snd := congrArg (List.map Prod.snd) hl
  have hevents' : r.events = l₃.map Prod.snd ++ [z.2] := by
    rw [Relay.events, hl', List.map_append]
    rfl
  cases l₃ with
  | nil =>
    -- the two events are not the same
    have hcount := honce.length_eq
    rw [hevents'] at hcount
    simp at hcount
  | cons y l₃ =>
    have hxy : x.2 = y.2 := (List.cons.inj (hevents.symm.trans hevents')).1
    refine ⟨l₃.map Prod.snd, by rw [hevents', hxy]; rfl, ?_⟩
    rw [hevents', hxy] at honce
    exact (List.perm_append_right_iff _).mp honce.cons_inv

end Traces

end Relay

/-- **Every run ends with its last event.** A run of a workflow that is resolved, has no errors and
is not abstract, from a record that says `RUNNING` and a context that can be built, begins with
`workflow.started`. Its events have the numbers from one on, only the last of them ends the run, and
that agrees with what the run reports and with its record. Events come in the order of their
numbers, but for those of workers that work at the same time, which may overtake each other. Threads
move, hand on their events and are answered in any order; meanwhile others may cancel the run and
change its record, but for statuses other than from `RUNNING` to `CANCELLED`. -/
theorem run_closes {w : World} {e : Execution} {v : Workflow} {c : Context}
    {r : Relay (Except RunError Summary)} {result : Except RunError Summary}
    (hf : w.faults = []) (hrec : w.record? id = some e) (hrunning : e.status = .running)
    (hv : w.store.resolved e.workflowId = .ok v) (ha : v.isAbstract = false)
    (hc : Context.build engine e (w.store.getWorkItem? e.workItemId) v.vars = .ok c)
    (hrule : ∀ e e', rule e e' → e.MayBecome e')
    (hr : ReflTransGen (Relay.Step (.ofRun engine config id rule))
      (.ofProgram w (ExceptT.run (Orchestration.run engine id))) r)
    (hs : r.result? = some result) :
    r.Closed id (.started e.workflowId e.workItemId v.steps.length) v.steps.length result := by
  obtain ⟨⟨h, hrun⟩, es, htraces⟩ := Relay.traces_of_run hr
  obtain ⟨hheld, hresult⟩ := htraces.held_eq_nil hs
  obtain ⟨first, middle, last, e', hevents, hnumbers, hstart, hprogress, hrec', hclosing⟩ :=
    System.Run.closed hf hrec hrunning hv ha hc hrule hrun hresult
  obtain rfl : es = first :: middle ++ [last] :=
    List.append_cancel_left (htraces.events.symm.trans hevents)
  have hfirst : ¬ first.data.IsProgress := by
    rw [hstart]
    rintro ⟨⟩
  obtain ⟨middle', he, hperm⟩ :=
    htraces.exists_middle hheld hnumbers hfirst hclosing.not_isProgress
  have honce := htraces.perm_events hheld
  have hlen := honce.length_eq
  refine ⟨hheld, ?_, ?_, first, middle', last, e', he, ?_, ?_, hstart,
    fun x hx => hprogress x (hperm.mem_iff.mp hx), hrec', hclosing⟩
  · rw [hlen, ← hnumbers]
    exact honce.map _
  · exact (htraces.order_received hheld).imp fun h => h.imp_left (Event.lt_of_numbered hnumbers)
  · exact (Event.ends_of_numbered hnumbers).1
  · rw [hlen]
    exact (Event.ends_of_numbered hnumbers).2

/-- A run whose events are handed on. -/
def Relay.running (v : Workflow) : Relay (Except RunError Summary) :=
  .ofProgram (.holding v) (ExceptT.run (Orchestration.run .null ⟨1⟩))

namespace Relay.Choice

/-- A thread moves a number of times. -/
def moves (path : Path) (n : Nat) : List Relay.Choice := List.replicate n (.goOn (.move path))

/-- A simple step that is handed out has a response. -/
def respond (path : Path) : Relay.Choice := .goOn (.respond path true)

end Relay.Choice

open Relay.Choice in
/-- A run of a step that succeeds ends with its last event. -/
theorem run_closes_single : ∃ r result,
    ReflTransGen (Relay.Step (.ofRun .null {} ⟨1⟩ Eq))
      (.running (.single ⟨none, none, false⟩ false)) r ∧
    r.result? = some result ∧ r.Closed ⟨1⟩ (.started "w" "i" 1) 1 result := by
  have hplay : (((Relay.running (.single ⟨none, none, false⟩ false)).play (.ofRun .null {} ⟨1⟩ Eq)
      (moves [] 5 ++ handOn [] :: moves [] 7 ++ respond [] :: moves [] 4 ++ handOn [] ::
        moves [] 9 ++ handOn [] :: moves [] 1)).bind Relay.result?).isSome = true := by
    decide +kernel
  obtain ⟨result, hresult⟩ := Option.isSome_iff_exists.mp hplay
  obtain ⟨r, hr, hs⟩ := Option.bind_eq_some_iff.mp hresult
  have hr := Relay.reaches_of_play hr
  exact ⟨r, result, hr, hs,
    run_closes rfl rfl rfl rfl rfl rfl (fun e e' he => .inl (by rw [he])) hr hs⟩

/-- A parallel step of three steps, of which two may be under way at once. -/
def Workflow.siblings : Workflow :=
  let leaf (id : String) : Step :=
    .simple ⟨id, none, default⟩ ⟨.command, "run", [], none, none⟩
  { Workflow.single default false with
    steps := [.parallel ⟨"p", none, default⟩ ⟨some 2, false⟩ [leaf "a", leaf "b", leaf "c"]] }

/-- What is chosen to happen in a run, and the numbers of its events as they are received. -/
theorem Relay.exists_numbers (v : Workflow) (numbers : List Nat) (cs : List Choice)
    (h : ((running v).play (.ofRun .null {} ⟨1⟩ Eq) cs).any (fun r =>
      r.result?.isSome && r.events.map Event.sequenceNumber == numbers) = true) :
    ∃ r result, ReflTransGen (Step (.ofRun .null {} ⟨1⟩ Eq)) (running v) r ∧
      r.result? = some result ∧ r.events.map Event.sequenceNumber = numbers := by
  obtain ⟨r, hr, hs⟩ := (Option.any_eq_true _ _).mp h
  obtain ⟨hs, hnumbers⟩ := Bool.and_eq_true_iff.mp hs
  obtain ⟨result, hresult⟩ := Option.isSome_iff_exists.mp hs
  exact ⟨r, result, reaches_of_play hr, hresult, beq_iff_eq.mp hnumbers⟩

open Relay.Choice in
/-- An abstract workflow is resolved and has no errors, and still is not run: the run ends without
any event. And the events of two workers may be received in another order than that of their
numbers, here in a run that is cancelled before its third step. -/
theorem run_announces_nothing_or_out_of_order :
    ((∃ e v c, (World.holding (.single ⟨none, none, false⟩ true)).record? ⟨1⟩ = some e ∧
        e.status = .running ∧
        (World.holding (.single ⟨none, none, false⟩ true)).store.resolved e.workflowId = .ok v ∧
        Context.build .null e none v.vars = .ok c) ∧
      ∃ r result, ReflTransGen (Relay.Step (.ofRun .null {} ⟨1⟩ Eq))
        (.running (.single ⟨none, none, false⟩ true)) r ∧
        r.result? = some result ∧ r.events.map Event.sequenceNumber = []) ∧
    (∃ e v c, (World.holding .siblings).record? ⟨1⟩ = some e ∧ e.status = .running ∧
      (World.holding .siblings).store.resolved e.workflowId = .ok v ∧ v.isAbstract = false ∧
      Context.build .null e none v.vars = .ok c) ∧
    ∃ r result, ReflTransGen (Relay.Step (.ofRun .null {} ⟨1⟩ Eq)) (.running .siblings) r ∧
      r.result? = some result ∧ r.events.map Event.sequenceNumber = [1, 3, 2, 4] := by
  refine ⟨⟨⟨_, _, _, rfl, rfl, rfl, rfl⟩, ?_⟩, ⟨_, _, _, rfl, rfl, rfl, rfl, rfl⟩, ?_⟩
  · exact Relay.exists_numbers _ _ (moves [] 5) (by decide +kernel)
  · -- the second worker hands on its event before the first one does
    exact Relay.exists_numbers _ _ (moves [] 5 ++ handOn [] :: moves [] 6 ++ moves [0] 3 ++
      moves [1] 3 ++ respond [0] :: moves [0] 2 ++ .goOn .cancel :: respond [1] :: moves [1] 2 ++
      handOn [1] :: handOn [0] :: moves [0] 2 ++ moves [1] 2 ++ moves [] 5 ++ handOn [] ::
      moves [] 1) (by decide +kernel)

end WorkflowEngine
