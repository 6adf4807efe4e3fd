import WorkflowEngine.Run.Orchestration
import WorkflowEngine.Run.World

/-!
# What belongs to a run

In the world that runs share, a run has its record, its entry among the runs that have begun, and
its events. Requests and programs are described by what they do to these three.

## Main definitions

* `World.record?`, `World.active`, `World.eventsOf`: what belongs to a run
* `Request.notice?`, `Request.event?`: what is seen of a request
* `World.Like`: the entry and the events of a run are the same in another world
* `World.Ends`: a program that ends without waiting, and with what

## Main results

* `World.log_serve`, `World.eventsOf_serve`: what is seen after a request that is served
* `World.Ends.bind`, `World.Ends.bind_looked`: one program after the other
* `World.ends_load`, `World.ends_update`, `World.ends_resolve`, `World.ends_runnable`,
  `World.ends_runnable_resolved`: what the programs that runs are made of do
* `World.ends_cancel`: a run is cancelled, or is left alone with an error
-/

namespace WorkflowEngine

/-- The event that is seen, if it is one of a run. -/
def Notice.event? (id : Uuid) : Notice → Option Event
  | .event e => if e.executionId = id then some e else none
  | _ => none

namespace Store

/-- The workflows of a store as a catalog. -/
def catalog (s : Store) : Catalog := Dict.ofList (s.getWorkflows.map fun w => (w.id, w))

/-- The resolved workflow of an id, if it has no errors. -/
def resolved (s : Store) (id : String) : Except WorkflowError Workflow :=
  match s.catalog.resolve id with
  | .ok w => w.checked
  | .error e => .error (.lineage e)

end Store

namespace World

/-- The record of a run, if it can be found. -/
def record? (w : World) (id : Uuid) : Option Execution :=
  if w.isVisible id then w.store.getExecution? id else none

/-- The entry of a run among those that have begun. -/
def active (w : World) (id : Uuid) : List ActiveRun := w.runs.filter fun r => r.id = id

/-- The events of a run in the order in which their numbers were drawn. -/
def eventsOf (w : World) (id : Uuid) : List Event :=
  w.log.reverse.filterMap fun x => x.2.event? id

variable {w w' w'' : World} {id : Uuid}

theorem id_of_record? {e : Execution} (h : w.record? id = some e) : e.id = id := by
  unfold record? at h
  split at h
  · have := List.find?_some h
    simpa using this
  · cases h

/-- What becomes of the record of a run when all records change. -/
theorem record?_map (w : World) (f : Execution → Execution) (hf : ∀ e, (f e).id = e.id)
    (i : Uuid) :
    World.record? { w with store := { w.store with executions := w.store.executions.map f } } i =
      (w.record? i).map f := by
  have hfind : (w.store.executions.map f).find? (fun e => e.id == i) =
      (w.store.executions.find? fun e => e.id == i).map f := by
    rw [List.find?_map]
    simp only [Function.comp_def, hf]
  show (if w.isVisible i then (w.store.executions.map f).find? (fun e => e.id == i) else none) = _
  rw [hfind, record?]
  split
  · rfl
  · rfl

/-! ### The same run -/

/-- **Nothing has happened to a run but for its record.** Calls of the store that succeeded all go
on to do so. -/
structure Like (id : Uuid) (w w' : World) : Prop where
  active : w'.active id = w.active id
  events : w'.eventsOf id = w.eventsOf id
  faults : w.faults = [] → w'.faults = []

theorem Like.refl (id : Uuid) (w : World) : Like id w w := ⟨rfl, rfl, fun h => h⟩

theorem Like.trans (h : Like id w w') (h' : Like id w' w'') : Like id w w'' :=
  ⟨h'.active.trans h.active, h'.events.trans h.events, fun hf => h'.faults (h.faults hf)⟩

theorem isCancelled_eq (w : World) (id : Uuid) :
    w.isCancelled id = (w.active id).any ActiveRun.cancelled := by
  unfold isCancelled active
  rw [List.any_filter]
  rfl

theorem eventCount_eq (w : World) (id : Uuid) :
    w.eventCount id = ((w.active id).head?.map ActiveRun.events).getD 0 := by
  unfold eventCount active
  rw [List.head?_filter]
  rfl

theorem Like.isCancelled (h : Like id w w') : w'.isCancelled id = w.isCancelled id := by
  rw [isCancelled_eq, isCancelled_eq, h.active]

/-! ### Notices and runs -/

theorem eventsOf_note (n : Notice) :
    (w.note n).eventsOf id = w.eventsOf id ++ (n.event? id).toList := by
  unfold eventsOf note
  rw [List.reverse_cons, List.filterMap_append]
  cases h : n.event? id <;> simp [h]

theorem like_note {n : Notice} (h : n.event? id = none) : Like id w (w.note n) :=
  ⟨rfl, by rw [eventsOf_note, h]; exact List.append_nil _, fun h => h⟩

/-- The event by which a run announces what has happened next. -/
def nextEvent (w : World) (id : Uuid) (data : EventData) : Event :=
  .announce w.newId.1 id w.now (w.eventCount id + 1) data

end World

/-- What is seen of a request. -/
def Request.notice? (w : World) : Request → Option Notice
  | .emit i data => some (.event (w.nextEvent i data))
  | .report _ stepId error => some (.reported stepId error)
  | _ => none

/-- The event by which a request announces something in a run. -/
def Request.event? (id : Uuid) (w : World) : Request → Option Event
  | .emit i data => if i = id then some (w.nextEvent i data) else none
  | _ => none

namespace World

variable {w w' w'' : World} {id : Uuid}

/-- The entry of a run whose entry is changed. -/
theorem filter_map_entry (runs : List ActiveRun) (g : ActiveRun → ActiveRun)
    (hg : ∀ r, (g r).id = r.id) :
    (runs.map fun r => if r.id == id then g r else r).filter (fun r => r.id = id) =
      (runs.filter fun r => r.id = id).map g := by
  induction runs with
  | nil => rfl
  | cons r runs ih =>
    rw [List.map_cons]
    -- only the entry of the run is changed and only it is looked at
    by_cases hr : r.id = id
    · rw [List.filter_cons_of_pos (by simp [hr, hg]), List.filter_cons_of_pos (by simp [hr]), ih]
      simp [hr]
    · rw [List.filter_cons_of_neg (by simp [hr]), List.filter_cons_of_neg (by simp [hr]), ih]

theorem active_emit (data : EventData) :
    (w.emit id data).active id = (w.active id).map fun r => { r with events := r.events + 1 } :=
  filter_map_entry w.runs (fun r => { r with events := r.events + 1 }) fun _ => rfl

theorem eventsOf_emit (data : EventData) :
    (w.emit id data).eventsOf id = w.eventsOf id ++ [w.nextEvent id data] := by
  have h : ((w.newId.2.countEvent id).note (.event (w.nextEvent id data))).eventsOf id = _ :=
    eventsOf_note (.event (w.nextEvent id data))
  have he : (Notice.event (w.nextEvent id data)).event? id = some (w.nextEvent id data) :=
    if_pos rfl
  rw [he] at h
  exact h

theorem getLast?_eventsOf_emit (data : EventData) :
    ((w.emit id data).eventsOf id).getLast? = some (w.nextEvent id data) := by
  rw [eventsOf_emit, List.getLast?_concat]

/-- The entry of a run that has just begun. -/
theorem active_beginRun : (w.beginRun id).active id = [⟨id, false, 0⟩] := by
  unfold beginRun active
  rw [List.filter_cons_of_pos (by simp), List.filter_filter]
  simp

theorem active_cancelRun :
    (w.cancelRun id).active id = (w.active id).map fun r => { r with cancelled := true } :=
  filter_map_entry w.runs (fun r => { r with cancelled := true }) fun _ => rfl

/-! ### The store -/

/-- A call of the store only touches what is going to fail. -/
theorem countCall_eq (w : World) (call : StoreCall) :
    ∃ r faults, w.countCall call = (r, { w with faults }) ∧ (w.faults = [] → faults = []) ∧
      (r = .ok () ∨ w.faults ≠ [] ∧ ∃ e, r = .error e) := by
  unfold countCall
  cases hf : w.faults.lookup call with
  | none => exact ⟨_, w.faults, rfl, fun h => h, .inl rfl⟩
  | some n =>
    -- a call can only be about to fail where something is
    have hne : w.faults ≠ [] := by
      intro h
      rw [h] at hf
      cases hf
    cases n with
    | zero => exact ⟨_, _, rfl, fun h => absurd h hne, .inr ⟨hne, _, rfl⟩⟩
    | succ n => exact ⟨_, _, rfl, fun h => absurd h hne, .inl rfl⟩

/-- The store was only looked at. -/
structure Untouched (w w' : World) : Prop where
  store : w'.store = w.store
  log : w'.log = w.log
  record : ∀ id, w'.record? id = w.record? id
  like : ∀ id, Like id w w'
  same : w.faults = [] → w' = w

/-- **A call of the store that looks** tells what the store holds, unless it fails. -/
theorem look_eq {α : Type} (w : World) (call : StoreCall) (value : Store → α) :
    ∃ r w', w.look call value = (r, w') ∧ Untouched w w' ∧
      (r = .ok (value w.store) ∨ w.faults ≠ [] ∧ ∃ e, r = .error e) := by
  obtain ⟨r, faults, hw, hf, hr⟩ := w.countCall_eq call
  unfold look
  rw [hw]
  refine ⟨_, _, rfl, ⟨rfl, rfl, fun id => rfl, fun id => ⟨rfl, rfl, hf⟩, fun h => ?_⟩, ?_⟩
  · rw [hf h, ← h]
  rcases hr with rfl | ⟨hne, e, rfl⟩
  · exact .inl rfl
  · exact .inr ⟨hne, e, rfl⟩

/-- A call of the store that looks changes nothing. -/
theorem untouched_of_look {α : Type} {call : StoreCall} {value : Store → α}
    {r : Except StoreError α} (h : some (w.look call value) = some (r, w')) : Untouched w w' := by
  obtain ⟨r', w₁, hl, hw, -⟩ := w.look_eq call value
  cases hl.symm.trans (Option.some.inj h)
  exact hw

/-- Nothing is seen of a call of the store. -/
theorem log_change (w : World) (call : StoreCall) (result : Store → Except StoreError Store) :
    (w.change call result).2.log = w.log := by
  obtain ⟨r, faults, hw, -⟩ := w.countCall_eq call
  rw [change, hw]
  cases r with
  | error e => rfl
  | ok u =>
    dsimp only
    split <;> rfl

/-- **What is seen of a request** that is served. The store may fail, but nothing is seen of it. -/
theorem log_serve {r : Request} {reply : r.Reply} (hs : w.serve r = some (reply, w')) :
    w'.log = (r.notice? w).toList.map (w.clock, ·) ++ w.log := by
  cases r with
  | getWorkflows | getWorkflow | getExecution | getWorkItem => exact (untouched_of_look hs).log
  | createExecution e =>
    obtain rfl : _ = w' := congrArg Prod.snd (Option.some.inj hs)
    exact w.log_change .createExecution fun s => s.createExecution e
  | updateExecution e =>
    obtain rfl : _ = w' := congrArg Prod.snd (Option.some.inj hs)
    exact w.log_change .updateExecution fun s =>
      if w.isVisible e.id then s.updateExecution e else .error .notFound
  | runStep | execute | awaitApproval | delegate => cases hs
  | now | newId | beginRun | endRun | cancelRun | isCancelled | emit | report =>
    cases hs
    rfl

/-- What some of what is seen amounts to, after a request that is served. -/
theorem filterMap_log_serve {α : Type} (f : Notice → Option α) {r : Request} {reply : r.Reply}
    (hs : w.serve r = some (reply, w')) :
    w'.log.reverse.filterMap (fun x => f x.2) =
      w.log.reverse.filterMap (fun x => f x.2) ++ ((r.notice? w).bind f).toList := by
  rw [log_serve hs, List.reverse_append, List.filterMap_append]
  cases r.notice? w with
  | none => rfl
  | some n => cases h : f n <;> simp [h]

/-- **What is announced by a request** that is served. -/
theorem eventsOf_serve {r : Request} {reply : r.Reply} (hs : w.serve r = some (reply, w')) :
    w'.eventsOf id = w.eventsOf id ++ (r.event? id w).toList := by
  have hevent : (r.notice? w).bind (Notice.event? id) = r.event? id w := by cases r <;> rfl
  rw [← hevent]
  exact filterMap_log_serve (Notice.event? id) hs

/-- A record that is kept is found again. -/
theorem find?_update {executions : List Execution} {e old : Execution}
    (h : executions.find? (fun x => x.id == e.id) = some old) :
    (executions.map fun x => if x.id == e.id then e else x).find? (fun x => x.id == e.id) =
      some e := by
  induction executions with
  | nil => cases h
  | cons x xs ih =>
    rw [List.map_cons]
    -- the first record of the run is the one that is replaced
    by_cases hx : x.id = e.id
    · rw [List.find?_cons_of_pos (by simp [hx])]
      simp [hx]
    · rw [List.find?_cons_of_neg (by simp [hx])] at h
      rw [List.find?_cons_of_neg (by simp [hx])]
      exact ih h

/-- **A call of the store that keeps a record**: the record is the one of its run from then on,
unless the call fails. -/
theorem serve_updateExecution {e old : Execution} (h : w.record? e.id = some old) :
    ∃ r w', w.serve (.updateExecution e) = some (r, w') ∧ Like e.id w w' ∧
      (r = .ok () ∧ w'.record? e.id = some e ∨
        w.faults ≠ [] ∧ (∃ err, r = .error err) ∧ w'.record? e.id = w.record? e.id) := by
  obtain ⟨r, faults, hw, hf, hr⟩ := w.countCall_eq .updateExecution
  have hv : w.isVisible e.id = true := by
    unfold record? at h
    split at h
    · assumption
    · cases h
  have hs : w.store.getExecution? e.id = some old := by simpa [record?, hv] using h
  -- the store has the record already, so that it puts the new one in its place
  have hu : w.store.updateExecution e = .ok { w.store with
      executions := (w.store.executions.map fun x => if x.id == e.id then e else x) } := by
    rw [Store.updateExecution, hs]
    rfl
  rw [serve, change, hw]
  rcases hr with rfl | ⟨hne, err, rfl⟩
  · simp only [hv, if_true, hu]
    refine ⟨_, _, rfl, ⟨rfl, rfl, hf⟩, .inl ⟨rfl, ?_⟩⟩
    exact (if_pos hv).trans (find?_update hs)
  · exact ⟨_, _, rfl, ⟨rfl, rfl, hf⟩, .inr ⟨hne, ⟨err, rfl⟩, rfl⟩⟩

/-! ### Programs that do not wait -/

theorem perform_bind {α β : Type} (p : Program α) (f : α → Program β) :
    w.perform (p.bind f) = (w.perform p).bind fun (a, w') => w'.perform (f a) := by
  induction p generalizing w with
  | done a => rfl
  | ask r k ih =>
    simp only [Program.bind, perform]
    cases w.serve r with
    | none => rfl
    | some x => exact ih x.1

theorem perform_request {r : Request} {a : r.Reply} (h : w.serve r = some (a, w')) :
    w.perform (Program.request r) = some (a, w') := by
  rw [Program.request, perform, h]
  rfl

/-- **A program that ends without waiting**, and with what. -/
def Ends {α : Type} (w : World) (p : Orchestration α) (post : Except RunError α → World → Prop) :
    Prop :=
  ∃ r w', w.perform (ExceptT.run p) = some (r, w') ∧ post r w'

namespace Ends

variable {α β : Type} {p : Orchestration α} {post post' : Except RunError α → World → Prop}

theorem mono (h : w.Ends p post) (hp : ∀ r w', post r w' → post' r w') : w.Ends p post' := by
  obtain ⟨r, w', hr, h⟩ := h
  exact ⟨r, w', hr, hp r w' h⟩

theorem pure {a : α} (h : post (.ok a) w) : w.Ends (Pure.pure a : Orchestration α) post :=
  ⟨_, _, rfl, h⟩

theorem throw {e : RunError} (h : post (.error e) w) : w.Ends (throw e : Orchestration α) post :=
  ⟨_, _, rfl, h⟩

/-- One program after the other. -/
theorem bind {f : α → Orchestration β} {post' : Except RunError β → World → Prop}
    (h : w.Ends p post) (hok : ∀ a w', post (.ok a) w' → w'.Ends (f a) post')
    (herr : ∀ e w', post (.error e) w' → post' (.error e) w') : w.Ends (p >>= f) post' := by
  obtain ⟨r, w', hr, h⟩ := h
  -- the second program begins where the first one has ended, or is not begun
  have hb : w.perform (ExceptT.run (p >>= f)) =
      (w.perform (ExceptT.run p)).bind fun (r, w') => w'.perform (ExceptT.bindCont f r) :=
    perform_bind (ExceptT.run p) (ExceptT.bindCont f)
  rw [hr] at hb
  cases r with
  | ok a =>
    obtain ⟨r', w'', hr', h'⟩ := hok a w' h
    exact ⟨r', w'', hb.trans hr', h'⟩
  | error e => exact ⟨_, _, hb, herr e w' h⟩

/-- What cannot fail is done before the rest. -/
theorem lift_bind {r : Request} {a : r.Reply} {f : r.Reply → Orchestration β}
    {post : Except RunError β → World → Prop} (h : w.serve r = some (a, w'))
    (hf : w'.Ends (f a) post) :
    w.Ends (Orchestration.lift (Program.request r) >>= f) post := by
  obtain ⟨r', w'', hr', h'⟩ := hf
  refine ⟨r', w'', ?_, h'⟩
  have hp : w.perform (ExceptT.run (Orchestration.lift (Program.request r) >>= f)) =
      (w.serve r).bind fun (a, w') => w'.perform (ExceptT.run (f a)) := by
    show w.perform (.ask r fun a => ExceptT.run (f a)) = _
    rw [perform]
    cases w.serve r <;> rfl
  rw [hp, h]
  exact hr'

end Ends

/-- A call of the store has failed. -/
def Fails {α : Type} (w : World) (r : Except RunError α) : Prop :=
  w.faults ≠ [] ∧ ∃ e, r = .error (.store e)

/-- A program that looks, and then another one. -/
theorem Ends.bind_looked {α β : Type} {p : Orchestration α} {x : α} {f : α → Orchestration β}
    {post : Except RunError β → World → Prop}
    (h : w.Ends p fun r w' => Untouched w w' ∧ (r = .ok x ∨ w.Fails r))
    (hok : ∀ w', Untouched w w' → w'.Ends (f x) post)
    (herr : ∀ e w', Untouched w w' → w.faults ≠ [] → post (.error (.store e)) w') :
    w.Ends (p >>= f) post := by
  refine h.bind ?_ ?_
  · rintro a w' ⟨hw, ha | ⟨-, e, ha⟩⟩
    · cases ha
      exact hok w' hw
    · cases ha
  · rintro err w' ⟨hw, he | ⟨hne, e, he⟩⟩
    · cases he
    · cases he
      exact herr e w' hw hne

/-- Without failing calls of the store, looking leaves the world as it is. -/
theorem Ends.of_faults {α : Type} {p : Orchestration α} {x : Except RunError α}
    (h : w.Ends p fun r w' => Untouched w w' ∧ (r = x ∨ w.Fails r)) (hf : w.faults = []) :
    w.Ends p fun r w' => r = x ∧ w' = w := by
  refine h.mono ?_
  rintro r w' ⟨hw, hr | ⟨hne, -⟩⟩
  · exact ⟨hr, hw.same hf⟩
  · exact absurd hf hne

/-- What cannot fail is done. -/
theorem ends_lift {α : Type} {p : Program α} {a : α} (hp : w.perform p = some (a, w')) :
    w.Ends (Orchestration.lift p) fun r w'' => r = .ok a ∧ w'' = w' :=
  ⟨_, _, (perform_bind p _).trans (by rw [hp]; rfl), rfl, rfl⟩

/-- Asking the store for what it holds. -/
theorem ends_stored_look {α : Type} {p : Program (Except StoreError α)} (call : StoreCall)
    (value : Store → α) (hp : w.perform p = some (w.look call value)) :
    w.Ends (Orchestration.stored p) fun r w' => Untouched w w' ∧
      (r = .ok (value w.store) ∨ w.Fails r) := by
  obtain ⟨r, w', hl, hw, hr⟩ := w.look_eq call value
  refine ⟨_, w', (perform_bind p _).trans (by rw [hp, hl]; rfl), hw, ?_⟩
  rcases hr with rfl | ⟨hne, e, rfl⟩
  · exact .inl rfl
  · exact .inr ⟨hne, e, rfl⟩

/-- Asking the store for the record of a run. -/
theorem ends_getExecution (w : World) (id : Uuid) :
    w.Ends (Orchestration.stored (Program.request (.getExecution id))) fun r w' =>
      Untouched w w' ∧ (r = .ok (w.record? id) ∨ w.Fails r) :=
  ends_stored_look .getExecution (fun s => if w.isVisible id then s.getExecution? id else none) rfl

/-- The record that is loaded is that of the run. -/
theorem ends_load_found (w : World) (id : Uuid) :
    w.Ends (Orchestration.load id) fun r w' => Untouched w w' ∧
      ∀ e, r = .ok e → w.record? id = some e := by
  refine (ends_getExecution w id).bind_looked (fun w' hw => ?_) fun e w' hw _ =>
    ⟨hw, fun e he => by cases he⟩
  cases hr : w.record? id with
  | none => exact .throw ⟨hw, fun e he => by cases he⟩
  | some e => exact .pure ⟨hw, fun e' he => by cases he; rfl⟩

/-- **The record of a run is loaded.** -/
theorem ends_load {e : Execution} (h : w.record? id = some e) :
    w.Ends (Orchestration.load id) fun r w' => Untouched w w' ∧ (r = .ok e ∨ w.Fails r) := by
  refine (ends_getExecution w id).bind_looked (fun w' hw => ?_) fun err w' hw hne =>
    ⟨hw, .inr ⟨hne, err, rfl⟩⟩
  rw [h]
  exact .pure ⟨hw, .inl rfl⟩

/-- **The record of a run is kept as it is after a change.** -/
theorem ends_update {e old : Execution} (change : Execution → Timestamp → Execution)
    (h : w.record? id = some old) (hid : (change e w.now).id = id) :
    w.Ends (Orchestration.update e change) fun r w' => Like id w w' ∧
      (r = .ok (change e w.now) ∧ w'.record? id = some (change e w.now) ∨
        w.Fails r ∧ w'.record? id = w.record? id) := by
  refine .lift_bind rfl ?_
  have hold : w.record? (change e w.now).id = some old := by rw [hid, h]
  obtain ⟨r, w', hs, hlike, hr⟩ := serve_updateExecution hold
  rw [hid] at hlike hr
  -- the call itself: what the store says is what the program ends with
  have hp : w.Ends (Orchestration.stored (Program.request (.updateExecution (change e w.now))))
      fun r' w'' => w'' = w' ∧ r' = r.mapError .store := by
    exact ⟨_, w', (perform_bind _ _).trans (congrArg (Option.bind · _) (perform_request hs)), rfl,
      rfl⟩
  refine hp.bind ?_ ?_
  · rintro a w'' ⟨rfl, ha⟩
    rcases hr with ⟨rfl, hw⟩ | ⟨-, ⟨err, rfl⟩, -⟩
    · exact .pure ⟨hlike, .inl ⟨rfl, hw⟩⟩
    · cases ha
  · rintro a w'' ⟨rfl, ha⟩
    rcases hr with ⟨rfl, hw⟩ | ⟨hne, ⟨err, rfl⟩, hw⟩
    · cases ha
    · cases ha
      exact ⟨hlike, .inr ⟨⟨hne, err, rfl⟩, hw⟩⟩

/-- A record is kept as it is after a change, and then another program is run. -/
theorem ends_update_bind {β : Type} {e old : Execution}
    (change : Execution → Timestamp → Execution) {f : Execution → Orchestration β}
    {post : Except RunError β → World → Prop} (h : w.record? id = some old)
    (hid : (change e w.now).id = id)
    (hok : ∀ w', Like id w w' → w'.record? id = some (change e w.now) →
      w'.Ends (f (change e w.now)) post)
    (herr : ∀ err w', Like id w w' → w.faults ≠ [] → w'.record? id = w.record? id →
      post (.error (.store err)) w') :
    w.Ends (Orchestration.update e change >>= f) post := by
  refine (ends_update change h hid).bind ?_ ?_
  · rintro a w' ⟨hl, ⟨ha, hr⟩ | ⟨⟨-, err, ha⟩, -⟩⟩
    · cases ha
      exact hok w' hl hr
    · cases ha
  · rintro err w' ⟨hl, ⟨he, -⟩ | ⟨⟨hne, e, he⟩, hr⟩⟩
    · cases he
    · cases he
      exact herr e w' hl hne hr

/-- **A run is cancelled**, or is left alone with an error. -/
theorem ends_cancel {e : Execution} (h : w.record? id = some e) :
    w.Ends (Orchestration.cancel id) fun r w' =>
      w'.eventsOf id = w.eventsOf id ∧ (w.faults = [] → w'.faults = []) ∧
        ((r = .ok () ∧ e.status = .running ∧
            w'.active id = (w.active id).map (fun r => { r with cancelled := true }) ∧
            ∃ now, w'.record? id = some (e.finish .cancelled now)) ∨
          (∃ err, r = .error err) ∧ w'.active id = w.active id ∧ w'.record? id = some e) := by
  refine (ends_load h).bind_looked (fun w₁ hw => ?_) fun err w₁ hw _ => ?_
  · have hlike := hw.like id
    have hrec := (hw.record id).trans h
    cases hs : e.status with
    | running =>
      -- the record of a running run is kept as cancelled first, and then the run is told
      have hid : (e.finish .cancelled w₁.now).id = id := (id_of_record? hrec :)
      refine ends_update_bind (fun e now => e.finish .cancelled now) hrec hid
        (fun w₂ hlike₂ hrec₂ => ?_) fun err w₂ hlike₂ _ hrec₂ => ?_
      · refine .lift_bind (r := .cancelRun id) rfl ?_
        refine .pure ⟨?_, ?_, .inl ⟨rfl, rfl, ?_, _, hrec₂⟩⟩
        · exact hlike₂.events.trans hlike.events
        · exact fun hf => hlike₂.faults (hlike.faults hf)
        · rw [active_cancelRun, hlike₂.active, hlike.active]
      · exact ⟨hlike₂.events.trans hlike.events, fun hf => hlike₂.faults (hlike.faults hf),
          .inr ⟨⟨_, rfl⟩, hlike₂.active.trans hlike.active, hrec₂.trans hrec⟩⟩
    | _ =>
      exact .throw ⟨hlike.events, hlike.faults, .inr ⟨⟨_, rfl⟩, hlike.active, hrec⟩⟩
  · exact ⟨(hw.like id).events, (hw.like id).faults,
      .inr ⟨⟨_, rfl⟩, (hw.like id).active, (hw.record id).trans h⟩⟩

/-- The workflows of the store are asked for. -/
theorem ends_catalog (w : World) : w.Ends Orchestration.catalog fun r w' => Untouched w w' ∧
    (r = .ok w.store.catalog ∨ w.Fails r) := by
  have hget := ends_stored_look (w := w) (p := Program.request .getWorkflows) .getWorkflows
    Store.getWorkflows rfl
  exact hget.bind_looked (fun w' hw => .pure ⟨hw, .inl rfl⟩) fun e w' hw hne =>
    ⟨hw, .inr ⟨hne, e, rfl⟩⟩

/-- **The resolved workflow of an id**, if it has no errors. -/
theorem ends_resolve (w : World) (workflowId : String) :
    w.Ends (Orchestration.resolve workflowId) fun r w' => Untouched w w' ∧
      (r = (w.store.resolved workflowId).mapError .workflow ∨ w.Fails r) := by
  refine w.ends_catalog.bind_looked (fun w' hw => ?_) fun e w' hw hne => ⟨hw, .inr ⟨hne, e, rfl⟩⟩
  unfold Store.resolved
  cases w.store.catalog.resolve workflowId with
  | error e => exact .throw ⟨hw, .inl rfl⟩
  | ok v => exact ⟨_, w', rfl, hw, .inl rfl⟩

/-- **The workflow that a run runs is the resolved one**, unless that is abstract. -/
theorem ends_runnable (w : World) (workflowId : String) :
    w.Ends (Orchestration.runnable workflowId) fun r w' => Untouched w w' ∧
      (r = (match w.store.resolved workflowId with
        | .ok v => if v.isAbstract then .error (.workflow (.notRunnable v.id)) else .ok v
        | .error e => .error (.workflow e)) ∨ w.Fails r) := by
  have hresolve := w.ends_resolve workflowId
  cases hs : w.store.resolved workflowId with
  | ok v =>
    rw [hs] at hresolve
    refine hresolve.bind_looked (fun w' hw => ?_) fun e w' hw hne => ⟨hw, .inr ⟨hne, e, rfl⟩⟩
    cases hv : v.isAbstract with
    | true => exact .throw ⟨hw, .inl (by simp [hv])⟩
    | false => exact .pure ⟨hw, .inl (by simp [hv])⟩
  | error e =>
    rw [hs] at hresolve
    refine hresolve.bind ?_ ?_
    · rintro v w' ⟨-, hr | ⟨-, e', hr⟩⟩ <;> cases hr
    · rintro err w' ⟨hw, hr | ⟨hne, e', hr⟩⟩
      · cases hr
        exact ⟨hw, .inl rfl⟩
      · cases hr
        exact ⟨hw, .inr ⟨hne, e', rfl⟩⟩

/-- A run is given nothing but the resolved workflow. -/
theorem ends_runnable_resolved (w : World) (workflowId : String) :
    w.Ends (Orchestration.runnable workflowId) fun r w' => Untouched w w' ∧
      ∀ v, r = .ok v → w.store.resolved workflowId = .ok v := by
  refine (w.ends_runnable workflowId).mono ?_
  rintro r w' ⟨hw, hr⟩
  refine ⟨hw, fun v hv => ?_⟩
  rcases hr with hr | ⟨-, err, hr⟩
  · rw [hv] at hr
    cases hs : w.store.resolved workflowId with
    | error e => simp only [hs, reduceCtorEq] at hr
    | ok u =>
      cases ha : u.isAbstract <;> simp only [hs, ha, reduceCtorEq, Bool.false_eq_true, if_true,
        if_false, Except.ok.injEq] at hr
      rw [hr]
  · cases hv.symm.trans hr

end World

end WorkflowEngine
