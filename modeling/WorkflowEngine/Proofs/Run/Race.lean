import Mathlib.Logic.Function.Basic
import WorkflowEngine.Proofs.Run.Heed

/-!
# Cancelling against a run

A run and someone who cancels it share the record, and both load it, change it and keep it whole.
They take turns in any order, each call of the store being a turn of its own, and the store compares
nothing: what is kept may come from a record that the other one has changed meanwhile. Then that
change is lost. This is the only way to lose one. As long as nobody keeps a record that the other
one has changed since it was loaded, results stay, a run that is over stays so, and a run that was
cancelled is neither completed nor fails.

## Main definitions

* `Race`: a run and someone who cancels it
* `Turn`: whose turn it was, and what was done with the record
* `Race.Step`, `Race.Run`: one turn, and the turns of a race
* `Turn.Fresh`: nobody keeps a record that the other one has changed since it was loaded
* `Race.Fair`: what holds after fresh turns

## Main results

* `Race.Fair.step`: a fresh turn only lets the record grow
* `race_loses_nothing`: so do fresh turns, and a run that was cancelled stays so
* `cancel_loses_to_run`: other turns bring a cancelled run to completion, or lose a result
-/

namespace WorkflowEngine

/-- Those who take part in a race. -/
inductive Party where
  | run
  | canceller
deriving DecidableEq

/-- What is done with the record of a run. -/
inductive Deed where
  | loads
  | keeps
  | other
deriving DecidableEq

/-- Whose turn it was, and what was done with the record. -/
structure Turn where
  party : Party
  deed : Deed
deriving DecidableEq

/-- What is done with the record of a run by a request, when this is the reply. -/
def Request.deed (id : Uuid) : (r : Request) → r.Reply → Deed
  | .getExecution i, .ok (some _) => if i = id then .loads else .other
  | .updateExecution e, .ok () => if e.id = id then .keeps else .other
  | _, _ => .other

/-- What a program is about to do with the record of a run. -/
def Program.deed {α : Type} (id : Uuid) (w : World) : Program α → Deed
  | .done _ => .other
  | .ask r _ =>
    match w.serve r with
    | some (reply, _) => r.deed id reply
    | none => .other

/-- What the program of a system is about to do with the record of a run. -/
def System.deed {α : Type} (id : Uuid) (s : System α) : Deed :=
  match s.main with
  | .program p => p.deed id s.world
  | .stepping .. => .other

/-- A run, and someone who cancels it in the same world. -/
structure Race where
  run : System (Except RunError Summary)
  canceller : Program (Except RunError Unit)

namespace Race

/-- A race that begins. -/
def start (engine : Expr.Engine) (id : Uuid) (w : World) : Race :=
  ⟨.ofProgram w (ExceptT.run (Orchestration.run engine id)),
    ExceptT.run (Orchestration.cancel id)⟩

/-- **One turn**: the run does something, or whoever cancels it asks for one thing. -/
inductive Step (S : Surroundings) : Race → Turn → Race → Prop where
  | run {s s' c x} (h : System.Step S s x s') (hx : x.isOwn = true) :
      Step S ⟨s, c⟩ ⟨.run, s.deed S.id⟩ ⟨s', c⟩
  | cancel {s : System (Except RunError Summary)} {r k reply w'}
      (h : s.world.serve r = some (reply, w')) :
      Step S ⟨s, .ask r k⟩ ⟨.canceller, r.deed S.id reply⟩ ⟨{ s with world := w' }, k reply⟩

/-- **The turns of a race.** -/
inductive Run (S : Surroundings) : Race → List Turn → Race → Prop where
  | refl (r) : Run S r [] r
  | step {r t r' h r''} (hs : Step S r t r') (hr : Run S r' h r'') : Run S r (t :: h) r''

end Race

namespace Turn

/-- Who knows the record as it is after a turn: whoever has loaded it does, and whoever keeps it
leaves the others behind. -/
def after (t : Turn) (current : Party → Bool) (q : Party) : Bool :=
  match t.deed with
  | .loads => q = t.party || current q
  | .keeps => q = t.party && current q
  | .other => current q

/-- **Nobody keeps a record that others have changed since it was loaded.** -/
def Fresh (current : Party → Bool) : List Turn → Prop
  | [] => True
  | t :: h => (t.deed = .keeps → current t.party = true) ∧ Fresh (t.after current) h

instance decidableFresh : (current : Party → Bool) → (h : List Turn) → Decidable (Fresh current h)
  | _, [] => isTrue trivial
  | current, t :: h =>
    have := decidableFresh (t.after current) h
    inferInstanceAs (Decidable ((t.deed = .keeps → current t.party = true) ∧ _))

/-- Whose turn it was not has not come to know the record, and is left behind if it was kept. -/
theorem current_of_after {t : Turn} {current : Party → Bool} {q : Party} (hq : q ≠ t.party)
    (h : t.after current q = true) : t.deed ≠ .keeps ∧ current q = true := by
  unfold after at h
  cases hd : t.deed with
  | loads => exact ⟨nofun, by simpa [hd, hq] using h⟩
  | keeps => simp [hd, hq] at h
  | other => exact ⟨nofun, by simpa [hd] using h⟩

end Turn

namespace World

variable {id : Uuid} {w w' w'' : World} {base : List Event}

/-- The record of a run has only gained. -/
def Grows (id : Uuid) (w w' : World) : Prop :=
  ∀ e, w.record? id = some e → ∃ e', w'.record? id = some e' ∧ e.Grows e'

theorem Grows.of_eq (h : w'.record? id = w.record? id) : Grows id w w' :=
  fun e he => ⟨e, h.trans he, .refl e⟩

theorem Grows.trans (h : Grows id w w') (h' : Grows id w' w'') : Grows id w w'' := by
  intro e he
  obtain ⟨e₁, h₁, hg₁⟩ := h e he
  obtain ⟨e₂, h₂, hg₂⟩ := h' e₁ h₁
  exact ⟨e₂, h₂, hg₁.trans hg₂⟩

/-- The record of a run says that it is over, by this status. -/
def IsOver (id : Uuid) (w : World) (st : Status) : Prop :=
  st.isTerminal = true ∧ ∃ e, w.record? id = some e ∧ e.status = st

theorem IsOver.grows {st : Status} (h : IsOver id w st) (hg : Grows id w w') :
    IsOver id w' st := by
  obtain ⟨hst, e, he, rfl⟩ := h
  obtain ⟨e', he', hg⟩ := hg e he
  exact ⟨hst, e', he', hg.status hst⟩

/-- A run was said to be completed or to have failed only if its record says so. -/
def Honest (id : Uuid) (base : List Event) (w : World) : Prop :=
  ∃ es, w.eventsOf id = base ++ es ∧
    ∀ x ∈ es, x.data.Concludes → ∃ st, IsOver id w st ∧ st ≠ .cancelled

/-- More is announced while the record grows. -/
theorem Honest.grows {es : List Event} (h : Honest id base w) (hg : Grows id w w')
    (he : w'.eventsOf id = w.eventsOf id ++ es)
    (hes : ∀ x ∈ es, x.data.Concludes → ∃ st, IsOver id w' st ∧ st ≠ .cancelled) :
    Honest id base w' := by
  obtain ⟨es₀, h₀, hall⟩ := h
  refine ⟨es₀ ++ es, by rw [he, h₀, List.append_assoc], fun x hx hd => ?_⟩
  rcases List.mem_append.mp hx with hx | hx
  · obtain ⟨st, hst, hne⟩ := hall x hx hd
    exact ⟨st, hst.grows hg, hne⟩
  · exact hes x hx hd

/-! ### Serving -/

/-- **What serving a request does to a run**: its record is loaded or kept, or stays as it is. -/
inductive Serves (id : Uuid) (w w' : World) : (r : Request) → r.Reply → Prop where
  | loads {e} (hr : w.record? id = some e) (hr' : w'.record? id = some e)
      (he : w'.eventsOf id = w.eventsOf id) :
      Serves id w w' (.getExecution id) (Except.ok (some e) : Except StoreError (Option Execution))
  | keeps {e} (hid : e.id = id) (hr : w'.record? id = some e)
      (he : w'.eventsOf id = w.eventsOf id) :
      Serves id w w' (.updateExecution e) (Except.ok () : Except StoreError Unit)
  | emits {data} (hr : w'.record? id = w.record? id)
      (he : w'.eventsOf id = w.eventsOf id ++ [w.nextEvent id data]) :
      Serves id w w' (.emit id data) ()
  | other {r reply} (hd : r.deed id reply = .other) (hk : ∀ k : Hold, k.after r reply = k)
      (hr : w'.record? id = w.record? id) (he : w'.eventsOf id = w.eventsOf id) :
      Serves id w w' r reply

theorem Serves.of_untouched {r : Request} {reply : r.Reply} (h : Untouched w w')
    (hd : r.deed id reply = .other) (hk : ∀ k : Hold, k.after r reply = k) :
    Serves id w w' r reply :=
  .other hd hk (h.record id) (h.like id).events

/-- What is told is the record of the run, if there is one and the call does not fail. -/
theorem serve_getExecution {reply : Except StoreError (Option Execution)}
    (hs : w.serve (.getExecution id) = some (reply, w')) :
    Untouched w w' ∧ (reply = .ok (w.record? id) ∨ ∃ err, reply = .error err) := by
  obtain ⟨x, w₁, hl, hw, hx⟩ := w.look_eq .getExecution fun s =>
    if w.isVisible id then s.getExecution? id else none
  cases (congrArg some hl).symm.trans hs
  exact ⟨hw, hx.imp_right fun h => h.2⟩

/-- A record that cannot be found is not kept. -/
theorem serve_updateExecution_of_none {e : Execution} {reply : Except StoreError Unit}
    (h : w.record? e.id = none) (hs : w.serve (.updateExecution e) = some (reply, w')) :
    (∃ err, reply = .error err) ∧ Untouched w w' := by
  obtain ⟨r, faults, hw, hf, -⟩ := w.countCall_eq .updateExecution
  have huntouched : Untouched w { w with faults } :=
    ⟨rfl, rfl, fun _ => rfl, fun _ => ⟨rfl, rfl, hf⟩, fun h => by rw [hf h, ← h]⟩
  rw [serve, change, hw] at hs
  cases r with
  | error err =>
    cases hs
    exact ⟨⟨err, rfl⟩, huntouched⟩
  | ok u =>
    have hu : (if w.isVisible e.id then w.store.updateExecution e
        else .error .notFound) = .error .notFound := by
      unfold record? at h
      split at h
      next hv => rw [if_pos hv, Store.updateExecution, h]; rfl
      next hv => rw [if_neg hv]
    simp only [hu] at hs
    cases hs
    exact ⟨⟨_, rfl⟩, huntouched⟩

/-- **What serving a proper request does to a run.** -/
theorem serves_of_serve {k : Hold} {r : Request} {reply : r.Reply} (hp : r.Proper id k)
    (hk : ∀ e, k.loaded = some e → e.id = id) (hs : w.serve r = some (reply, w')) :
    Serves id w w' r reply := by
  cases r with
  | getWorkflows | getWorkflow | getWorkItem =>
    exact .of_untouched (untouched_of_look hs) rfl fun _ => rfl
  | getExecution i =>
    obtain rfl : i = id := hp
    obtain ⟨hw, rfl | ⟨err, rfl⟩⟩ := serve_getExecution hs
    · cases hr : w.record? i with
      | none => exact .of_untouched hw rfl fun _ => rfl
      | some e => exact .loads hr ((hw.record i).trans hr) (hw.like i).events
    · exact .of_untouched hw rfl fun _ => rfl
  | updateExecution e' =>
    obtain ⟨e, he, hg⟩ := hp
    obtain rfl : e'.id = id := hg.id.trans (hk e he)
    cases hr : w.record? e'.id with
    | none =>
      obtain ⟨⟨err, rfl⟩, hw⟩ := serve_updateExecution_of_none hr hs
      exact .of_untouched hw rfl fun _ => rfl
    | some old =>
      obtain ⟨x, w₁, hs', hl, hx⟩ := serve_updateExecution hr
      cases hs'.symm.trans hs
      rcases hx with ⟨rfl, hr'⟩ | ⟨-, ⟨err, rfl⟩, hr'⟩
      · exact .keeps rfl hr' hl.events
      · exact .other rfl (fun _ => rfl) hr' hl.events
  | emit i data =>
    cases hs
    obtain ⟨rfl, -⟩ := hp
    exact .emits rfl (eventsOf_emit data)
  | createExecution e => cases hp
  | report i s err =>
    cases hs
    exact .other rfl (fun _ => rfl) rfl (like_note rfl).events
  | runStep | execute | awaitApproval | delegate => cases hs
  | _ =>
    cases hs
    exact .other rfl (fun _ => rfl) rfl rfl

/-- The record that is told is the one that was asked for. -/
theorem fits_of_serve {r : Request} {reply : r.Reply} (hs : w.serve r = some (reply, w')) :
    r.Fits reply := by
  cases r with
  | getExecution i =>
    obtain ⟨-, rfl | ⟨err, rfl⟩⟩ := serve_getExecution hs
    · cases hr : w.record? i with
      | none => trivial
      | some e => exact id_of_record? hr
    · trivial
  | _ => trivial

end World

/-! ### What the parties know -/

/-- **What a party knows is true**: what it has loaded is the record as it is, unless others have
changed that since, and a run that it has ended is over. -/
structure Hold.IsTrue (k : Hold) (id : Uuid) (w : World) (current : Bool) : Prop where
  ofRun : ∀ e, k.loaded = some e → e.id = id
  loaded : ∀ e, k.loaded = some e → current = true → w.record? id = some e
  ended : ∀ st, k.ended = some st → w.IsOver id st

/-- Who has loaded and ended nothing knows nothing that is not true. -/
theorem Hold.isTrue_none (id : Uuid) (w : World) (current : Bool) :
    Hold.IsTrue ⟨none, none⟩ id w current := by
  constructor <;> rintro _ ⟨⟩

namespace Hold.IsTrue

variable {k : Hold} {id : Uuid} {w w' : World} {current current' : Bool} {e : Execution}

theorem grows (h : k.IsTrue id w current) (hg : w.Grows id w')
    (hc : current' = true → current = true ∧ w'.record? id = w.record? id) :
    k.IsTrue id w' current' := by
  refine ⟨h.ofRun, fun e he hc' => ?_, fun st hst => (h.ended st hst).grows hg⟩
  obtain ⟨hc, hr⟩ := hc hc'
  exact hr.trans (h.loaded e he hc)

/-- The party loads the record. -/
theorem load (h : k.IsTrue id w current) (hg : w.Grows id w') (hr : w'.record? id = some e) :
    Hold.IsTrue { k with loaded := some e } id w' current' := by
  refine ⟨?_, ?_, fun st hst => (h.ended st hst).grows hg⟩
  · rintro _ ⟨⟩
    exact World.id_of_record? hr
  · rintro _ ⟨⟩ -
    exact hr

/-- The party keeps a record. -/
theorem keep (h : k.IsTrue id w current) (hg : w.Grows id w') (hr : w'.record? id = some e) :
    Hold.IsTrue ⟨none, if e.status.isTerminal then some e.status else k.ended⟩ id w' current' := by
  refine ⟨by rintro _ ⟨⟩, by rintro _ ⟨⟩, fun st hst => ?_⟩
  by_cases ht : e.status.isTerminal = true
  · obtain rfl : e.status = st := Option.some.inj ((if_pos ht).symm.trans hst)
    exact ⟨ht, e, hr, rfl⟩
  · exact (h.ended st ((if_neg ht).symm.trans hst)).grows hg

end Hold.IsTrue

namespace World

variable {id : Uuid} {w w' : World} {base : List Event} {current : Party → Bool}
  {k : Party → Hold}

/-- **What the parties know and what was announced is true.** -/
structure Agrees (id : Uuid) (base : List Event) (current : Party → Bool) (k : Party → Hold)
    (w : World) : Prop where
  knows : ∀ q, (k q).IsTrue id w (current q)
  honest : w.Honest id base

/-- More is announced while the record stays as it is. -/
theorem Agrees.announce {es : List Event} (h : Agrees id base current k w)
    (hr : w'.record? id = w.record? id) (he : w'.eventsOf id = w.eventsOf id ++ es)
    (hes : ∀ x ∈ es, x.data.Concludes → ∃ st, w'.IsOver id st ∧ st ≠ .cancelled) :
    Agrees id base current k w' ∧ w.Grows id w' :=
  have hg := Grows.of_eq hr
  ⟨⟨fun q => (h.knows q).grows hg fun hc => ⟨hc, hr⟩, h.honest.grows hg he hes⟩, hg⟩

/-- What the other party knows is still true after a turn of one of them. -/
theorem Agrees.update {t : Turn} {k' : Hold} (h : Agrees id base current k w)
    (hg : w.Grows id w') (hk : k'.IsTrue id w' (t.after current t.party))
    (hr : t.deed ≠ .keeps → w'.record? id = w.record? id)
    (he : w'.eventsOf id = w.eventsOf id) :
    Agrees id base (t.after current) (Function.update k t.party k') w' := by
  refine ⟨fun q => ?_, h.honest.grows hg (he.trans (List.append_nil _).symm) nofun⟩
  by_cases hq : q = t.party
  · rw [hq, Function.update_self]
    exact hk
  · rw [Function.update_of_ne hq]
    refine (h.knows q).grows hg fun hc => ?_
    obtain ⟨hd, hc⟩ := Turn.current_of_after hq hc
    exact ⟨hc, hr hd⟩

/-- **The turn of a party that asks for something proper** lets the record grow, unless it keeps a
record that others have changed since it was loaded. -/
theorem Agrees.serve {p : Party} {r : Request} {reply : r.Reply} (h : Agrees id base current k w)
    (hp : r.Proper id (k p)) (hs : w.serve r = some (reply, w'))
    (hf : r.deed id reply = .keeps → current p = true) :
    Agrees id base (Turn.after ⟨p, r.deed id reply⟩ current)
      (Function.update k p ((k p).after r reply)) w' ∧ w.Grows id w' := by
  cases serves_of_serve hp (h.knows p).ofRun hs with
  | @loads e hr hr' he =>
    have hg : w.Grows id w' := .of_eq (hr'.trans hr.symm)
    exact ⟨h.update hg ((h.knows p).load hg hr') (fun _ => hr'.trans hr.symm) he, hg⟩
  | @keeps e hid hr he =>
    have hd : Request.deed id (.updateExecution e) (Except.ok () : Except StoreError Unit) =
        .keeps := if_pos hid
    -- the record is still the one that was loaded
    obtain ⟨e₀, he₀, hg₀⟩ := hp
    have hr₀ := (h.knows p).loaded e₀ he₀ (hf hd)
    have hg : w.Grows id w' := fun x hx => ⟨e, hr, (Option.some.inj (hr₀.symm.trans hx)) ▸ hg₀⟩
    exact ⟨h.update hg ((h.knows p).keep hg hr) (fun hne => absurd hd hne) he, hg⟩
  | @emits data hr he =>
    have hk : (k p).after (.emit id data) () = k p := rfl
    rw [hk, Function.update_eq_self]
    refine h.announce hr he fun x hx hd => ?_
    rw [List.mem_singleton.mp hx] at hd
    obtain ⟨st, hst, hne⟩ := hp.2 hd
    exact ⟨st, ((h.knows p).ended st hst).grows (.of_eq hr), hne⟩
  | other hd hk hr he =>
    rw [hk, hd, Function.update_eq_self]
    exact h.announce hr (he.trans (List.append_nil _).symm) nofun

/-! ### Steps of a run -/

/-- A run only tells of its progress. -/
structure Proceeds (id : Uuid) (w w' : World) : Prop where
  record : ∀ i, w'.record? i = w.record? i
  events : ∃ es, w'.eventsOf id = w.eventsOf id ++ es ∧ ∀ x ∈ es, x.data.IsProgress

theorem Proceeds.refl (id : Uuid) (w : World) : Proceeds id w w :=
  ⟨fun _ => rfl, [], (List.append_nil _).symm, by simp⟩

theorem Proceeds.note {n : Notice} (h : Proceeds id w w') (hn : n.event? id = none) :
    Proceeds id w (w'.note n) := by
  obtain ⟨es, he, hes⟩ := h.events
  exact ⟨h.record, es, (like_note hn).events.trans he, hes⟩

theorem Proceeds.emit {data : EventData} (h : Proceeds id w w') (hd : data.IsProgress) :
    Proceeds id w (w'.emit id data) := by
  obtain ⟨es, he, hes⟩ := h.events
  refine ⟨h.record, es ++ [w'.nextEvent id data], ?_, fun x hx => ?_⟩
  · rw [eventsOf_emit, he, List.append_assoc]
  · rcases List.mem_append.mp hx with hx | hx
    · exact hes x hx
    · rw [List.mem_singleton.mp hx]
      exact hd

theorem Proceeds.announced {a : Assignment} (h : Proceeds a.executionId w w') (s : Step)
    (depth : Nat) (o : Outcome) (ms : Nat) :
    Proceeds a.executionId w (w'.announced a.executionId s depth o ms) := by
  unfold World.announced
  split
  · exact (h.emit .stepExecuted).note rfl
  · exact h.emit .stepExecuted

/-- What is seen and told of the steps of a run. -/
theorem proceeds_observe (engine : Expr.Engine) (config : Config) (a : Assignment) (w : World)
    (e : Effect) :
    Proceeds a.executionId w ((Setting.ofConfig engine config).observe a w e) := by
  cases e with
  | finished s depth o ms =>
    rw [Setting.observe_finished]
    split
    · exact (Proceeds.refl _ w).note rfl
    · exact ((Proceeds.refl _ w).note rfl).announced _ _ _ _
  | _ => exact .refl _ w

/-- What is asked for while a simple step is done. -/
theorem proceeds_serve {a : Assignment} {r : Request} {reply : r.Reply} (hr : r.OfLeaf a)
    (hs : w.serve r = some (reply, w')) : Proceeds a.executionId w w' := by
  cases hr with
  | isCancelled => cases hs; exact .refl _ w
  | paused => cases hs; exact (Proceeds.refl _ w).emit .paused
  | resumed => cases hs; exact (Proceeds.refl _ w).emit .resumed
  | execute => cases hs
  | awaitApproval => cases hs

end World

variable {engine : Expr.Engine} {config : Config} {id : Uuid}
  {rule : Execution → Execution → Prop} {base : List Event} {current : Party → Bool}
  {k : Party → Hold}

/-- **While a step is run, the run only tells of its progress.** -/
theorem Passage.Step.proceeds {a : Assignment} {st st' : Passage} {x : Happening}
    (hl : st.LeavesAsk a) (h : Passage.Step (.ofRun engine config id rule) a st x st')
    (hx : x.isOwn = true) : World.Proceeds a.executionId st.world st'.world := by
  cases h with
  | advance => exact World.proceeds_observe engine config a st.world _
  | serve hp hs => exact World.proceeds_serve (hl _ _ hp).1 hs
  | cancel | outside => cases hx
  | _ => exact .refl _ _

/-- **The program of a run heeds the record**, between its steps and while one is run; no record is
held then. -/
inductive System.Heeds {α : Type} (id : Uuid) (k : Hold) : System α → Prop where
  | program {w p} (h : Program.Heeds id (fun _ _ => True) k p) : Heeds id k (.ofProgram w p)
  | stepping {st a next} (ha : a.executionId = id) (hk : k.loaded = none) (hst : st.Sound)
      (hl : st.LeavesAsk a) (hn : ∀ x, Program.Heeds id (fun _ _ => True) k (next x)) :
      Heeds id k (Passage.toSystem st a next)

theorem System.Heeds.withWorld {α : Type} {s : System α} {k : Hold} (hs : s.Heeds id k)
    (w : World) : System.Heeds id k { s with world := w } := by
  cases hs with
  | program h => exact .program h
  | @stepping st a next ha hk hst hl hn =>
    have hst' : Passage.Sound { st with world := w } := hst
    exact .stepping ha hk hst' hl hn

/-- **What the run does**: it is served, or only tells of its progress. -/
theorem System.Heeds.cases {α : Type} {s s' : System α} {x : Happening} {k : Hold}
    (hs : s.Heeds id k) (h : System.Step (.ofRun engine config id rule) s x s')
    (hx : x.isOwn = true) :
    (∃ r reply, r.Proper id k ∧ s.world.serve r = some (reply, s'.world) ∧
      s.deed id = r.deed id reply ∧ s'.Heeds id (k.after r reply)) ∨
    s.deed id = .other ∧ s'.Heeds id k ∧ World.Proceeds id s.world s'.world := by
  cases hs with
  | @program w p hp =>
    obtain ⟨-, ⟨r, next, reply, w', rfl, hr, rfl⟩ | ⟨a, step, c, next, rfl, rfl⟩⟩ := h.of_program
    · -- the program is served
      have hd : (System.ofProgram w (.ask r next)).deed id = r.deed id reply := by
        simp [System.deed, System.ofProgram, Program.deed, hr]
      exact .inl ⟨r, reply, hp.1, hr, hd, .program (hp.2 reply (World.fits_of_serve hr))⟩
    · -- the program begins a step
      obtain ⟨⟨ha, hk⟩, hn⟩ := hp
      have hl : Passage.LeavesAsk a ⟨w, .start step c 0, []⟩ := by rintro path p ⟨⟩
      exact .inr ⟨rfl, .stepping ha hk (.start w step c 0) hl fun x => hn x trivial, .refl _ w⟩
  | @stepping st a next ha hk hst hl hn =>
    rcases h.of_toSystem with ⟨st', hst', rfl⟩ | ⟨o, ho, -, rfl⟩
    · subst ha
      exact .inr ⟨rfl, .stepping rfl hk (hst.step hst') (hl.step hst') hn, hst'.proceeds hl hx⟩
    · rw [hst.leaves_eq_nil ho]
      exact .inr ⟨rfl, .program (hn _), .refl _ st.world⟩

/-- **A turn of the run.** -/
theorem System.Heeds.step {α : Type} {s s' : System α} {x : Happening}
    (hs : s.Heeds id (k .run)) (hw : s.world.Agrees id base current k)
    (h : System.Step (.ofRun engine config id rule) s x s') (hx : x.isOwn = true)
    (hf : s.deed id = .keeps → current .run = true) :
    ∃ k', k' .canceller = k .canceller ∧ s'.Heeds id (k' .run) ∧
      s'.world.Agrees id base (Turn.after ⟨.run, s.deed id⟩ current) k' ∧
      s.world.Grows id s'.world := by
  rcases hs.cases h hx with ⟨r, reply, hp, hr, hd, hs'⟩ | ⟨hd, hs', hp⟩
  · rw [hd] at hf ⊢
    obtain ⟨hw', hg⟩ := hw.serve hp hr hf
    refine ⟨_, Function.update_of_ne (by decide) _ _, ?_, hw', hg⟩
    rw [Function.update_self]
    exact hs'
  · rw [hd]
    obtain ⟨es, he, hes⟩ := hp.events
    obtain ⟨hw', hg⟩ := hw.announce (hp.record id) he fun x hx hd =>
      absurd hd (hes x hx).not_concludes
    exact ⟨k, rfl, hs', hw', hg⟩

namespace Race

variable {r r' : Race} {t : Turn} {h h' : List Turn}

/-- **What holds after fresh turns**: what the parties know is true, and both heed the record. -/
structure Fair (id : Uuid) (base : List Event) (current : Party → Bool) (k : Party → Hold)
    (r : Race) : Prop where
  agrees : r.run.world.Agrees id base current k
  run : r.run.Heeds id (k .run)
  canceller : r.canceller.Heeds id (fun k x => ∀ a, x = .ok a → k.ended = some .cancelled)
    (k .canceller)

/-- A race begins without anyone knowing anything. -/
theorem fair_start (engine : Expr.Engine) (id : Uuid) (w : World) :
    (start engine id w).Fair id (w.eventsOf id) (fun _ => false) fun _ => ⟨none, none⟩ := by
  refine ⟨⟨fun q => Hold.isTrue_none id w false, [], (List.append_nil _).symm, by simp⟩,
    .program (.mono (Orchestration.heeds_run engine id _) fun _ _ _ => trivial),
    Orchestration.heeds_cancel id _⟩

/-- **A fresh turn** only lets the record grow. -/
theorem Fair.step (hr : r.Fair id base current k) (hs : Step (.ofRun engine config id rule) r t r')
    (hf : t.deed = .keeps → current t.party = true) :
    ∃ k', r'.Fair id base (t.after current) k' ∧ r.run.world.Grows id r'.run.world := by
  cases hs with
  | run hs hx =>
    obtain ⟨k', hc, hk, hw, hg⟩ := hr.run.step hr.agrees hs hx hf
    exact ⟨k', ⟨hw, hk, by rw [hc]; exact hr.canceller⟩, hg⟩
  | @cancel s q next reply w' hs =>
    obtain ⟨hw, hg⟩ := hr.agrees.serve hr.canceller.1 hs hf
    refine ⟨_, ⟨hw, ?_, ?_⟩, hg⟩
    · rw [Function.update_of_ne (by decide)]
      exact hr.run.withWorld w'
    · rw [Function.update_self]
      exact hr.canceller.2 reply (World.fits_of_serve hs)

/-- Fresh turns only let the record grow. -/
theorem Fair.turns (hr : r.Fair id base current k) (hs : Run (.ofRun engine config id rule) r h r')
    (hf : Turn.Fresh current (h ++ h')) :
    ∃ current' k', r'.Fair id base current' k' ∧ r.run.world.Grows id r'.run.world ∧
      Turn.Fresh current' h' := by
  induction hs generalizing current k with
  | refl r => exact ⟨current, k, hr, .of_eq rfl, hf⟩
  | step hs _ ih =>
    obtain ⟨k₁, hr₁, hg₁⟩ := hr.step hs hf.1
    obtain ⟨current', k', hr', hg', hf'⟩ := ih hr₁ hf.2
    exact ⟨current', k', hr', hg₁.trans hg', hf'⟩

/-- A run is over as cancelled once its cancellation has succeeded. -/
theorem Fair.isOver (hr : r.Fair id base current k) (hc : r.canceller = .done (.ok ())) :
    r.run.world.IsOver id .cancelled := by
  have hk := hr.canceller
  rw [hc] at hk
  exact (hr.agrees.knows .canceller).ended _ (hk () rfl)

/-- A run whose record says that it was cancelled was not said to be completed or to have failed. -/
theorem Fair.not_concludes (hr : r.Fair id base current k)
    (ho : r.run.world.IsOver id .cancelled) :
    ∃ es, r.run.world.eventsOf id = base ++ es ∧ ∀ x ∈ es, ¬ x.data.Concludes := by
  obtain ⟨es, he, hes⟩ := hr.agrees.honest
  refine ⟨es, he, fun x hx hd => ?_⟩
  -- there is only one record, and only one status in it
  obtain ⟨st, ⟨-, e, hrec, rfl⟩, hne⟩ := hes x hx hd
  obtain ⟨-, e', hrec', hst⟩ := ho
  cases hrec.symm.trans hrec'
  exact hne hst

end Race

/-- **Nothing is lost as long as nobody keeps a record that the other one has changed since it was
loaded.** A run and someone who cancels it take turns in any order, each call of the store being a
turn of its own. From any turn on the record of the run keeps its results, and its status once that
says that the run is over. Once the cancellation has succeeded the record says `CANCELLED`, and the
run is never said to be completed or to have failed, neither before nor after. -/
theorem race_loses_nothing {w : World} {r r' : Race} {h h' : List Turn}
    (hr : Race.Run (.ofRun engine config id rule) (.start engine id w) h r)
    (hr' : Race.Run (.ofRun engine config id rule) r h' r')
    (hf : Turn.Fresh (fun _ => false) (h ++ h')) :
    (∀ e, r.run.world.record? id = some e → ∃ e', r'.run.world.record? id = some e' ∧
      e.stepResults <+: e'.stepResults ∧ (e.status.isTerminal = true → e'.status = e.status)) ∧
    (r.canceller = .done (.ok ()) →
      (∃ e', r'.run.world.record? id = some e' ∧ e'.status = .cancelled) ∧
      ∃ es, r'.run.world.eventsOf id = w.eventsOf id ++ es ∧ ∀ x ∈ es, ¬ x.data.Concludes) := by
  obtain ⟨current, k, hfair, -, hf⟩ := (Race.fair_start engine id w).turns hr hf
  rw [← List.append_nil h'] at hf
  obtain ⟨current', k', hfair', hg, -⟩ := hfair.turns hr' hf
  refine ⟨fun e he => ?_, fun hc => ?_⟩
  · obtain ⟨e', he', hg⟩ := hg e he
    exact ⟨e', he', hg.results, hg.status⟩
  · have ho := (hfair.isOver hc).grows hg
    exact ⟨ho.2, hfair'.not_concludes ho⟩

/-! ### Races by choice -/

namespace Race

/-- What is chosen to happen next. -/
inductive Choice where
  | run (c : System.Choice)
  | cancel

/-- What happens by a choice, if that can happen. -/
def choose (S : Surroundings) (r : Race) : Choice → Option (Turn × Race)
  | .run c => do
    let (x, s') ← r.run.choose S c
    if x.isOwn then return (⟨.run, r.run.deed S.id⟩, ⟨s', r.canceller⟩) else none
  | .cancel =>
    match r.canceller with
    | .done _ => none
    | .ask q next =>
      (r.run.world.serve q).map fun (reply, world) =>
        (⟨.canceller, q.deed S.id reply⟩, ⟨{ r.run with world }, next reply⟩)

/-- What happens by one choice after the other. -/
def play (S : Surroundings) (r : Race) : List Choice → Option (List Turn × Race)
  | [] => some ([], r)
  | c :: cs => do
    let (t, r') ← r.choose S c
    let (h, r'') ← play S r' cs
    return (t :: h, r'')

theorem Step.of_choose {S : Surroundings} {r r' : Race} {c : Choice} {t : Turn}
    (h : r.choose S c = some (t, r')) : Step S r t r' := by
  obtain ⟨s, p⟩ := r
  cases c with
  | run c =>
    obtain ⟨⟨x, s'⟩, hc, h⟩ := Option.bind_eq_some_iff.mp h
    dsimp only at h
    split at h
    next hx =>
      cases h
      exact .run (.of_choose hc) hx
    next => cases h
  | cancel =>
    cases p with
    | done => cases h
    | ask q next =>
      obtain ⟨⟨reply, world⟩, hs, he⟩ := Option.map_eq_some_iff.mp h
      cases he
      exact .cancel hs

/-- **What happens by choices are the turns of a race.** -/
theorem Run.of_play {S : Surroundings} {r r' : Race} {cs : List Choice} {h : List Turn}
    (hp : r.play S cs = some (h, r')) : Run S r h r' := by
  induction cs generalizing r h with
  | nil =>
    cases hp
    exact .refl _
  | cons c cs ih =>
    obtain ⟨⟨t, r₁⟩, hc, hp⟩ := Option.bind_eq_some_iff.mp hp
    obtain ⟨⟨h₁, r₂⟩, hp₁, hp⟩ := Option.bind_eq_some_iff.mp hp
    cases hp
    exact .step (.of_choose hc) (ih hp₁)

/-- The cancellation has succeeded. -/
def hasCancelled (r : Race) : Bool :=
  match r.canceller with
  | .done (.ok ()) => true
  | _ => false

theorem hasCancelled_iff {r : Race} : r.hasCancelled = true ↔ r.canceller = .done (.ok ()) := by
  unfold hasCancelled
  split
  next h => exact iff_of_true rfl h
  next h => exact iff_of_false Bool.false_ne_true h

/-- The race of a run of a single step. -/
def single : Race := start .null ⟨1⟩ (.holding (.single ⟨none, none, false⟩ false))

/-- The thread of the program of the run moves a number of times. -/
def moves (n : Nat) : List Choice := (System.moves n).map .run

/-- The single step is done. -/
def Choice.respond : Choice := .run (.respond [] true)

/-- Whoever cancels the run goes on a number of times. -/
def cancels (n : Nat) : List Choice := List.replicate n .cancel

/-- A race of a run of a single step, with a look at what it has come to on the way. -/
theorem exists_single (cs cs' : List Choice)
    (p : List Turn × Race → List Turn × Race → Bool)
    (h : ((single.play (.ofRun .null {} ⟨1⟩ Eq) cs).any fun x =>
      (x.2.play (.ofRun .null {} ⟨1⟩ Eq) cs').any (p x)) = true) :
    ∃ h r h' r', Run (.ofRun .null {} ⟨1⟩ Eq) single h r ∧ Run (.ofRun .null {} ⟨1⟩ Eq) r h' r' ∧
      p (h, r) (h', r') = true := by
  obtain ⟨⟨h, r⟩, hr, hx⟩ := (Option.any_eq_true _ _).mp h
  obtain ⟨⟨h', r'⟩, hr', hp⟩ := (Option.any_eq_true _ _).mp hx
  exact ⟨h, r, h', r', .of_play hr, .of_play hr', hp⟩

end Race

/-- Whoever cancels a run while its step is being done finds the record as it was loaded. The result
of the step is kept all the same, and the run ends as cancelled. -/
theorem race_loses_nothing_single : ∃ h r h' r',
    Race.Run (.ofRun .null {} ⟨1⟩ Eq) .single h r ∧
    Race.Run (.ofRun .null {} ⟨1⟩ Eq) r h' r' ∧
    Turn.Fresh (fun _ => false) (h ++ h') ∧ r.canceller = .done (.ok ()) ∧
    ((∀ e, r.run.world.record? ⟨1⟩ = some e → ∃ e', r'.run.world.record? ⟨1⟩ = some e' ∧
      e.stepResults <+: e'.stepResults ∧ (e.status.isTerminal = true → e'.status = e.status)) ∧
    (r.canceller = .done (.ok ()) →
      (∃ e', r'.run.world.record? ⟨1⟩ = some e' ∧ e'.status = .cancelled) ∧
      ∃ es, r'.run.world.eventsOf ⟨1⟩ = [] ++ es ∧ ∀ x ∈ es, ¬ x.data.Concludes)) := by
  obtain ⟨h, r, h', r', hr, hr', hp⟩ := Race.exists_single
    (Race.moves 12 ++ Race.cancels 4) (.respond :: Race.moves 11)
    (fun x y => decide (Turn.Fresh (fun _ => false) (x.1 ++ y.1)) && x.2.hasCancelled &&
      y.2.run.result?.isSome) (by decide +kernel)
  obtain ⟨hp, -⟩ := Bool.and_eq_true_iff.mp hp
  obtain ⟨hf, hc⟩ := Bool.and_eq_true_iff.mp hp
  have hf := of_decide_eq_true hf
  exact ⟨h, r, h', r', hr, hr', hf, Race.hasCancelled_iff.mp hc, race_loses_nothing hr hr' hf⟩

/-- **A cancellation that has succeeded is lost, or loses a result.** If the run is cancelled right
after it has loaded its record in order to end, it keeps that record as completed and says so. If
whoever cancels it has loaded the record before a result is kept, the result is gone. -/
theorem cancel_loses_to_run :
    (∃ h r h' r' e e', Race.Run (.ofRun .null {} ⟨1⟩ Eq) .single h r ∧
      Race.Run (.ofRun .null {} ⟨1⟩ Eq) r h' r' ∧ r.canceller = .done (.ok ()) ∧
      r.run.world.record? ⟨1⟩ = some e ∧ e.status = .cancelled ∧
      r'.run.world.record? ⟨1⟩ = some e' ∧ e'.status = .completed ∧
      ∃ x ∈ r'.run.world.eventsOf ⟨1⟩, x.data.Concludes) ∧
    (∃ h r h' r' e e', Race.Run (.ofRun .null {} ⟨1⟩ Eq) .single h r ∧
      Race.Run (.ofRun .null {} ⟨1⟩ Eq) r h' r' ∧ r'.canceller = .done (.ok ()) ∧
      r.run.world.record? ⟨1⟩ = some e ∧ e.stepResults.length = 1 ∧
      r'.run.world.record? ⟨1⟩ = some e' ∧ e'.stepResults.length = 0) := by
  constructor
  · obtain ⟨h, r, h', r', hr, hr', hp⟩ := Race.exists_single
      (Race.moves 12 ++ .respond :: Race.moves 10 ++ Race.cancels 4) (Race.moves 4)
      (fun x y => x.2.hasCancelled &&
        ((x.2.run.world.record? ⟨1⟩).any fun e => e.status = .cancelled) &&
        ((y.2.run.world.record? ⟨1⟩).any fun e => e.status = .completed) &&
        (y.2.run.world.eventsOf ⟨1⟩).any fun e => e.data = .completed 1 1 0) (by decide +kernel)
    simp only [Bool.and_eq_true, Option.any_eq_true, List.any_eq_true, decide_eq_true_eq,
      Race.hasCancelled_iff] at hp
    obtain ⟨⟨⟨hc, e, he, hs⟩, e', he', hs'⟩, x, hx, hd⟩ := hp
    exact ⟨h, r, h', r', e, e', hr, hr', hc, he, hs, he', hs', x, hx, hd ▸ .completed⟩
  · obtain ⟨h, r, h', r', hr, hr', hp⟩ := Race.exists_single
      (Race.moves 12 ++ Race.cancels 1 ++ .respond :: Race.moves 7) (Race.cancels 3 ++ Race.moves 4)
      (fun x y => y.2.hasCancelled &&
        ((x.2.run.world.record? ⟨1⟩).any fun e => e.stepResults.length = 1) &&
        (y.2.run.world.record? ⟨1⟩).any fun e => e.stepResults.length = 0) (by decide +kernel)
    simp only [Bool.and_eq_true, Option.any_eq_true, decide_eq_true_eq, Race.hasCancelled_iff] at hp
    obtain ⟨⟨hc, e, he, hs⟩, e', he', hs'⟩ := hp
    exact ⟨h, r, h', r', e, e', hr, hr', hc, he, hs, he', hs'⟩

end WorkflowEngine
