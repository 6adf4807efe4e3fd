import Mathlib.Algebra.GroupWithZero.Nat
import WorkflowEngine.Bus.Shared
import WorkflowEngine.Proofs.Bus.Window

/-!
# Every event is accounted for

What a subscriber gets tells of the events one after the other: each is handed over, or it is among
those that the subscriber is told it has missed. What it has not been told of is gone from the
window, or it waits there. This holds whatever is done with the handles of the bus and by other
subscribers.

## Main definitions

* `sentIn`, `receptionsIn`: what is sent in a history, and what a subscriber gets in it
* `Tells got told`: the receptions `got` tell of the events `told`
* `SharedBus.Standing`: what a subscriber has been told, and what it has not
* `Bus.dueTo`: what a subscriber gets from a window into which nothing more comes

## Main results

* `SharedBus.Standing.perform`, `SharedBus.Standing.run`: one action, and many
* `SharedBus.receptionsIn_of_closed`: after the close a subscriber gets what is due to it
* `SharedBus.accounts_for_every_event`: the account of a subscriber
-/

namespace WorkflowEngine

/-! ### Histories -/

/-- The event that is sent with an action. One that finds no handle sends nothing. -/
def sentBy : BusAction × BusAnswer → Option Event
  | (.publish _ e, .done) => some e
  | (.emit _ e, .emitted (.ok ())) => some e
  | _ => none

/-- What a subscriber gets with an action. -/
def receptionBy (name : String) : BusAction × BusAnswer → Option Reception
  | (.receive other, .received r) => if other = name then some r else none
  | _ => none

/-- The events that are sent in a history. -/
def sentIn (history : List (BusAction × BusAnswer)) : List Event := history.filterMap sentBy

/-- What a subscriber gets in a history. -/
def receptionsIn (name : String) (history : List (BusAction × BusAnswer)) : List Reception :=
  history.filterMap (receptionBy name)

theorem sentIn_cons (x : BusAction × BusAnswer) (history : List (BusAction × BusAnswer)) :
    sentIn (x :: history) = (sentBy x).toList ++ sentIn history := by
  cases hx : sentBy x <;> simp [sentIn, hx]

theorem receptionsIn_cons (name : String) (x : BusAction × BusAnswer)
    (history : List (BusAction × BusAnswer)) :
    receptionsIn name (x :: history) =
      (receptionBy name x).toList ++ receptionsIn name history := by
  cases hx : receptionBy name x <;> simp [receptionsIn, hx]

/-- An action leaves a subscription as it is: it neither ends it nor begins it anew. -/
def BusAction.keeps (name : String) : BusAction → Bool
  | .subscribe _ other => other != name
  | .unsubscribe other => other != name
  | _ => true

/-! ### What receptions tell -/

/-- The event that is handed over. -/
def Reception.event? : Reception → Option Event
  | .event e => some e
  | _ => none

/-- The number of events that are reported as missed. -/
def Reception.lag : Reception → Nat
  | .lagged missed => missed
  | _ => 0

/-- The events that are handed over. -/
def eventsIn (got : List Reception) : List Event := got.filterMap Reception.event?

/-- The number of all events that are reported as missed. -/
def lagIn (got : List Reception) : Nat := (got.map Reception.lag).sum

/-- **What is got tells of events**, of each once and in their order: it is handed over, or it is
among as many as are reported as missed. -/
inductive Tells : List Reception → List Event → Prop where
  | nil : Tells [] []
  | event {got told} (e : Event) : Tells got told → Tells (got ++ [.event e]) (told ++ [e])
  | lagged {got told} (lost : List Event) :
    Tells got told → lost ≠ [] → Tells (got ++ [.lagged lost.length]) (told ++ lost)
  | empty {got told} : Tells got told → Tells (got ++ [.empty]) told
  | closed {got told} : Tells got told → Tells (got ++ [.closed]) told

theorem eventsIn_snoc (got : List Reception) (r : Reception) :
    eventsIn (got ++ [r]) = eventsIn got ++ r.event?.toList := by
  cases r <;> simp [eventsIn, Reception.event?]

theorem lagIn_snoc (got : List Reception) (r : Reception) :
    lagIn (got ++ [r]) = lagIn got + r.lag := by
  simp [lagIn]

namespace Tells

variable {got : List Reception} {told : List Event}

theorem eventsIn_sublist (h : Tells got told) : (eventsIn got).Sublist told := by
  induction h with
  | nil => exact .slnil
  | event e _ ih => exact eventsIn_snoc .. ▸ ih.append (List.Sublist.refl [e])
  | lagged lost _ _ ih => exact eventsIn_snoc .. ▸ ih.append (List.nil_sublist lost)
  | empty _ ih | closed _ ih => simpa [eventsIn_snoc, Reception.event?] using ih

/-- Each event of which is told is reported as missed, or it is handed over. -/
theorem length_eq (h : Tells got told) : lagIn got + (eventsIn got).length = told.length := by
  induction h with
  | nil => rfl
  | event e _ ih | lagged lost _ _ ih | empty _ ih | closed _ ih =>
    simp only [eventsIn_snoc, lagIn_snoc, Reception.event?, Reception.lag, List.length_append,
      Option.toList, List.length_nil, List.length_singleton]
    omega

end Tells

/-! ### Runs -/

namespace SharedBus

variable {s : SharedBus} {capacity : Nat} {name : String}

theorem run_cons (s : SharedBus) (a : BusAction) (actions : List BusAction) :
    s.run (a :: actions) =
      ((a, (s.perform a).1) :: ((s.perform a).2.run actions).1,
        ((s.perform a).2.run actions).2) := rfl

theorem perform_receive (s : SharedBus) (name : String) :
    s.perform (.receive name) =
      (.received (s.channel.receive name).1,
        { s with channel := (s.channel.receive name).2 }) := rfl

/-- **An event is handed on**, whether there are subscribers or not. -/
theorem perform_emit {handle : Nat} (h : handle < s.handles) (e : Event) :
    (s.perform (.emit handle e)).1 = .emitted (.ok ()) := by
  simp [perform, h, Bus.emit]

/-! ### The window -/

/-- **The window after an action** is the window of all that has been sent. -/
theorem holds_perform {log : List Event} (h : s.channel.Holds capacity log) (a : BusAction) :
    (s.perform a).2.channel.Holds capacity
      (log ++ (sentBy (a, (s.perform a).1)).toList) := by
  have hlog : s.channel.Holds capacity (log ++ []) := (List.append_nil log).symm ▸ h
  cases a with
  | subscribe handle name =>
    rw [perform]
    split
    · exact hlog.subscribe name
    · exact hlog
  | unsubscribe name => exact hlog.unsubscribe name
  | publish handle e | emit handle e =>
    rw [perform]
    split
    · exact h.publish e
    · exact hlog
  | clone handle =>
    rw [perform]
    split <;> exact hlog
  | close => exact hlog.close
  | receive name => exact hlog.receive name

theorem holds_run {log : List Event} (h : s.channel.Holds capacity log)
    (actions : List BusAction) :
    (s.run actions).2.channel.Holds capacity (log ++ sentIn (s.run actions).1) := by
  induction actions generalizing s log with
  | nil => exact (List.append_nil log).symm ▸ h
  | cons a actions ih =>
    rw [run_cons, sentIn_cons, ← List.append_assoc]
    exact ih (holds_perform h a)

/-! ### The place of a subscriber -/

/-- Only what it gets moves a subscriber on. -/
theorem next?_perform {a : BusAction} (ha : a.keeps name)
    (hr : receptionBy name (a, (s.perform a).1) = none) :
    (s.perform a).2.channel.next? name = s.channel.next? name := by
  cases a with
  | subscribe handle other =>
    rw [perform]
    split
    · exact Bus.next?_subscribe_of_ne (by simpa [BusAction.keeps] using ha)
    · rfl
  | unsubscribe other => exact Bus.next?_unsubscribe_of_ne (by simpa [BusAction.keeps] using ha)
  | publish handle e | emit handle e | clone handle =>
    rw [perform]
    split <;> rfl
  | close => rfl
  | receive other =>
    refine Bus.next?_receive_of_ne fun heq => ?_
    simp [receptionBy, perform, heq] at hr

theorem receptionBy_eq_some {a : BusAction} {r : Reception}
    (h : receptionBy name (a, (s.perform a).1) = some r) :
    a = .receive name ∧ r = (s.channel.receive name).1 := by
  cases a with
  | receive other =>
    by_cases heq : other = name
    · subst heq
      simp only [receptionBy, perform, if_true, Option.some.injEq] at h
      exact ⟨rfl, h.symm⟩
    · simp [receptionBy, perform, heq] at h
  | _ => simp [receptionBy] at h

/-- **What a subscriber has been told**, and what it has not: its place is between the two. Before
both lies what was sent before it came. -/
structure Standing (s : SharedBus) (capacity : Nat) (earlier told unread : List Event)
    (name : String) (got : List Reception) : Prop where
  holds : s.channel.Holds capacity (earlier ++ told ++ unread)
  place : s.channel.next? name = some (earlier ++ told).length
  tells : Tells got told

namespace Standing

variable {earlier told unread : List Event} {got : List Reception}

/-- What a subscriber has not been told of is gone, or it waits. -/
theorem unread_eq (h : Standing s capacity earlier told unread name got) :
    ∃ gone, unread = gone ++ s.channel.waiting (earlier ++ told).length ∧
      gone.length = s.channel.missed (earlier ++ told).length := by
  obtain ⟨gone, heq, hlen⟩ := h.holds.drop_eq (earlier ++ told).length
  exact ⟨gone, by rwa [List.drop_left] at heq, hlen⟩

/-- A subscriber may go on to any place, as far as it is told of what lies before. -/
theorem advance (h : Standing s capacity earlier told unread name got)
    {told' unread' : List Event} {got' : List Reception} (heq : told' ++ unread' = told ++ unread)
    (htells : Tells got' told') :
    Standing { s with channel := s.channel.advance name (earlier ++ told').length } capacity earlier
      told' unread' name got' where
  holds := by
    have hlog : earlier ++ told' ++ unread' = earlier ++ told ++ unread := by
      rw [List.append_assoc, heq, List.append_assoc]
    exact hlog ▸ h.holds.advance name (earlier ++ told').length
  place := by rw [Bus.next?_advance, h.place, Option.map_some, if_pos rfl]
  tells := htells

/-- **One that gets something** is told of the next event, or of all that are gone. -/
theorem receive (h : Standing s capacity earlier told unread name got) :
    ∃ told' unread', told' ++ unread' = told ++ unread ∧
      Standing (s.perform (.receive name)).2 capacity earlier told' unread' name
        (got ++ [(s.channel.receive name).1]) ∧
      (s.perform (.receive name)).2.channel.oldest ≤ (earlier ++ told').length := by
  have hget : (earlier ++ told ++ unread)[(earlier ++ told).length]? = unread[0]? := by
    rw [List.getElem?_append_right (Nat.le_refl _), Nat.sub_self]
  have hr := h.holds.receive_eq h.place
  rw [perform_receive]
  by_cases hlt : (earlier ++ told).length < s.channel.oldest
  · obtain ⟨gone, hunread, hlen⟩ := h.unread_eq
    have hold : s.channel.oldest = (earlier ++ (told ++ gone)).length := by
      rw [← List.append_assoc, List.length_append, hlen, Bus.missed]
      omega
    have hne : gone ≠ [] := by
      rintro rfl
      rw [List.append_nil] at hold
      omega
    have heq : told ++ gone ++ s.channel.waiting (earlier ++ told).length = told ++ unread := by
      rw [List.append_assoc, ← hunread]
    have hstanding := h.advance heq (h.tells.lagged gone hne)
    rw [hr, if_pos hlt, ← hlen]
    exact ⟨told ++ gone, _, heq, hold ▸ hstanding, Nat.le_of_eq hold⟩
  · have hle := Nat.le_of_not_lt hlt
    rw [if_neg hlt, hget] at hr
    cases unread with
    | nil =>
      rw [hr]
      refine ⟨told, [], rfl, ⟨h.holds, h.place, ?_⟩, hle⟩
      cases s.channel.isOpen
      · exact h.tells.closed
      · exact h.tells.empty
    | cons e unread =>
      have heq : told ++ [e] ++ unread = told ++ e :: unread := by simp
      have hnext : (earlier ++ (told ++ [e])).length = (earlier ++ told).length + 1 := by
        simp [Nat.add_assoc]
      have hstanding := h.advance heq (h.tells.event e)
      rw [hr]
      exact ⟨told ++ [e], unread, heq, hnext ▸ hstanding,
        Nat.le_trans (Nat.le_succ_of_le hle) (Nat.le_of_eq hnext.symm)⟩

/-- **One action** adds what is sent to what a subscriber has not been told. After it gets
something, nothing that is gone is left untold. -/
theorem perform (h : Standing s capacity earlier told unread name got) {a : BusAction}
    (ha : a.keeps name) :
    ∃ told' unread', told' ++ unread' = told ++ unread ++ (sentBy (a, (s.perform a).1)).toList ∧
      Standing (s.perform a).2 capacity earlier told' unread' name
        (got ++ (receptionBy name (a, (s.perform a).1)).toList) ∧
      (a = .receive name → (s.perform a).2.channel.oldest ≤ (earlier ++ told').length) := by
  cases hr : receptionBy name (a, (s.perform a).1) with
  | none =>
    refine ⟨told, unread ++ (sentBy (a, (s.perform a).1)).toList, (List.append_assoc ..).symm,
      ⟨?_, (next?_perform ha hr).trans h.place, ?_⟩, ?_⟩
    · exact List.append_assoc .. ▸ holds_perform h.holds a
    · exact (List.append_nil got).symm ▸ h.tells
    · rintro rfl
      simp [receptionBy, perform_receive] at hr
  | some r =>
    obtain ⟨rfl, rfl⟩ := receptionBy_eq_some hr
    obtain ⟨told', unread', heq, h', hold⟩ := h.receive
    exact ⟨told', unread', heq.trans (List.append_nil _).symm, h', fun _ => hold⟩

/-- **Many actions** add all that is sent in them. -/
theorem run (h : Standing s capacity earlier told unread name got) {actions : List BusAction}
    (hactions : ∀ a ∈ actions, a.keeps name) :
    ∃ told' unread', told' ++ unread' = told ++ unread ++ sentIn (s.run actions).1 ∧
      Standing (s.run actions).2 capacity earlier told' unread' name
        (got ++ receptionsIn name (s.run actions).1) ∧
      (actions.getLast? = some (.receive name) →
        (s.run actions).2.channel.oldest ≤ (earlier ++ told').length) := by
  induction actions generalizing s told unread got with
  | nil =>
    exact ⟨told, unread, (List.append_nil _).symm, (List.append_nil got).symm ▸ h, nofun⟩
  | cons a actions ih =>
    obtain ⟨told₁, unread₁, heq₁, h₁, hold₁⟩ := h.perform (hactions a List.mem_cons_self)
    obtain ⟨told₂, unread₂, heq₂, h₂, hold₂⟩ :=
      ih h₁ fun b hb => hactions b (List.mem_cons_of_mem a hb)
    rw [run_cons, sentIn_cons, receptionsIn_cons, ← List.append_assoc, ← List.append_assoc, ← heq₁]
    refine ⟨told₂, unread₂, heq₂, h₂, fun hlast => ?_⟩
    cases actions with
    | nil =>
      have hold : (s.perform a).2.channel.oldest ≤ (earlier ++ told₁).length :=
        hold₁ (by simpa using hlast)
      exact Option.some.inj (h₁.place.symm.trans h₂.place) ▸ hold
    | cons b actions => exact hold₂ (by simpa using hlast)

end Standing

/-! ### After the close -/

/-- No more is sent: the bus is closed, and it has no handles. -/
structure IsClosed (s : SharedBus) : Prop where
  isOpen : s.channel.isOpen = false
  handles : s.handles = 0

theorem isClosed_close (s : SharedBus) : (s.perform .close).2.IsClosed := ⟨rfl, rfl⟩

namespace IsClosed

/-- **One action with a closed bus** leaves it closed. It sends nothing, and what is due to a place
stays as it is. -/
theorem perform (h : s.IsClosed) (a : BusAction) :
    (s.perform a).2.IsClosed ∧ sentBy (a, (s.perform a).1) = none ∧
      ∀ place, (s.perform a).2.channel.dueTo place = s.channel.dueTo place := by
  have hno (handle : Nat) : ¬ handle < s.handles := h.handles ▸ Nat.not_lt_zero handle
  cases a with
  | subscribe handle _ | publish handle _ | emit handle _ | clone handle =>
    rw [SharedBus.perform, if_neg (hno handle)]
    exact ⟨h, rfl, fun _ => rfl⟩
  | unsubscribe other => exact ⟨⟨h.isOpen, h.handles⟩, rfl, fun _ => rfl⟩
  | close => exact ⟨isClosed_close s, rfl, fun _ => rfl⟩
  | receive other =>
    rw [perform_receive]
    rcases s.channel.receive_snd other with hb | ⟨next, hb⟩
    · rw [hb]
      exact ⟨h, rfl, fun _ => rfl⟩
    · rw [hb]
      exact ⟨⟨h.isOpen, h.handles⟩, rfl, fun _ => rfl⟩

/-- **From a closed bus a subscriber gets what is due to it**, and then that the bus is closed. -/
theorem receptionsIn_run (h : s.IsClosed) {log : List Event} {place : Nat}
    {actions : List BusAction} (hholds : s.channel.Holds capacity log)
    (hplace : s.channel.next? name = some place) (hactions : ∀ a ∈ actions, a.keeps name) :
    receptionsIn name (s.run actions).1 =
      (s.channel.dueTo place).take (receptionsIn name (s.run actions).1).length ++
        List.replicate
          ((receptionsIn name (s.run actions).1).length - (s.channel.dueTo place).length)
          .closed := by
  induction actions generalizing s place with
  | nil => simp [SharedBus.run, receptionsIn]
  | cons a actions ih =>
    obtain ⟨h', hsent, hdue⟩ := h.perform a
    have hholds' := holds_perform hholds a
    rw [hsent, Option.toList_none, List.append_nil] at hholds'
    have ha := hactions a List.mem_cons_self
    have hrest : ∀ b ∈ actions, b.keeps name := fun b hb => hactions b (List.mem_cons_of_mem a hb)
    rw [run_cons, receptionsIn_cons]
    cases hr : receptionBy name (a, (s.perform a).1) with
    | none =>
      have := ih h' hholds' ((next?_perform ha hr).trans hplace) hrest
      rwa [hdue] at this
    | some r =>
      obtain ⟨rfl, rfl⟩ := receptionBy_eq_some hr
      obtain ⟨place', hplace', hnext | ⟨hnone, hr, rfl⟩⟩ := hholds.dueTo_eq hplace
      · have := ih h' hholds' hplace' hrest
        rw [hnext, Option.toList_some, List.singleton_append, List.length_cons, List.take_succ_cons,
          List.length_cons, Nat.add_sub_add_right, List.cons_append]
        exact congrArg _ this
      · have := ih h' hholds' hplace' hrest
        rw [hdue, hnone, List.take_nil, List.nil_append, List.length_nil, Nat.sub_zero] at this
        rw [hnone, hr, h.isOpen, Option.toList_some, List.singleton_append, List.length_cons,
          List.take_nil, List.nil_append, List.length_nil, Nat.sub_zero, List.replicate_succ,
          ← this]
        rfl

end IsClosed

/-! ### The account -/

/-- One that subscribes has been told nothing, and it has missed nothing. -/
theorem standing_subscribe {earlier : List Event} (h : s.channel.Holds capacity earlier)
    {handle : Nat} (hhandle : handle < s.handles) :
    Standing (s.perform (.subscribe handle name)).2 capacity earlier [] [] name [] := by
  rw [perform, if_pos hhandle]
  refine ⟨?_, ?_, .nil⟩
  · rw [List.append_nil, List.append_nil]
    exact h.subscribe name
  · rw [List.append_nil, ← h.published_eq]
    exact s.channel.next?_subscribe name

/-- **Every event is accounted for.** After any actions with a bus one subscribes through any of its
handles, and any actions follow that leave the subscription as it is. What has been sent since then,
through any handle, is what the subscriber has been told of, what is gone from the window untold,
and what waits in the window, in this order. The numbers reported as missed, the events handed over,
those that wait and those that are gone untold are as many as have been sent; right after the
subscriber has got something, none is gone untold. Once the bus is closed the subscriber gets what
is due to it before it gets that the bus is closed. An event is always handed on through a
handle. -/
theorem accounts_for_every_event (n : Nat) (before after : List BusAction) (handle : Nat)
    (name : String) (hhandle : handle < ((ofCapacity n).run before).2.handles)
    (hafter : ∀ a ∈ after, a.keeps name) :
    let earlier := ((ofCapacity n).run before).2
    let since := (earlier.perform (.subscribe handle name)).2.run after
    let sent := sentIn since.1
    let got := receptionsIn name since.1
    let channel := since.2.channel
    (∀ e, (earlier.perform (.emit handle e)).1 = .emitted (.ok ())) ∧
    ∃ place told gone,
      channel.next? name = some place ∧
      Tells got told ∧
      sent = told ++ gone ++ channel.waiting place ∧
      gone.length = channel.missed place ∧
      (channel.waiting place).length =
        min (Bus.roundedCapacity n) (gone ++ channel.waiting place).length ∧
      (eventsIn got).Sublist sent ∧
      lagIn got + (eventsIn got).length + (channel.waiting place).length + channel.missed place =
        sent.length ∧
      (after.getLast? = some (.receive name) → channel.missed place = 0) ∧
      ∀ later : List BusAction, (∀ a ∈ later, a.keeps name) →
        let due := channel.dueTo place
        let got := receptionsIn name ((since.2.perform .close).2.run later).1
        got = due.take got.length ++ List.replicate (got.length - due.length) .closed := by
  intro earlier since sent got channel
  have hholds := holds_run (s := ofCapacity n) (Bus.Holds.ofCapacity n) before
  obtain ⟨told, unread, hsent, h, hlast⟩ := (standing_subscribe hholds hhandle).run hafter
  obtain ⟨gone, hunread, hgone⟩ := h.unread_eq
  simp only [List.nil_append] at hsent hunread hgone h hlast
  have hsent' : sent = told ++ gone ++ channel.waiting _ :=
    hsent.symm.trans ((congrArg (told ++ ·) hunread).trans (List.append_assoc ..).symm)
  refine ⟨perform_emit hhandle, _, told, gone, h.place, h.tells, hsent', hgone, ?_, ?_, ?_, ?_, ?_⟩
  · rw [h.holds.length_waiting, ← hunread, List.length_append, Nat.add_sub_cancel_left]
  · rw [hsent', List.append_assoc]
    exact h.tells.eventsIn_sublist.trans (List.sublist_append_left ..)
  · have htold : lagIn got + (eventsIn got).length = told.length := h.tells.length_eq
    have hgone' : gone.length = channel.missed _ := hgone
    simp only [List.length_append] at hgone'
    simp only [hsent', List.length_append, htold]
    omega
  · exact fun hl => Nat.sub_eq_zero_of_le (hlast hl)
  · intro later hlater
    exact (isClosed_close _).receptionsIn_run h.holds.close h.place hlater

/-- One subscribes through a second handle, and it is told of two events after the first of them has
left the window. -/
theorem accounts_for_every_event_secondHandle :
    let before : List BusAction := [.clone 0, .publish 0 default]
    let after : List BusAction := [.publish 0 default, .emit 1 default, .receive "r"]
    let since := (((ofCapacity 1).run before).2.perform (.subscribe 1 "r")).2.run after
    let got := receptionsIn "r" since.1
    1 < ((ofCapacity 1).run before).2.handles ∧ (∀ a ∈ after, a.keeps "r") ∧
      ∃ place, since.2.channel.next? "r" = some place ∧
        lagIn got + (eventsIn got).length + (since.2.channel.waiting place).length =
          (sentIn since.1).length := by
  intro before after since got
  have hhandle : 1 < ((ofCapacity 1).run before).2.handles := by decide
  have hafter : ∀ a ∈ after, a.keeps "r" := by
    simp [after, BusAction.keeps]
  obtain ⟨-, place, told, gone, hplace, -, -, -, -, -, hcount, hlast, -⟩ :=
    accounts_for_every_event 1 before after 1 "r" hhandle hafter
  rw [hlast rfl, Nat.add_zero] at hcount
  exact ⟨hhandle, hafter, place, hplace, hcount⟩

/-- What is gone untold is not in the sum of what is reported as missed, what is handed over and
what waits. -/
theorem gone_is_not_reported_yet :
    let since := ((ofCapacity 1).perform (.subscribe 0 "r")).2.run
      [.publish 0 default, .publish 0 default]
    since.2.channel.next? "r" = some 0 ∧
      lagIn (receptionsIn "r" since.1) + (eventsIn (receptionsIn "r" since.1)).length +
        (since.2.channel.waiting 0).length ≠ (sentIn since.1).length := by
  decide

end SharedBus

end WorkflowEngine
