import Mathlib.Logic.Relation
import WorkflowEngine.Proofs.Run.Suspension
import WorkflowEngine.Proofs.Run.Within

/-!
# How events are handed on

Whoever announces something has the number of the event drawn first, and then hands the event on to
those who listen. These are two moves, and nobody waits for the others in between: the events of
workers that work at the same time may overtake each other. But a thread does nothing else as long
as it has an event in hand.

## Main definitions

* `Relay`: a system with the events that its threads have in hand and those that were received
* `Relay.Step`: what may happen to it
* `Path.Apart`: threads that may work at the same time
* `System.Speaks`: what a thread announces by a move
* `Relay.Traces`: what was received and is in hand, against the order of the numbers

## Main results

* `System.Step.speaks`: a thread that announces something waits for no worker and works on
* `Relay.Traces.step`: whatever happens, events only overtake those of threads apart
* `Relay.Traces.of_run`: so they do in every history of a run
-/

namespace WorkflowEngine

open Relation (ReflTransGen)

/-- The thread that has moved or was answered. -/
def Happening.thread? : Happening → Option Path
  | .moved path .. => some path
  | .told path _ => some path
  | _ => none

/-- Threads that may work at the same time: neither is within the other. -/
def Path.Apart (p q : Path) : Prop := ¬ p <+: q ∧ ¬ q <+: p

theorem Path.Apart.symm {p q : Path} (h : Path.Apart p q) : Path.Apart q p := ⟨h.2, h.1⟩

/-- The thread of the program works alone. -/
theorem Path.not_apart_nil {p : Path} : ¬ Path.Apart [] p := fun h => h.1 List.nil_prefix

/-! ### Systems whose events are handed on -/

/-- The events of a run whose numbers were drawn between two worlds. -/
def World.drawn (id : Uuid) (w w' : World) : List Event :=
  (w'.eventsOf id).drop (w.eventsOf id).length

/-- A system, and where its events are. -/
structure Relay (α : Type) where
  system : System α
  /-- The events that threads have in hand, by their threads. -/
  held : List (Path × Event) := []
  /-- The events that were received, with the threads that they came from. -/
  received : List (Path × Event) := []

namespace Relay

variable {α : Type}

/-- A program about to work. -/
def ofProgram (w : World) (p : Program α) : Relay α := { system := .ofProgram w p }

/-- What was received, in the order in which it was. -/
def events (r : Relay α) : List Event := r.received.map Prod.snd

/-- What the program has returned: it has ended, and its own thread has nothing in hand. -/
def result? (r : Relay α) : Option α :=
  if r.held.any fun y => y.1 = [] then none else r.system.result?

/-- **What may happen to a system and its events.** -/
inductive Step (S : Surroundings) : Relay α → Relay α → Prop where
  /-- A thread goes on that has nothing in hand, and gets in hand what it announces. A name below
  that of a thread which has something in hand is that of no other thread. -/
  | own {r x s path} (hs : r.system.Step S x s) (hx : x.thread? = some path)
      (hfree : ∀ y ∈ r.held, ¬ y.1 <+: path) :
      Step S r ⟨s, r.held ++ (r.system.world.drawn S.id s.world).map (path, ·), r.received⟩
  /-- Others do something. -/
  | others {r x s} (hs : r.system.Step S x s) (hx : x.thread? = none) :
      Step S r { r with system := s }
  /-- A thread hands on the first event that it has in hand. -/
  | handOn {s l y l' received} (hfirst : ∀ z ∈ l, z.1 ≠ y.1) :
      Step S ⟨s, l ++ y :: l', received⟩ ⟨s, l ++ l', received ++ [y]⟩

/-! ### Histories by choice -/

/-- What is chosen to happen next. -/
inductive Choice where
  | goOn (choice : System.Choice)
  | handOn (path : Path)

/-- What becomes of a system and its events by a choice, if that can happen. -/
def choose (S : Surroundings) (r : Relay α) : Choice → Option (Relay α)
  | .goOn choice =>
    match r.system.choose S choice with
    | none => none
    | some (x, s) =>
      match x.thread? with
      | none => some { r with system := s }
      | some path =>
        if r.held.any fun y => y.1.isPrefixOf path then none
        else some ⟨s, r.held ++ (r.system.world.drawn S.id s.world).map (path, ·), r.received⟩
  | .handOn path =>
    match r.held.dropWhile fun y => y.1 != path with
    | [] => none
    | y :: l => some ⟨r.system, (r.held.takeWhile fun y => y.1 != path) ++ l, r.received ++ [y]⟩

/-- What becomes of it by one choice after the other. -/
def play (S : Surroundings) (r : Relay α) : List Choice → Option (Relay α)
  | [] => some r
  | c :: cs => (r.choose S c).bind fun r => play S r cs

theorem Step.of_choose {S : Surroundings} {r r' : Relay α} {c : Choice}
    (h : r.choose S c = some r') : Step S r r' := by
  cases c with
  | goOn choice =>
    simp only [choose] at h
    split at h
    next => cases h
    next x s hs =>
      have hs := System.Step.of_choose hs
      split at h
      next hx =>
        cases h
        exact .others hs hx
      next path hx =>
        split at h
        next => cases h
        next hfree =>
          cases h
          refine .own hs hx fun y hy hp => hfree ?_
          exact List.any_eq_true.mpr ⟨y, hy, List.isPrefixOf_iff_prefix.mpr hp⟩
  | handOn path =>
    simp only [choose] at h
    split at h
    next => cases h
    next y l hl =>
      cases h
      have hy : y.1 = path := by
        have := List.dropWhile_get_zero_not (fun y : Path × Event => y.1 != path) r.held
          (by rw [hl]; exact Nat.succ_pos _)
        simpa [hl] using this
      have hheld : r.held = (r.held.takeWhile fun y => y.1 != path) ++ y :: l := by
        rw [← hl, List.takeWhile_append_dropWhile]
      obtain ⟨s, held, received⟩ := r
      dsimp only at hheld ⊢
      conv_lhs => rw [hheld]
      refine .handOn fun z hz => ?_
      simpa [hy] using List.mem_takeWhile_imp hz

/-- **What happens by choices may happen.** -/
theorem reaches_of_play {S : Surroundings} {r r' : Relay α} {cs : List Choice}
    (h : r.play S cs = some r') : ReflTransGen (Step S) r r' := by
  induction cs generalizing r with
  | nil =>
    cases h
    exact .refl
  | cons c cs ih =>
    obtain ⟨r₁, hc, h⟩ := Option.bind_eq_some_iff.mp h
    exact .head (.of_choose hc) (ih h)

end Relay

/-! ### What is announced -/

namespace World

variable {w w' : World} {id : Uuid}

/-- A program that announces nothing. -/
theorem eventsOf_perform {α : Type} {p : Program α} {x : α}
    (hp : p.Asks fun r => ∀ i data, r ≠ .emit i data) (h : w.perform p = some (x, w')) :
    w'.eventsOf id = w.eventsOf id := by
  induction p generalizing w with
  | done y =>
    cases h
    rfl
  | ask r k ih =>
    rw [perform] at h
    split at h
    next reply w₁ hs =>
      have hnone : r.event? id w = none := by
        cases r with
        | emit i data => exact absurd rfl (hp.1 i data)
        | _ => rfl
      rw [ih reply (hp.2 reply) h, eventsOf_serve hs, hnone]
      exact List.append_nil _
    next => cases h

theorem eventsOf_announced (s : Step) (d : Nat) (o : Outcome) (ms : Nat) :
    (w.announced id s d o ms).eventsOf id =
      w.eventsOf id ++ [w.nextEvent id (.ofOutcome s d o ms)] := by
  unfold announced
  split
  · exact (like_note rfl).events.trans (eventsOf_emit _)
  · exact eventsOf_emit _

/-- What was announced between two worlds. -/
theorem drawn_eq {es : List Event} (h : w'.eventsOf id = w.eventsOf id ++ es) :
    w.drawn id w' = es := by
  rw [drawn, h, List.drop_left]

end World

/-- **What a thread announces by a move.** Whoever announces anything waits for no worker, and a
worker that does tells of steps and works on. The other workers are not touched by the move. -/
structure System.Speaks {α : Type} (id : Uuid) (s : System α) (path : Path) (s' : System α)
    (es : List Event) : Prop where
  events : s'.world.eventsOf id = s.world.eventsOf id ++ es
  alone : es ≠ [] → ∀ r, r ≠ [] → s.task? (path ++ r) = none
  works : es ≠ [] → path ≠ [] → (s'.task? path).isSome = true
  tells : path ≠ [] → ∀ ev ∈ es, ev.data.IsProgress
  others : ∀ q, q ≠ [] → ¬ q <+: path → (s.task? q).isSome = true → (s'.task? q).isSome = true

namespace Task

/-- There is no task within one that waits for no workers. -/
theorem at?_append_eq_none {path r : List Nat} {t u : Task} (hu : at? path t = some u)
    (hc : ∀ b, u.control ≠ .joining b) (hr : r ≠ []) : at? (path ++ r) t = none := by
  rw [at?_append hu]
  cases hn : at? r u with
  | none => rfl
  | some v =>
    obtain ⟨i, r, rfl⟩ := List.exists_cons_of_ne_nil hr
    obtain ⟨_, b, _, _, _, rfl, -, -⟩ := exists_worker_of_at? (Option.isSome_of_mem hn)
    exact absurd rfl (hc b)

end Task

variable {engine : Expr.Engine} {config : Config} {id : Uuid}
  {rule : Execution → Execution → Prop} {α : Type}

/-- A thread leaves the tasks of the others alone. -/
theorem Passage.Step.isSome_at? {S : Surroundings} {a : Assignment} {st st' : Passage}
    {x : Happening} {path q : Path} (h : Passage.Step S a st x st') (hx : x.thread? = some path)
    (hq : ¬ q <+: path) (hat : (st.task.at? q).isSome = true) :
    (st'.task.at? q).isSome = true := by
  obtain ⟨u, hu⟩ := Option.isSome_iff_exists.mp hat
  cases h with
  | advance _ hm =>
    cases hx
    exact Option.isSome_of_mem (hm.at?_eq hu hq)
  | answer _ ha =>
    cases hx
    exact Option.isSome_of_mem (ha.at?_eq hu hq)
  | cancel | outside => cases hx
  | _ => exact hat

theorem Passage.Step.speaks {a : Assignment} {st st' : Passage} {x : Happening} {path : Path}
    {k : Outcome × Context → Program α} (ha : a.executionId = id) (hst : st.Sound)
    (hl : st.LeavesAsk a) (h : Passage.Step (.ofRun engine config id rule) a st x st')
    (hx : x.thread? = some path) :
    ∃ es, System.Speaks id (st.toSystem a k) path (st'.toSystem a k) es := by
  subst ha
  have hothers (q : Path) (_ : q ≠ []) := h.isSome_at? (q := q) hx
  -- what announces nothing
  have hsilent (hev : st'.world.eventsOf a.executionId = st.world.eventsOf a.executionId) :
      ∃ es, System.Speaks a.executionId (st.toSystem a k) path (st'.toSystem a k) es :=
    ⟨[], hev.trans (List.append_nil _).symm, fun hn => absurd rfl hn, fun hn => absurd rfl hn,
      nofun, hothers⟩
  cases h with
  | @advance path ms t e _ hm =>
    cases hx
    cases e with
    | finished s d o ms =>
      have hobserve := Setting.observe_finished engine config a st.world s d o ms
      split at hobserve
      · refine hsilent ?_
        show ((Setting.ofConfig engine config).observe a st.world _).eventsOf _ = _
        rw [hobserve]
        exact (World.like_note rfl).events
      · obtain ⟨hat', c, fs, hat⟩ := hm.at?_of_finished
        refine ⟨[(st.world.note (.finished s.id d o)).nextEvent a.executionId
            (.ofOutcome s d o ms)],
          ?_, fun _ r hr => Task.at?_append_eq_none hat nofun hr, fun _ _ => hat',
          fun _ ev hev => ?_, hothers⟩
        · show ((Setting.ofConfig engine config).observe a st.world _).eventsOf _ = _
          rw [hobserve, World.eventsOf_announced, (World.like_note rfl).events]
          rfl
        · obtain rfl := List.mem_singleton.mp hev
          exact .stepExecuted
    | _ => exact hsilent rfl
  | @serve path r next reply w' hleaf hs =>
    cases hx
    obtain ⟨_, hc⟩ := Option.isSome_iff_exists.mp (hst path _ hleaf)
    obtain ⟨fs, hu⟩ := Task.exists_at?_of_callAt? hc
    refine ⟨_, World.eventsOf_serve hs, fun _ r hr => Task.at?_append_eq_none hu nofun hr,
      fun _ _ => Option.isSome_of_mem hu, fun _ ev hev => ?_, hothers⟩
    have hev := Option.mem_toList.mp hev
    cases (hl path _ hleaf).1 with
    | paused =>
      rw [Request.event?, if_pos rfl] at hev
      cases hev
      exact .paused
    | resumed =>
      rw [Request.event?, if_pos rfl] at hev
      cases hev
      exact .resumed
    | _ => cases hev
  | cancel | outside => cases hx
  | _ => exact hsilent rfl

namespace System

variable {w : World} {h : List Happening} {s s' : System (Except RunError Summary)} {x : Happening}
  {path : Path}

/-- **A thread of a run that announces something** waits for no worker, and works on. -/
theorem Step.speaks
    (hr : Run (.ofRun engine config id rule)
      (.ofProgram w (ExceptT.run (Orchestration.run engine id))) h s)
    (hs : Step (.ofRun engine config id rule) s x s') (hx : x.thread? = some path) :
    ∃ es, s.Speaks id path s' es := by
  rcases hr.reaches.eq_ofProgram_or_toSystem with ⟨w', p, rfl⟩ | ⟨st, a, k, rfl⟩
  · -- there is no worker between steps
    obtain ⟨rfl, hcases⟩ := hs.of_program
    cases hx
    have hno (q : Path) (_ : q ≠ []) (_ : ¬ q <+: [])
        (hq : ((System.ofProgram w' p).task? q).isSome = true) : (s'.task? q).isSome = true := by
      cases hq
    rcases hcases with ⟨r, next, reply, w₁, rfl, hserve, rfl⟩ | ⟨a, step, c, next, rfl, rfl⟩
    · exact ⟨_, World.eventsOf_serve hserve, fun _ _ _ => rfl, fun _ hp => absurd rfl hp,
        fun hp => absurd rfl hp, hno⟩
    · exact ⟨[], (List.append_nil _).symm, fun _ _ _ => rfl, fun _ hp => absurd rfl hp,
        fun hp => absurd rfl hp, hno⟩
  · obtain ⟨ha, totalSteps, k', hin, -⟩ := hr.reaches.stepping_of_run
    rcases hs.of_toSystem with ⟨st', hst', rfl⟩ | ⟨o, ho, rfl, rfl⟩
    · exact hst'.speaks ha hin.sound hin.leavesAsk hx
    · -- a step that is over has no worker left
      cases hx
      refine ⟨[], (List.append_nil _).symm, fun hn => absurd rfl hn, fun hn => absurd rfl hn,
        nofun, fun q hq _ hat => ?_⟩
      obtain ⟨u, hu⟩ := Option.isSome_iff_exists.mp hat
      obtain ⟨i, q, rfl⟩ := List.exists_cons_of_ne_nil hq
      have hu : st.task.at? (i :: q) = some u := hu
      obtain ⟨_, _, _, _, _, ht, -, -⟩ := Task.exists_worker_of_at? (Option.isSome_of_mem hu)
      rw [ht] at ho
      cases ho

/-- What others do is not announced, and no thread moves. -/
theorem Step.of_others {S : Surroundings} {s s' : System α} (hs : Step S s x s')
    (hx : x.thread? = none) :
    s'.world.eventsOf S.id = s.world.eventsOf S.id ∧ s'.task? = s.task? := by
  cases hs with
  | move => cases hx
  | tell => cases hx
  | cancel _ hc =>
    exact ⟨World.eventsOf_perform (Orchestration.asks_cancel nofun nofun (fun _ => nofun) nofun) hc,
      rfl⟩
  | outside _ hm => exact ⟨hm.like.events, rfl⟩

end System

/-! ### What is received -/

namespace Relay

variable {base es : List Event} {r r' : Relay (Except RunError Summary)}

/-- **What was received and is in hand**, against the events in the order of their numbers: it is
these, and an event comes before one whose number was drawn earlier only if their threads are
apart. -/
structure Traces (id : Uuid) (base : List Event) (r : Relay α) (es : List Event) : Prop where
  events : r.system.world.eventsOf id = base ++ es
  once : ((r.received ++ r.held).map Prod.snd).Perm es
  order : (r.received ++ r.held).Pairwise fun x y => [x.2, y.2].Sublist es ∨ Path.Apart x.1 y.1
  /-- Only threads that may work at the same time have something in hand. -/
  apart : r.held.Pairwise fun x y => x.1 = y.1 ∨ Path.Apart x.1 y.1
  works : ∀ x ∈ r.held, x.1 = [] ∨ (r.system.task? x.1).isSome = true
  tells : ∀ x ∈ r.received ++ r.held, x.1 ≠ [] → x.2.data.IsProgress

theorem Traces.start (w : World) (p : Program α) :
    (ofProgram w p).Traces id (w.eventsOf id) [] :=
  ⟨(List.append_nil _).symm, .refl _, .nil, .nil, nofun, nofun⟩

/-- A thread goes on. -/
theorem Traces.own {r : Relay α} {s : System α} {path : Path} {news : List Event}
    (h : r.Traces id base es) (hs : r.system.Speaks id path s news)
    (hfree : ∀ y ∈ r.held, ¬ y.1 <+: path) :
    Traces id base ⟨s, r.held ++ news.map (path, ·), r.received⟩ (es ++ news) := by
  constructor
  · rw [hs.events, h.events, List.append_assoc]
  · rw [← List.append_assoc, List.map_append, List.map_map]
    simpa [Function.comp_def] using h.once.append_right news
  · rw [← List.append_assoc, List.pairwise_append]
    refine ⟨h.order.imp fun ho => ho.imp_left fun ho => ho.trans (List.sublist_append_left _ _),
      ?_, ?_⟩
    · refine List.pairwise_map.mpr (List.pairwise_iff_forall_sublist.mpr fun hab => ?_)
      exact .inl (hab.trans (List.sublist_append_right _ _))
    · intro x hx y hy
      obtain ⟨ev, hev, rfl⟩ := List.mem_map.mp hy
      have hx : x.2 ∈ es := h.once.mem_iff.mp (List.mem_map_of_mem hx)
      exact .inl (.append (List.singleton_sublist.mpr hx) (List.singleton_sublist.mpr hev))
  · refine List.pairwise_append.mpr ⟨h.apart, ?_, fun x hx y hy => ?_⟩
    · exact List.pairwise_map.mpr (List.pairwise_of_forall fun _ _ => .inl rfl)
    · obtain ⟨ev, hev, rfl⟩ := List.mem_map.mp hy
      refine .inr ⟨hfree x hx, ?_⟩
      -- whoever has something in hand works, and the thread waits for no worker
      rintro ⟨q, hq⟩
      by_cases hnil : q = []
      · subst hnil
        exact hfree x hx (by simp [← hq])
      · have hnone := hs.alone (List.ne_nil_of_mem hev) q hnil
        rcases h.works x hx with hx | hx
        · simp [hx, hnil] at hq
        · rw [← hq, hnone] at hx
          cases hx
  · intro x hx
    rcases List.mem_append.mp hx with hx | hx
    · refine (em (x.1 = [])).imp_right fun hne => ?_
      exact hs.others x.1 hne (hfree x hx) ((h.works x hx).resolve_left hne)
    · obtain ⟨ev, hev, rfl⟩ := List.mem_map.mp hx
      exact (em (path = [])).imp_right (hs.works (List.ne_nil_of_mem hev))
  · intro x hx hne
    rw [← List.append_assoc] at hx
    rcases List.mem_append.mp hx with hx | hx
    · exact h.tells x hx hne
    · obtain ⟨ev, hev, rfl⟩ := List.mem_map.mp hx
      exact hs.tells hne ev hev

/-- A thread hands an event on. -/
theorem Traces.handOn {s : System α} {l l' received : List (Path × Event)} {y : Path × Event}
    (h : Traces id base ⟨s, l ++ y :: l', received⟩ es) (hfirst : ∀ z ∈ l, z.1 ≠ y.1) :
    Traces id base ⟨s, l ++ l', received ++ [y]⟩ es := by
  have hmiddle : (y :: (l ++ l')).Perm (l ++ y :: l') := List.perm_middle.symm
  have hperm : ((received ++ [y]) ++ (l ++ l')).Perm (received ++ (l ++ y :: l')) := by
    rw [List.append_assoc]
    exact hmiddle.append_left received
  have hsub : (l ++ l').Sublist (l ++ y :: l') :=
    (List.Sublist.refl l).append (List.sublist_cons_self y l')
  have hapart : (l ++ y :: l').Pairwise _ := h.apart
  obtain ⟨hreceived, hheld, hcross⟩ := List.pairwise_append.mp h.order
  have hheld : (l ++ y :: l').Pairwise _ := hheld
  constructor
  · exact h.events
  · exact (hperm.map Prod.snd).trans h.once
  · show ((received ++ [y]) ++ (l ++ l')).Pairwise _
    rw [List.append_assoc]
    have hnext : (y :: (l ++ l')).Pairwise fun x y =>
        [x.2, y.2].Sublist es ∨ Path.Apart x.1 y.1 := by
      refine List.pairwise_cons.mpr ⟨fun z hz => ?_, hheld.sublist hsub⟩
      rcases List.mem_append.mp hz with hz | hz
      · -- another thread had its event in hand already, and it is apart
        have hz' := (List.pairwise_append.mp hapart).2.2 z hz y (List.mem_cons_self ..)
        exact .inr (hz'.resolve_left (hfirst z hz)).symm
      · exact (List.pairwise_cons.mp (List.pairwise_append.mp hheld).2.1).1 z hz
    exact List.pairwise_append.mpr
      ⟨hreceived, hnext, fun x hx z hz => hcross x hx z (hmiddle.mem_iff.mp hz)⟩
  · exact hapart.sublist hsub
  · exact fun x hx => h.works x (hmiddle.mem_iff.mp (List.mem_cons_of_mem _ hx))
  · exact fun x hx => h.tells x (hperm.mem_iff.mp hx)

/-- **Whatever happens in a run**, events only overtake those of threads that are apart. -/
theorem Traces.step {w : World} {h : List Happening}
    (hr : System.Run (.ofRun engine config id rule)
      (.ofProgram w (ExceptT.run (Orchestration.run engine id))) h r.system)
    (ht : r.Traces id base es) (hs : Step (.ofRun engine config id rule) r r') :
    (∃ h', System.Run (.ofRun engine config id rule)
      (.ofProgram w (ExceptT.run (Orchestration.run engine id))) h' r'.system) ∧
    ∃ es', r'.Traces id base es' := by
  cases hs with
  | own hs hx hfree =>
    obtain ⟨news, hspeaks⟩ := hs.speaks hr hx
    refine ⟨⟨_, hr.trans (.step hs (.refl _))⟩, es ++ news, ?_⟩
    obtain rfl := World.drawn_eq hspeaks.events
    exact ht.own hspeaks hfree
  | others hs hx =>
    obtain ⟨hev, htask⟩ := hs.of_others hx
    refine ⟨⟨_, hr.trans (.step hs (.refl _))⟩, es, hev.trans ht.events, ht.once, ht.order,
      ht.apart, ?_, ht.tells⟩
    rw [htask]
    exact ht.works
  | handOn hfirst => exact ⟨⟨h, hr⟩, es, ht.handOn hfirst⟩

/-- **What was received and is in hand in a run.** -/
theorem traces_of_run {w : World}
    (hr : ReflTransGen (Step (.ofRun engine config id rule))
      (ofProgram w (ExceptT.run (Orchestration.run engine id))) r) :
    (∃ h, System.Run (.ofRun engine config id rule)
      (.ofProgram w (ExceptT.run (Orchestration.run engine id))) h r.system) ∧
    ∃ es, r.Traces id (w.eventsOf id) es := by
  induction hr with
  | refl => exact ⟨⟨[], .refl _⟩, [], .start w _⟩
  | tail _ hs ih =>
    obtain ⟨⟨h, hr⟩, es, ht⟩ := ih
    exact ht.step hr hs

/-- **Whatever a run has announced was received when it returns.** -/
theorem Traces.held_eq_nil {r : Relay α} {a : α} (h : r.Traces id base es)
    (hr : r.result? = some a) : r.held = [] ∧ r.system.result? = some a := by
  unfold result? at hr
  split at hr
  next => cases hr
  next hown =>
    refine ⟨List.eq_nil_iff_forall_not_mem.mpr fun x hx => hown ?_, hr⟩
    -- there is no worker any more that could have something in hand
    refine List.any_eq_true.mpr ⟨x, hx, ?_⟩
    rcases h.works x hx with hx | hx
    · simpa using hx
    · obtain ⟨⟨world, main, leaves⟩, held, received⟩ := r
      cases main with
      | program p => cases hx
      | stepping => cases hr

end Relay

end WorkflowEngine
