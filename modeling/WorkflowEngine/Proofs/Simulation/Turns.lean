import Mathlib.Logic.Relation
import WorkflowEngine.Proofs.Run.Suspension
import WorkflowEngine.Simulation.Machine

/-!
# Turns of threads

A machine lets one thread after the other take its turn. A thread that takes its turn changes its
own simple step and what it waits for, and leaves those of all other threads alone. The clock stands
still meanwhile: it moves only when no thread can, and not past the deadline of a thread that waits.

## Main definitions

* `Machine.Stirs`: what is shared changes and threads are woken while the clock stands still
* `Machine.Polls`: what becomes of a thread that looks whether there is an answer
* `Machine.Takes`: what a machine does in one step
* `Machine.Next`: what may happen to a machine

## Main results

* `World.clock_perform`: programs that do not wait take no time
* `System.move_leaf?`, `System.tell_leaf?`: threads leave each other's simple steps alone
* `Machine.polls_poll`: a thread is told an answer, or waits as before
* `Machine.takes_step`: a machine does one of seven things; the clock does not move past a deadline
* `Machine.isSome_step`: a machine does not stop while the time of a thread that waits is not up
-/

namespace WorkflowEngine

open Relation (ReflTransGen)

/-! ### The clock -/

namespace World

variable {w w' : World}

theorem clock_countCall (w : World) (call : StoreCall) : (w.countCall call).2.clock = w.clock := by
  unfold countCall
  split <;> rfl

theorem clock_change (w : World) (call : StoreCall) (result : Store → Except StoreError Store) :
    (w.change call result).2.clock = w.clock := by
  have h := w.clock_countCall call
  unfold change
  split
  next r w₁ hc =>
    rw [hc] at h
    split
    · exact h
    · split <;> exact h

/-- **What is served takes no time.** -/
theorem clock_serve {r : Request} {reply : r.Reply} (hs : w.serve r = some (reply, w')) :
    w'.clock = w.clock := by
  cases r with
  | getWorkflows | getWorkflow | getExecution | getWorkItem =>
    cases hs
    exact w.clock_countCall _
  | createExecution | updateExecution =>
    obtain rfl : _ = w' := congrArg Prod.snd (Option.some.inj hs)
    exact w.clock_change _ _
  | runStep | execute | awaitApproval | delegate => cases hs
  | _ =>
    cases hs
    rfl

/-- **Programs that do not wait take no time.** -/
theorem clock_perform {α : Type} {p : Program α} {a : α} (h : w.perform p = some (a, w')) :
    w'.clock = w.clock := by
  induction p generalizing w with
  | done b =>
    cases h
    rfl
  | ask r k ih =>
    rw [perform] at h
    split at h
    next reply w₁ hs => exact (ih reply h).trans (clock_serve hs)
    next => cases h

end World

theorem Setting.clock_observe (setting : Setting) (a : Assignment) (w : World) (e : Effect) :
    (setting.observe a w e).clock = w.clock := by
  cases e with
  | finished step depth o ms =>
    unfold observe
    dsimp only
    split
    next w₁ hp =>
      have hclock := World.clock_perform hp
      exact hclock
    next => rfl
  | _ => rfl

/-! ### Simple steps of threads -/

namespace System

variable {α : Type} {s s' : System α} {path path' : Path}

@[simp] theorem leaf?_dropLeaf (s : System α) (path path' : Path) :
    (s.dropLeaf path).leaf? path' = if path' = path then none else s.leaf? path' :=
  Passage.lookup_others ⟨s.world, .mk {} .proceed [], s.leaves⟩ path path'

@[simp] theorem leaf?_setLeaf (s : System α) (path path' : Path) (p : LeafProgram) :
    (s.setLeaf path p).leaf? path' = if path' = path then some p else s.leaf? path' :=
  Passage.leaf?_setLeaf ⟨s.world, .mk {} .proceed [], s.leaves⟩ path path' p

/-- **A thread that moves leaves the simple steps of all others alone**, and takes no time. -/
theorem move_leaf? {setting : Setting} {e : Effect} (h : s.move setting path = some (s', e)) :
    s'.world.clock = s.world.clock ∧ ∀ q, q ≠ path → s'.leaf? q = s.leaf? q := by
  unfold move at h
  split at h
  next p hmain =>
    split at h
    next =>
      obtain ⟨s₁, hm, he⟩ := Option.map_eq_some_iff.mp h
      cases he
      unfold moveProgram at hm
      split at hm
      next => cases hm
      next =>
        cases hm
        exact ⟨rfl, fun _ _ => rfl⟩
      next =>
        obtain ⟨⟨reply, w'⟩, hs, rfl⟩ := Option.map_eq_some_iff.mp hm
        exact ⟨World.clock_serve hs, fun _ _ => rfl⟩
    next => cases h
  next a t next hmain =>
    split at h
    next p hp =>
      obtain ⟨s₁, hm, he⟩ := Option.map_eq_some_iff.mp h
      cases he
      unfold moveLeaf at hm
      split at hm
      next =>
        obtain ⟨t', -, rfl⟩ := Option.map_eq_some_iff.mp hm
        exact ⟨rfl, fun q hq => (s.leaf?_dropLeaf path q).trans (if_neg hq)⟩
      next r k =>
        split at hm
        next reply w' hs =>
          cases hm
          exact ⟨World.clock_serve hs, fun q hq =>
            (System.leaf?_setLeaf { s with world := w' } path q (k reply)).trans (if_neg hq)⟩
        next =>
          obtain ⟨reply, -, rfl⟩ := Option.map_eq_some_iff.mp hm
          exact ⟨rfl, fun q hq => (s.leaf?_setLeaf path q (k reply)).trans (if_neg hq)⟩
    next hp =>
      unfold moveTask at h
      split at h
      next t' effect ht =>
        cases h
        exact ⟨setting.clock_observe a s.world _, fun _ _ => rfl⟩
      next =>
        split at h
        next =>
          cases h
          exact ⟨rfl, fun q hq => (s.leaf?_setLeaf path q _).trans (if_neg hq)⟩
        next =>
          split at h
          next =>
            cases h
            exact ⟨rfl, fun _ _ => rfl⟩
          next => cases h

/-- **A thread that is told something goes on with its simple step**, and leaves those of all others
alone. -/
theorem tell_leaf? {reply : (r : Request) → Option r.Reply} (h : s.tell path reply = some s') :
    s'.world = s.world ∧ (∀ q, q ≠ path → s'.leaf? q = s.leaf? q) ∧
      ∃ r k a, s.leaf? path = some (.ask r k) ∧ reply r = some a ∧ s' = s.setLeaf path (k a) := by
  unfold tell at h
  split at h
  next r k hl =>
    obtain ⟨a, ha, rfl⟩ := Option.map_eq_some_iff.mp h
    exact ⟨rfl, fun q hq => (s.leaf?_setLeaf path q (k a)).trans (if_neg hq), r, k, a, hl, ha, rfl⟩
  next => cases h

end System

namespace Simulation

variable {α : Type} {m m' m'' : Machine α} {x : Wait}

namespace Machine

/-! ### What is shared -/

/-- **What is shared changes and threads are woken**, while the clock stands still. -/
inductive Stirs (m : Machine α) : Machine α → Prop where
  | mk {w ready} (hclock : w.clock = m.clock) (hready : m.ready ⊆ ready) :
      Stirs m { m.setWorld w with ready }

theorem Stirs.refl (m : Machine α) : m.Stirs m := .mk rfl (List.Subset.refl _)

theorem Stirs.trans (h : m.Stirs m') (h' : m'.Stirs m'') : m.Stirs m'' := by
  obtain ⟨hclock, hready⟩ := h
  obtain ⟨hclock', hready'⟩ := h'
  exact .mk (hclock'.trans hclock) (List.Subset.trans hready hready')

theorem Stirs.clock (h : m.Stirs m') : m'.clock = m.clock := by
  obtain ⟨hclock, -⟩ := h
  exact hclock

theorem stirs_setWorld {w : World} (h : w.clock = m.clock) : m.Stirs (m.setWorld w) :=
  .mk h (List.Subset.refl _)

theorem stirs_wake (m : Machine α) (t : Thread) : m.Stirs (m.wake t) := by
  unfold wake
  split
  · exact .refl m
  · exact .mk (w := m.system.world) rfl (List.subset_append_left ..)

theorem stirs_foldl_wake {β : Type} (f : β → Thread) (l : List β) (m : Machine α) :
    m.Stirs (l.foldl (fun m x => m.wake (f x)) m) := by
  induction l generalizing m with
  | nil => exact .refl m
  | cons x l ih => exact (m.stirs_wake (f x)).trans (ih _)

/-- Whoever cancels a run takes no time. -/
theorem stirs_cancel (m : Machine α) (id : Uuid) : m.Stirs (m.cancel id).1 := by
  unfold cancel
  split
  · exact .refl m
  next result world hp =>
    have hworld := stirs_setWorld (m := m) (World.clock_perform hp)
    dsimp only
    split
    · exact hworld.trans (stirs_foldl_wake _ _ _)
    · exact hworld

/-- What others do before they answer takes no time. -/
theorem stirs_affect (m : Machine α) (x : Wait) : m.Stirs (m.affect x) := by
  have hpatch := stirs_setWorld (m := m) (w := x.reaction.patch.applyTo m.system.world x.runId) rfl
  unfold affect
  dsimp only
  split
  · split
    · exact hpatch.trans (stirs_setWorld rfl)
    · exact hpatch.trans (stirs_cancel _ _)
  · exact hpatch

/-! ### Threads that wait -/

/-- **What becomes of a thread that looks whether there is an answer**: it is told one, or goes on
to wait as before. -/
inductive Polls (m : Machine α) (x : Wait) : Machine α → Prop where
  | waits {m₀ t} (hm : m.Stirs m₀) : Polls m x (m₀.setWait { x with readyAt := t }).pause
  | told {m₀ t reply} (hm : m.Stirs m₀)
      (hreply : reply = abandoned ∨ reply = timeUp ∨ reply = x.reaction.answer.reply) :
      Polls m x (m₀.deliver { x with readyAt := t } reply)

theorem polls_waitOn {m₀ : Machine α} (hm : m.Stirs m₀) (x : Wait) (t : Option Nat) :
    m.Polls x (m₀.waitOn { x with readyAt := t }) := by
  unfold waitOn
  split
  · exact .told hm (.inl rfl)
  · split
    · exact .told hm (.inr (.inl rfl))
    · exact .waits hm

theorem polls_poll (m : Machine α) (x : Wait) : m.Polls x (m.poll x) := by
  have haffect := m.stirs_affect x
  unfold poll
  split
  · -- the answer is there, and what comes with it happens before it is told
    dsimp only
    split
    · exact polls_waitOn haffect x none
    · exact .told (t := x.readyAt) haffect (.inr (.inr rfl))
  · exact polls_waitOn (.refl m) x x.readyAt

/-- A thread that is told an answer waits no longer. -/
theorem deliver_cases (m : Machine α) (x : Wait) (reply : (r : Request) → Option r.Reply) :
    ∃ host, host.approver = m.host.approver ∧
      ((∃ s, m.system.tell x.path reply = some s ∧
          m.deliver x reply = { m.dropWait x.path with host, system := s }) ∨
        m.system.tell x.path reply = none ∧
          m.deliver x reply = { m.dropWait x.path with host, running := none }) := by
  unfold deliver
  -- whether a call counts changes the number of calls in progress, and nothing else
  refine ⟨if x.counts then m.host.leaveCall else m.host, by split <;> rfl, ?_⟩
  cases ht : m.system.tell x.path reply with
  | some s =>
    refine .inl ⟨s, rfl, ?_⟩
    cases x.counts <;> simp [dropWait, ht]
  | none =>
    refine .inr ⟨rfl, ?_⟩
    cases x.counts <;> simp [dropWait, ht, pause]

/-! ### Steps -/

/-- A thread that does not wait has no entry. -/
theorem find?_waits_eq_none {path : Path} :
    m.waits.find? (fun x => x.path == path) = none ↔ ∀ x ∈ m.waits, x.path ≠ path := by
  simp [List.find?_eq_none]

/-- What a thread begins to wait for. -/
def awaits (m : Machine α) (path : Path) (r : Request) (b : Beginning) : Wait :=
  { path
    runId := b.runId
    reaction := b.reaction
    readyAt := some (m.clock + b.reaction.delayMs)
    timeoutAt := b.timeoutSecs.map fun secs => m.clock + secs * 1000
    isApproval := isApproval r
    counts := b.counts }

/-- **What a machine does in one step.** -/
inductive Takes (m : Machine α) : Machine α → Prop where
  /-- The thread whose turn it is waits already. -/
  | looks {path x m'} (hturn : m.running = some (.path path))
      (hx : m.waits.find? (fun x => x.path == path) = some x) (hp : m.Polls x m') : Takes m m'
  /-- It moves. -/
  | moves {path s e ready running} (hturn : m.running = some (.path path))
      (hx : m.waits.find? (fun x => x.path == path) = none)
      (hm : m.system.move m.setting path = some (s, e)) :
      Takes m { m with system := s, ready, running }
  /-- It begins to wait. -/
  | begins {path r b w m'} (hturn : m.running = some (.path path))
      (hx : m.waits.find? (fun x => x.path == path) = none)
      (hm : m.system.move m.setting path = none) (hr : m.system.waitsFor? path = some r)
      (hb : m.host.begin? r = some b) (hclock : w.clock = m.clock)
      (hp : Polls { m.setWorld w with host := b.host, waits := m.waits ++ [m.awaits path r b] }
        (m.awaits path r b) m') : Takes m m'
  /-- It cannot move. -/
  | rests {path} (hturn : m.running = some (.path path))
      (hx : m.waits.find? (fun x => x.path == path) = none)
      (hm : m.system.move m.setting path = none)
      (hr : ∀ r, m.system.waitsFor? path = some r → m.host.begin? r = none) : Takes m m.pause
  /-- Whoever is going to cancel the run has their turn. -/
  | cancels {n c} (hturn : m.running = some .canceller) (hm : m.Stirs n) :
      Takes m { n with canceller := c, running := none }
  /-- A thread gets its turn. -/
  | turns {t ready} (hturn : m.running = none) (hready : m.ready = t :: ready) :
      Takes m { m with ready, running := some t }
  /-- The clock moves. -/
  | passes {d m'} (hturn : m.running = none)
      (hd : ∀ x ∈ m.waits, ∀ t, x.timeoutAt = some t → d ≤ t)
      (hm : (m.setWorld { m.system.world with clock := max d m.clock }).Stirs m') : Takes m m'

theorem after_eq (m : Machine α) (path : Path) (e : Effect) :
    ∃ ready running, m.after path e = { m with ready, running } := by
  unfold after
  split
  · exact ⟨_, _, rfl⟩
  · unfold wake pause
    split <;> exact ⟨_, _, rfl⟩
  · exact ⟨_, _, rfl⟩

theorem takes_proceed {path : Path} (hturn : m.running = some (.path path)) :
    m.Takes (m.proceed path) := by
  unfold proceed
  split
  next x hx => exact .looks hturn hx (m.polls_poll x)
  next hx =>
    split
    next s e hm =>
      obtain ⟨ready, running, he⟩ := after_eq { m with system := s } path e
      rw [he]
      exact .moves hturn hx hm
    next hm =>
      split
      next r hr =>
        unfold beginWait
        split
        next hb => exact .rests hturn hx hm fun r' hr' => by cases hr.symm.trans hr'; exact hb
        next b hb =>
          exact .begins (w := m.system.world.note b.notice) hturn hx hm hr hb rfl (polls_poll _ _)
      next hr => exact .rests hturn hx hm fun r hr' => by cases hr.symm.trans hr'

theorem takes_proceedCanceller (hturn : m.running = some .canceller) :
    m.Takes m.proceedCanceller := by
  have hpause : m.Takes m.pause := .cancels (c := m.canceller) hturn (.refl m)
  unfold proceedCanceller
  split
  next c hc =>
    split
    next =>
      have hm := m.stirs_cancel c.runId
      generalize m.cancel c.runId = y at hm
      exact .cancels (n := y.1) hturn hm
    next => exact hpause
  next => exact hpause

/-- A thread that waits is woken before its time is up. -/
theorem exists_deadline {x : Wait} {t : Nat} (hx : x ∈ m.waits) (ht : x.timeoutAt = some t) :
    ∃ d ≤ t, (d, .path x.path) ∈ m.deadlines := by
  have hmem : ∀ d, x.deadline? = some d → (d, .path x.path) ∈ m.deadlines := fun d hd =>
    List.mem_append_left _ (List.mem_filterMap.mpr ⟨x, hx, by rw [hd]; rfl⟩)
  cases hr : x.readyAt with
  | none => exact ⟨t, Nat.le_refl t, hmem t (by rw [Wait.deadline?, hr, ht])⟩
  | some r => exact ⟨min r t, Nat.min_le_right r t, hmem _ (by rw [Wait.deadline?, hr, ht])⟩

/-- **The clock does not move past a deadline.** -/
theorem takes_advanceClock (hturn : m.running = none) (h : m.advanceClock = some m') :
    m.Takes m' := by
  unfold advanceClock at h
  split at h
  next => cases h
  next d hd =>
    cases h
    refine .passes (d := d) hturn (fun x hx t ht => ?_) (stirs_foldl_wake id _ _)
    obtain ⟨e, he, hmem⟩ := exists_deadline hx ht
    exact Nat.le_trans ((List.min?_eq_some_iff.mp hd).2 e (List.mem_map_of_mem hmem)) he

/-- **What a machine does in one step.** -/
theorem takes_step (h : m.step = some m') : m.Takes m' := by
  unfold step at h
  split at h
  next hturn => cases h; exact takes_proceed hturn
  next hturn => cases h; exact takes_proceedCanceller hturn
  next hturn =>
    split at h
    next hready => cases h; exact .turns hturn hready
    next => exact takes_advanceClock hturn h

/-- **A machine does not stop while the time of a thread that waits is not up.** -/
theorem isSome_step {x : Wait} {t : Nat} (hx : x ∈ m.waits) (ht : x.timeoutAt = some t) :
    m.step.isSome = true := by
  unfold step
  split
  · rfl
  · rfl
  · split
    · rfl
    · obtain ⟨d, -, hmem⟩ := exists_deadline hx ht
      unfold advanceClock
      split
      next hnone =>
        rw [List.min?_eq_none_iff, List.map_eq_nil_iff] at hnone
        rw [hnone] at hmem
        cases hmem
      next => rfl

/-- **What may happen to a machine**: it takes a step, or others change what is shared and wake
threads while the clock stands still. -/
inductive Next (m m' : Machine α) : Prop where
  | step (h : m.step = some m')
  | others (h : m.Stirs m')

/-- A machine that runs comes to states that it may come to. -/
theorem reaches_run (m : Machine α) (n : Nat) : ReflTransGen Next m (m.run n) := by
  induction n generalizing m with
  | zero => exact .refl
  | succ n ih =>
    unfold run
    split
    next m' hs => exact .head (.step hs) (ih m')
    next => exact .refl

end Machine

end Simulation

end WorkflowEngine
