import Mathlib.Data.Option.Basic
import Mathlib.Logic.Relation
import WorkflowEngine.Proofs.Run.Calls
import WorkflowEngine.Proofs.Simulation.Turns

/-!
# How long approvals are waited for

A step that needs an approval pauses the run and then waits for a verdict. It waits for as many
seconds as the step itself tells, or as the configuration tells if the step does not. The clock does
not move past that as long as it waits. So the limit of the configuration bounds the wait unless the
step has a greater one of its own.

## Main definitions

* `Program.PausesAs`: a program waits for an approval whenever it has paused the run
* `System.Paces`: so do all simple steps that are being done, each as its own head tells
* `Machine.Fits`: what holds of a machine in every state
* `Machine.isApproving`, `Machine.Stays`: a thread waits for an approval, now and for a while
* `Machine.DueBy`: a thread waits for an approval till a time
* `Machine.EndsBy`: it still does, or the wait is over by then

## Main results

* `Machine.Fits.pauses`: a thread that pauses the run waits for an approval next
* `Machine.Fits.next`, `Machine.DueBy.next`: what may happen to a machine keeps to both
* `approval_ends_by_own_limit`: how long approvals are waited for
* `approval_outlasts_configured_limit`: a wait for longer than the configuration tells
-/

namespace WorkflowEngine

open Relation (ReflTransGen)

open Simulation.Machine (isApproval)

/-! ### Programs that pause the run -/

/-- **A program that waits for an approval whenever it has paused the run**: next, for the same
step, and for so many seconds. It waits for none after that. -/
def Program.PausesAs {α : Type} (stepId : String) (secs : Nat) : Program α → Prop
  | .done _ => True
  | .ask r next =>
    (∀ i s reason, r = .emit i (.paused s reason) → s = stepId ∧
      ∀ reply, ∃ prompt k, next reply = .ask (.awaitApproval i stepId secs prompt) k) ∧
    (isApproval r = true → ∀ reply, (next reply).Asks fun r => isApproval r = false) ∧
    ∀ reply, PausesAs stepId secs (next reply)

theorem Program.PausesAs.of_asks {α : Type} {stepId : String} {secs : Nat} {p : Program α}
    (hp : p.Asks fun r => isApproval r = false ∧ ∀ i s reason, r ≠ .emit i (.paused s reason)) :
    p.PausesAs stepId secs := by
  induction p with
  | done => trivial
  | ask r next ih =>
    exact ⟨fun i s reason hr => absurd hr (hp.1.2 i s reason),
      fun hr => absurd (hp.1.1.symm.trans hr) Bool.false_ne_true,
      fun reply => ih reply (hp.2 reply)⟩

/-- **A simple step waits for an approval as its own head tells.** -/
theorem Leaf.pausesAs_run (engine : Expr.Engine) (config : Config) (a : Assignment) (head : Head)
    (leaf : Leaf) (depth : Nat) (c : Context) :
    (Leaf.run engine config a head leaf depth c).PausesAs head.id
      (Leaf.approvalTimeout config head.policy) := by
  unfold Leaf.run
  split
  · rw [awaitApproval_eq]
    refine ⟨by rintro _ _ _ ⟨⟩, by rintro ⟨⟩, fun cancelled => ?_⟩
    cases (cancelled : Bool) with
    | true => trivial
    | false =>
      simp only [Bool.false_eq_true, if_false]
      split
      · trivial
      next prompt hp =>
        -- all that may follow a verdict is to go on
        have hrest (verdict : Verdict) : Program.Asks (fun r => isApproval r = false ∧
            ∀ i s reason, r ≠ .emit i (.paused s reason))
            (if (ofVerdict head.id verdict).isOk then
              .ask (.emit a.executionId (.resumed head.id)) fun _ =>
                .done (ofVerdict head.id verdict)
            else .done (ofVerdict head.id verdict)) := by
          split
          · exact ⟨⟨rfl, by rintro _ _ _ ⟨⟩⟩, fun _ => trivial⟩
          · trivial
        refine ⟨?_, by rintro ⟨⟩, fun _ => ⟨by rintro _ _ _ ⟨⟩,
          fun _ verdict => (hrest verdict).mono fun _ h => h.1,
          fun verdict => .of_asks (hrest verdict)⟩⟩
        rintro _ _ _ ⟨⟩
        exact ⟨rfl, fun _ => ⟨prompt, _, rfl⟩⟩
  · unfold dispatch
    split
    · trivial
    · exact .of_asks (asks_attempt ⟨rfl, by rintro _ _ _ ⟨⟩⟩ ⟨rfl, by rintro _ _ _ ⟨⟩⟩ _ _)

/-! ### Systems -/

namespace System

/-- The head of the simple step that a thread does. -/
def headAt? {α : Type} (s : System α) (path : Path) : Option Head :=
  match s.main with
  | .stepping _ t _ => (t.callAt? path).map Prod.fst
  | .program _ => none

/-- The event that the simple step of a thread announces next. -/
def announces? {α : Type} (s : System α) (path : Path) : Option (Uuid × EventData) :=
  match s.leaf? path with
  | some (.ask (.emit i data) _) => some (i, data)
  | _ => none

variable {α : Type} {engine : Expr.Engine} {config : Config} {s s' : System α} {path : Path}

theorem exists_leaf?_of_announces? {i : Uuid} {data : EventData}
    (h : s.announces? path = some (i, data)) :
    ∃ k, s.leaf? path = some (.ask (.emit i data) k) := by
  unfold announces? at h
  split at h
  next k hl =>
    cases h
    exact ⟨k, hl⟩
  next => cases h

/-- **All simple steps that are being done wait for approvals as their own heads tell.** -/
inductive Paces (config : Config) : System α → Prop where
  | program {w p} : Paces config (.ofProgram w p)
  | stepping {st a next} (h : Passage.Calls (fun head _ _ _ p =>
      p.PausesAs head.id (Leaf.approvalTimeout config head.policy)) st) :
      Paces config (Passage.toSystem st a next)

theorem Paces.withWorld (hs : s.Paces config) (w : World) :
    System.Paces config { s with world := w } := by
  cases hs with
  | program => exact .program
  | @stepping st a next h =>
    have h' : Passage.Calls _ { st with world := w } := h
    exact .stepping h'

theorem Paces.move {e : Effect} (hs : s.Paces config)
    (h : s.move (.ofConfig engine config) path = some (s', e)) : s'.Paces config := by
  have h := System.Step.move (S := .ofRun engine config .nil Eq) h
  cases hs with
  | program =>
    obtain ⟨-, ⟨r, next, reply, w', rfl, hr, rfl⟩ | ⟨a, step, c, next, rfl, rfl⟩⟩ := h.of_program
    · exact .program
    · exact .stepping (.start _ step c 0)
  | @stepping st a next hst =>
    rcases h.of_toSystem with ⟨st', hst', rfl⟩ | ⟨o, ho, -, rfl⟩
    · exact .stepping (hst.step (Leaf.pausesAs_run engine config a)
        (fun _ _ _ _ _ _ reply hp => hp.2.2 reply) hst')
    · have hsound : st.Sound := fun path p hp => by
        obtain ⟨head, leaf, d, c, hc, -⟩ := hst path p hp
        rw [hc]
        rfl
      rw [hsound.leaves_eq_nil ho]
      exact .program

theorem Paces.tell {reply : (r : Request) → Option r.Reply} (hs : s.Paces config)
    (h : s.tell path reply = some s') : s'.Paces config := by
  obtain ⟨-, -, r, k, a, hl, -, rfl⟩ := tell_leaf? h
  cases hs with
  | program => cases hl
  | @stepping st b next hst =>
    obtain ⟨head, leaf, d, c, hc, hp⟩ := hst path _ hl
    exact .stepping (hst.setLeaf hc (hp.2.2 a))

/-- A thread that asks for something from outside moves only if it need not wait for that. -/
theorem move_of_isOutside (setting : Setting) {r : Request} {k : r.Reply → LeafProgram}
    (hs : s.Paces config) (hl : s.leaf? path = some (.ask r k)) (hr : r.isOutside = true) :
    s.move setting path =
      (s.world.release r).map fun reply => (s.setLeaf path (k reply), .silent) := by
  cases hs with
  | program => cases hl
  | @stepping st a next hst =>
    have hl : st.leaf? path = some (.ask r k) := hl
    have hn : (st.toSystem a next).world.serve r = none := World.serve_eq_none_iff.mpr hr
    rw [System.move_toSystem, hl]
    simp only [System.moveLeaf, hn, Option.map_map, Function.comp_def]

/-- A simple step that waits for an approval waits for none after that. -/
theorem Paces.asks_next (hs : s.Paces config) {r : Request} {k : r.Reply → LeafProgram}
    (hl : s.leaf? path = some (.ask r k)) (hr : isApproval r = true) (a : r.Reply) :
    (k a).Asks fun r => isApproval r = false := by
  cases hs with
  | program => cases hl
  | stepping hst =>
    obtain ⟨head, leaf, d, c, -, hp⟩ := hst path _ hl
    exact hp.2.1 hr a

/-- **A thread that pauses the run** does a simple step with the id that is told of, and asks for an
approval of it next. -/
theorem Paces.pauses (setting : Setting) (hs : s.Paces config) {i : Uuid} {stepId reason : String}
    (hp : s.announces? path = some (i, .paused stepId reason)) :
    ∃ head s', s.headAt? path = some head ∧ head.id = stepId ∧
      s.move setting path = some (s', .silent) ∧
      s'.world = s.world.emit i (.paused stepId reason) ∧ ∃ prompt k, s'.leaf? path = some (.ask
        (.awaitApproval i stepId (Leaf.approvalTimeout config head.policy) prompt) k) := by
  obtain ⟨k, hl⟩ := exists_leaf?_of_announces? hp
  cases hs with
  | program => cases hl
  | @stepping st a next hst =>
    have hl : st.leaf? path = some (.ask (.emit i (.paused stepId reason)) k) := hl
    obtain ⟨head, leaf, d, c, hc, hpaces⟩ := hst path _ hl
    obtain ⟨rfl, hk⟩ := hpaces.1 i stepId reason rfl
    obtain ⟨prompt, k', hk⟩ := hk ()
    let w := st.world.emit i (.paused head.id reason)
    refine ⟨head, ({ st with world := w }.toSystem a next).setLeaf path (k ()),
      congrArg (Option.map Prod.fst) hc, rfl, ?_, rfl, prompt, k', ?_⟩
    · rw [System.move_toSystem, hl]
      rfl
    · rw [leaf?_setLeaf, if_pos rfl, hk]

end System

namespace Simulation

/-! ### Machines in every state -/

/-- An answer is a verdict, as whoever waits for an approval expects it. -/
def Answer.IsVerdict (a : Answer) : Prop := ∃ v, a = .verdict v

/-- Whoever gives approvals answers with verdicts. -/
def Approver.GivesVerdicts : Approver → Prop
  | .scripted script => ∀ x ∈ script, ∀ r ∈ x.2, r.answer.IsVerdict
  | .policy _ => True

namespace Host

variable {h : Host} {r : Request} {b : Beginning}

theorem approver_begin? (hb : h.begin? r = some b) : b.host.approver = h.approver := by
  cases r with
  | execute r caller secs =>
    cases hb
    dsimp only [beginCall]
    split <;> rfl
  | delegate | awaitApproval =>
    cases hb
    rfl
  | _ => cases hb

theorem isVerdict_begin? (hh : h.approver.GivesVerdicts) (hb : h.begin? r = some b)
    (hr : Machine.isApproval r = true) : b.reaction.answer.IsVerdict := by
  cases r with
  | awaitApproval id stepId secs prompt =>
    cases hb
    dsimp only [beginApproval]
    split
    next v happ => exact ⟨v, rfl⟩
    next script happ =>
      rw [happ] at hh
      cases hs : script.reaction? stepId ((h.approvals.lookup stepId).getD 0) with
      | none => exact ⟨_, rfl⟩
      | some reaction =>
        obtain ⟨reactions, hlookup, hreaction⟩ := Option.bind_eq_some_iff.mp hs
        obtain ⟨l, l', rfl, -⟩ := List.lookup_eq_some_iff.mp hlookup
        refine hh _ (List.mem_append_right _ (List.mem_cons_self ..)) reaction ?_
        rcases (Option.orElse_eq_some _ _ _).mp hreaction with hr | ⟨-, hr⟩
        · exact List.mem_of_getElem? hr
        · exact List.mem_of_getLast? hr
  | _ => cases hr

end Host

variable {α : Type} {engine : Expr.Engine} {config : Config} {m m' : Machine α} {x : Wait}
  {path : Path}

/-- **A thread waits for something from outside** that its simple step asks for. -/
def Wait.Fits (x : Wait) (s : System α) : Prop :=
  ∃ r k, s.leaf? x.path = some (.ask r k) ∧ r.isOutside = true ∧
    (Machine.isApproval r = true → x.reaction.answer.IsVerdict)

theorem Wait.Fits.of_leaf? {s s' : System α} (hx : x.Fits s)
    (h : s'.leaf? x.path = s.leaf? x.path) : x.Fits s' := by
  obtain ⟨r, k, hl, hr⟩ := hx
  exact ⟨r, k, h.trans hl, hr⟩

namespace Machine

/-- **What holds of a machine in every state.** -/
structure Fits (engine : Expr.Engine) (config : Config) (m : Machine α) : Prop where
  setting : m.setting = .ofConfig engine config
  approver : m.host.approver.GivesVerdicts
  paces : m.system.Paces config
  waits : ∀ x ∈ m.waits, x.Fits m.system

theorem Fits.stirs (h : m.Fits engine config) (hm : m.Stirs m') : m'.Fits engine config := by
  obtain ⟨-, -⟩ := hm
  exact ⟨h.setting, h.approver, h.paces.withWorld _, h.waits⟩

theorem Fits.deliver (h : m.Fits engine config) (x : Wait)
    (reply : (r : Request) → Option r.Reply) : (m.deliver x reply).Fits engine config := by
  obtain ⟨host, hhost, ⟨s, hs, he⟩ | ⟨-, he⟩⟩ := m.deliver_cases x reply
  · rw [he]
    refine ⟨h.setting, hhost ▸ h.approver, h.paces.tell hs, fun y hy => ?_⟩
    obtain ⟨hy, hne⟩ := List.mem_filter.mp hy
    exact (h.waits y hy).of_leaf? ((System.tell_leaf? hs).2.1 y.path (by simpa using hne))
  · rw [he]
    exact ⟨h.setting, hhost ▸ h.approver, h.paces, fun y hy => h.waits y (List.mem_filter.mp hy).1⟩

theorem Fits.polls (h : m.Fits engine config) (hx : x ∈ m.waits) (hp : m.Polls x m') :
    m'.Fits engine config := by
  have hfits := h.waits x hx
  cases hp with
  | @waits m₀ t hm =>
    have h₀ := h.stirs hm
    refine ⟨h₀.setting, h₀.approver, h₀.paces, fun y hy => ?_⟩
    -- only the time of the answer may have changed, in the entry of the thread itself
    obtain ⟨z, hz, rfl⟩ := List.mem_map.mp hy
    split
    · obtain ⟨-, -⟩ := hm
      exact hfits
    · exact h₀.waits z hz
  | told hm => exact (h.stirs hm).deliver _ _

/-- A thread begins to wait. -/
theorem Fits.begins (h : m.Fits engine config) {r : Request} {b : Beginning}
    (hr : m.system.waitsFor? path = some r) (hb : m.host.begin? r = some b) (w : World) :
    Fits engine config { m.setWorld w with
      host := b.host, waits := m.waits ++ [m.awaits path r b] } := by
  obtain ⟨hout, k, hl⟩ := System.exists_leaf?_of_waitsFor? hr
  refine ⟨h.setting, ?_, h.paces.withWorld w, fun y hy => ?_⟩
  · exact (Host.approver_begin? hb).symm ▸ h.approver
  · rcases List.mem_append.mp hy with hy | hy
    · exact h.waits y hy
    · obtain rfl := List.mem_singleton.mp hy
      exact ⟨r, k, hl, hout, Host.isVerdict_begin? h.approver hb⟩

theorem Fits.takes (h : m.Fits engine config) (ht : m.Takes m') : m'.Fits engine config := by
  cases ht with
  | looks _ hx hp => exact h.polls (List.mem_of_find?_eq_some hx) hp
  | @moves path s e _ _ _ hx hm =>
    rw [h.setting] at hm
    refine ⟨h.setting, h.approver, h.paces.move hm, fun y hy => ?_⟩
    exact (h.waits y hy).of_leaf?
      ((System.move_leaf? hm).2 y.path (find?_waits_eq_none.mp hx y hy))
  | @begins path r b w _ _ _ _ hr hb _ hp =>
    exact (h.begins hr hb w).polls (List.mem_append_right _ (List.mem_singleton_self _)) hp
  | rests => exact ⟨h.setting, h.approver, h.paces, h.waits⟩
  | cancels _ hm =>
    have h₀ := h.stirs hm
    exact ⟨h₀.setting, h₀.approver, h₀.paces, h₀.waits⟩
  | turns => exact ⟨h.setting, h.approver, h.paces, h.waits⟩
  | @passes d _ _ _ hm =>
    refine Fits.stirs (m := m.setWorld { m.system.world with clock := max d m.clock }) ?_ hm
    exact ⟨h.setting, h.approver, h.paces.withWorld _, h.waits⟩

/-- **Whatever may happen to a machine.** -/
theorem Fits.next (h : m.Fits engine config) (hm : m.Next m') : m'.Fits engine config := by
  cases hm with
  | step hs => exact h.takes (takes_step hs)
  | others hm => exact h.stirs hm

theorem Fits.reaches (h : m.Fits engine config) (hm : ReflTransGen Next m m') :
    m'.Fits engine config := by
  induction hm with
  | refl => exact h
  | tail _ hn ih => exact ih.next hn

/-- No thread waits at the beginning. -/
theorem fits_start {host : Host} (hh : host.approver.GivesVerdicts) (w : World) (p : Program α)
    (canceller : Option Canceller) :
    Fits engine config { start (.ofConfig engine config) host w p with canceller } :=
  ⟨rfl, hh, .program, by rintro x ⟨⟩⟩

/-! ### Waiting for an approval -/

/-- Whoever waits for an approval takes any answer that there may be. -/
theorem isSome_reply {r : Request} {reply : (r : Request) → Option r.Reply}
    (hr : isApproval r = true) (hx : x.reaction.answer.IsVerdict)
    (hreply : reply = abandoned ∨ reply = timeUp ∨ reply = x.reaction.answer.reply) :
    (reply r).isSome = true := by
  obtain ⟨v, hv⟩ := hx
  cases r with
  | awaitApproval =>
    rcases hreply with rfl | rfl | rfl
    · rfl
    · rfl
    · rw [hv]
      rfl
  | _ => cases hr

/-- A thread waits for an approval. -/
def isApproving (m : Machine α) (path : Path) : Bool := (m.system.waitsFor? path).any isApproval

variable {p : LeafProgram}

theorem isApproving_of_leaf? {r : Request} {k : r.Reply → LeafProgram}
    (hl : m.system.leaf? path = some (.ask r k)) (hr : isApproval r = true) :
    m.isApproving path = true := by
  cases r with
  | awaitApproval =>
    rw [isApproving, System.waitsFor?, hl]
    rfl
  | _ => cases hr

theorem isApproving_of_asks (hl : m.system.leaf? path = some p)
    (hp : p.Asks fun r => isApproval r = false) : m.isApproving path = false := by
  cases hw : m.system.waitsFor? path with
  | none =>
    rw [isApproving, hw]
    rfl
  | some r =>
    obtain ⟨-, k, hl'⟩ := System.exists_leaf?_of_waitsFor? hw
    cases hl.symm.trans hl'
    rw [isApproving, hw]
    exact hp.1

/-- **A thread waits for an approval till a time**: what it waits for ends then, if not before. -/
structure WaitsTill (m : Machine α) (path : Path) (time : Nat) : Prop where
  leaf : ∃ r k, m.system.leaf? path = some (.ask r k) ∧ isApproval r = true
  isWaiting : ∃ x ∈ m.waits, x.path = path
  timeoutAt : ∀ x ∈ m.waits, x.path = path → x.timeoutAt = some time
  clock : m.clock ≤ time

variable {time : Nat}

/-- **A thread waits for an approval, or is about to**, till a time. -/
inductive DueBy (m : Machine α) (path : Path) (time : Nat) : Prop where
  | begins {i stepId secs prompt k}
      (hl : m.system.leaf? path = some (.ask (.awaitApproval i stepId secs prompt) k))
      (hturn : m.running = some (.path path)) (hx : ∀ x ∈ m.waits, x.path ≠ path)
      (ht : m.clock + secs * 1000 = time)
  | waits (h : m.WaitsTill path time)

theorem DueBy.clock (h : m.DueBy path time) : m.clock ≤ time := by
  cases h with
  | begins _ _ _ ht => exact ht ▸ Nat.le_add_right ..
  | waits h => exact h.clock

theorem DueBy.isApproving (h : m.DueBy path time) : m.isApproving path = true := by
  cases h with
  | begins hl => exact isApproving_of_leaf? hl rfl
  | waits h =>
    obtain ⟨r, k, hl, hr⟩ := h.leaf
    exact isApproving_of_leaf? hl hr

/-- **A thread still waits for an approval till a time, or has ended to by then** and has its turn,
so that it goes on at once. -/
structure EndsBy (m : Machine α) (path : Path) (time : Nat) : Prop where
  clock : m.clock ≤ time
  goesOn : m.DueBy path time ∨ m.isApproving path = false ∧ m.running = some (.path path)

theorem DueBy.endsBy (h : m.DueBy path time) : m.EndsBy path time := ⟨h.clock, .inl h⟩

theorem WaitsTill.endsBy (h : m.WaitsTill path time) : m.EndsBy path time := (DueBy.waits h).endsBy

theorem WaitsTill.stirs (h : m.WaitsTill path time) (hm : m.Stirs m') : m'.WaitsTill path time := by
  obtain ⟨hclock, -⟩ := hm
  exact ⟨h.leaf, h.isWaiting, h.timeoutAt, hclock.trans_le h.clock⟩

/-- Whoever is told an answer waits no longer, and all others go on to. -/
theorem WaitsTill.deliver (h : m.WaitsTill path time) (hf : m.Fits engine config)
    (hturn : m.running = some (.path x.path)) {reply : (r : Request) → Option r.Reply}
    (hreply : x.path = path → ∀ r, isApproval r = true → (reply r).isSome = true) :
    (m.deliver x reply).EndsBy path time := by
  obtain ⟨r, k, hl, hr⟩ := h.leaf
  -- the other threads wait for the same as before
  have hwaits (hne : x.path ≠ path) : ∃ y ∈ m.waits.filter (fun y => y.path != x.path),
      y.path = path := by
    obtain ⟨y, hy, rfl⟩ := h.isWaiting
    exact ⟨y, List.mem_filter.mpr ⟨hy, by simpa using hne.symm⟩, rfl⟩
  have htimeout : ∀ y ∈ m.waits.filter (fun y => y.path != x.path), y.path = path →
      y.timeoutAt = some time := fun y hy => h.timeoutAt y (List.mem_filter.mp hy).1
  obtain ⟨host, -, ⟨s, hs, he⟩ | ⟨hnone, he⟩⟩ := m.deliver_cases x reply
  · obtain ⟨hworld, hleaf, r', k', a, hl', -, rfl⟩ := System.tell_leaf? hs
    rw [he]
    by_cases hpath : x.path = path
    · -- it goes on, and waits for no approval any more
      subst hpath
      cases hl.symm.trans hl'
      exact ⟨h.clock, .inr ⟨isApproving_of_asks
        ((System.leaf?_setLeaf m.system x.path x.path (k a)).trans (if_pos rfl))
        (hf.paces.asks_next hl hr a), hturn⟩⟩
    · refine WaitsTill.endsBy ⟨⟨r, k, (hleaf path (Ne.symm hpath)).trans hl, hr⟩, hwaits hpath,
        htimeout, h.clock⟩
  · rw [he]
    by_cases hpath : x.path = path
    · subst hpath
      obtain ⟨a, ha⟩ := Option.isSome_iff_exists.mp (hreply rfl r hr)
      rw [System.tell, hl] at hnone
      simp [ha] at hnone
    · exact WaitsTill.endsBy ⟨⟨r, k, hl, hr⟩, hwaits hpath, htimeout, h.clock⟩

theorem WaitsTill.polls (h : m.WaitsTill path time) (hf : m.Fits engine config)
    (hp : m.Polls x m') (hx : x ∈ m.waits) (hturn : m.running = some (.path x.path)) :
    m'.EndsBy path time := by
  cases hp with
  | @waits m₀ t hm =>
    have h₀ := h.stirs hm
    obtain ⟨-, -⟩ := hm
    refine WaitsTill.endsBy ⟨h₀.leaf, ?_, ?_, h₀.clock⟩
    · obtain ⟨y, hy, hyp⟩ := h₀.isWaiting
      refine ⟨_, List.mem_map_of_mem hy, ?_⟩
      split
      next hxy => exact (beq_iff_eq.mp hxy).symm.trans hyp
      next => exact hyp
    · intro z hz hzp
      obtain ⟨y, hy, rfl⟩ := List.mem_map.mp hz
      split at hzp
      · rw [if_pos ‹_›]
        exact h.timeoutAt x hx hzp
      · rw [if_neg ‹_›]
        exact h.timeoutAt y hy hzp
  | @told m₀ t reply hm hreply =>
    -- what is told cannot be refused, so that no thread waits on without an entry
    have hturn₀ : m₀.running = some (.path x.path) := by
      obtain ⟨-, -⟩ := hm
      exact hturn
    refine (h.stirs hm).deliver (hf.stirs hm) hturn₀ fun hpath r hr => ?_
    obtain ⟨r', k, hl, -, hverdict⟩ := hf.waits x hx
    obtain ⟨r₀, k₀, hl₀, hr₀⟩ := h.leaf
    subst hpath
    cases hl.symm.trans hl₀
    exact isSome_reply hr (hverdict hr₀) hreply

/-- **As long as a thread waits for an approval**, it waits till the same time, and the clock does
not move past that. -/
theorem WaitsTill.takes (h : m.WaitsTill path time) (hf : m.Fits engine config) (ht : m.Takes m') :
    m'.EndsBy path time := by
  -- a thread whose turn it is and that does not wait is another one
  have hother {q : Path} (hq : m.waits.find? (fun x => x.path == q) = none) : path ≠ q := by
    rintro rfl
    obtain ⟨x, hx, hxp⟩ := h.isWaiting
    exact find?_waits_eq_none.mp hq x hx hxp
  cases ht with
  | @looks q x _ hturn hx hp =>
    obtain rfl : x.path = q := by simpa using List.find?_some hx
    exact h.polls hf hp (List.mem_of_find?_eq_some hx) hturn
  | @moves q s e _ _ _ hx hm =>
    obtain ⟨hclock, hleaf⟩ := System.move_leaf? hm
    obtain ⟨r, k, hl, hr⟩ := h.leaf
    exact WaitsTill.endsBy ⟨⟨r, k, (hleaf path (hother hx)).trans hl, hr⟩, h.isWaiting, h.timeoutAt,
      hclock.trans_le h.clock⟩
  | @begins q r b w _ hturn hx hm hr hb hclock hp =>
    have hq := hother hx
    refine WaitsTill.polls (m := { m.setWorld w with
        host := b.host, waits := m.waits ++ [m.awaits q r b] })
      ⟨h.leaf, ?_, fun y hy hyp => ?_, hclock.trans_le h.clock⟩
      (hf.begins hr hb w) hp (List.mem_append_right _ (List.mem_singleton_self _)) hturn
    · obtain ⟨y, hy, hyp⟩ := h.isWaiting
      exact ⟨y, List.mem_append_left _ hy, hyp⟩
    · rcases List.mem_append.mp hy with hy | hy
      · exact h.timeoutAt y hy hyp
      · obtain rfl := List.mem_singleton.mp hy
        exact absurd hyp.symm hq
  | rests => exact WaitsTill.endsBy ⟨h.leaf, h.isWaiting, h.timeoutAt, h.clock⟩
  | cancels _ hm =>
    have h₀ := h.stirs hm
    exact WaitsTill.endsBy ⟨h₀.leaf, h₀.isWaiting, h₀.timeoutAt, h₀.clock⟩
  | turns => exact WaitsTill.endsBy ⟨h.leaf, h.isWaiting, h.timeoutAt, h.clock⟩
  | @passes d _ _ hd hm =>
    -- the clock stops at the time of this wait at the latest
    obtain ⟨x, hx, hxp⟩ := h.isWaiting
    refine (WaitsTill.stirs (m := m.setWorld { m.system.world with clock := max d m.clock })
      ⟨h.leaf, h.isWaiting, h.timeoutAt, ?_⟩ hm).endsBy
    exact Nat.max_le.mpr ⟨hd x hx time (h.timeoutAt x hx hxp), h.clock⟩

/-- A thread begins to wait for an approval. -/
theorem waitsTill_begins {i : Uuid} {stepId : String} {secs : Nat} {prompt : Option String}
    {k : Verdict → LeafProgram} {b : Beginning} {w : World}
    (hl : m.system.leaf? path = some (.ask (.awaitApproval i stepId secs prompt) k))
    (hx : ∀ x ∈ m.waits, x.path ≠ path)
    (hb : m.host.begin? (.awaitApproval i stepId secs prompt) = some b)
    (hclock : w.clock = m.clock) :
    WaitsTill
      { m.setWorld w with
        host := b.host
        waits := m.waits ++ [m.awaits path (.awaitApproval i stepId secs prompt) b] }
      path (m.clock + secs * 1000) := by
  cases hb
  refine ⟨⟨.awaitApproval .., k, hl, rfl⟩,
    ⟨_, List.mem_append_right _ (List.mem_singleton_self _), rfl⟩, fun y hy hyp => ?_,
    hclock.trans_le (Nat.le_add_right ..)⟩
  rcases List.mem_append.mp hy with hy | hy
  · exact absurd hyp (hx y hy)
  · obtain rfl := List.mem_singleton.mp hy
    rfl

/-- A machine does not stop as long as a thread waits for an approval. -/
theorem DueBy.isSome_step (h : m.DueBy path time) : m.step.isSome = true := by
  cases h with
  | begins _ hturn =>
    rw [step, hturn]
    rfl
  | waits h =>
    obtain ⟨x, hx, hxp⟩ := h.isWaiting
    exact Machine.isSome_step hx (h.timeoutAt x hx hxp)

/-- **A thread that is about to wait for an approval** in a cancelled run goes on at once. -/
theorem endsBy_release {i : Uuid} {stepId : String} {secs : Nat} {prompt : Option String}
    {k : Verdict → LeafProgram} {verdict : Verdict} (hf : m.Fits engine config)
    (hl : m.system.leaf? path = some (.ask (.awaitApproval i stepId secs prompt) k))
    (hturn : m.running = some (.path path)) (hx : ∀ x ∈ m.waits, x.path ≠ path)
    (hrelease : m.system.world.release (.awaitApproval i stepId secs prompt) = some verdict)
    (hs : m.step = some m') : m'.EndsBy path (m.clock + secs * 1000) := by
  have hnone := find?_waits_eq_none.mpr hx
  have hmove : m.system.move m.setting path =
      some (m.system.setLeaf path (k verdict), .silent) :=
    (System.move_of_isOutside m.setting hf.paces hl rfl).trans (congrArg (Option.map _) hrelease)
  obtain rfl : { m with system := m.system.setLeaf path (k verdict) } = m' := by
    rw [step, hturn] at hs
    simpa only [proceed, hnone, hmove, after, Option.some.injEq] using hs
  have hl' : (m.system.setLeaf path (k verdict)).leaf? path = some (k verdict) :=
    (System.leaf?_setLeaf m.system path path (k verdict)).trans (if_pos rfl)
  exact ⟨Nat.le_add_right .., .inr ⟨isApproving_of_asks hl' (hf.paces.asks_next hl rfl verdict),
    hturn⟩⟩

/-- **A thread that is about to wait for an approval** does so when it goes on. -/
theorem waitsTill_step {i : Uuid} {stepId : String} {secs : Nat} {prompt : Option String}
    {k : Verdict → LeafProgram} (hf : m.Fits engine config)
    (hl : m.system.leaf? path = some (.ask (.awaitApproval i stepId secs prompt) k))
    (hturn : m.running = some (.path path)) (hx : ∀ x ∈ m.waits, x.path ≠ path)
    (hrelease : m.system.world.release (.awaitApproval i stepId secs prompt) = none)
    (hs : m.step = some m') : m'.EndsBy path (m.clock + secs * 1000) := by
  have hnone := find?_waits_eq_none.mpr hx
  have hmove : m.system.move m.setting path = none :=
    (System.move_of_isOutside m.setting hf.paces hl rfl).trans (congrArg (Option.map _) hrelease)
  have hwaits : m.system.waitsFor? path = some (.awaitApproval i stepId secs prompt) := by
    rw [System.waitsFor?, hl]
    rfl
  cases takes_step hs with
  | looks hturn' hx' =>
    cases hturn.symm.trans hturn'
    cases hnone.symm.trans hx'
  | moves hturn' _ hmove' =>
    cases hturn.symm.trans hturn'
    cases hmove.symm.trans hmove'
  | @begins q r b w _ hturn' _ _ hr hb hclock hp =>
    cases hturn.symm.trans hturn'
    cases hwaits.symm.trans hr
    exact (waitsTill_begins hl hx hb hclock).polls (hf.begins hr hb w) hp
      (List.mem_append_right _ (List.mem_singleton_self _)) hturn
  | rests hturn' _ _ hb =>
    cases hturn.symm.trans hturn'
    cases hb _ hwaits
  | cancels hturn' => cases hturn.symm.trans hturn'
  | turns hturn' => cases hturn.symm.trans hturn'
  | passes hturn' => cases hturn.symm.trans hturn'

/-- **Whatever may happen** as long as a thread waits for an approval. -/
theorem DueBy.next (h : m.DueBy path time) (hf : m.Fits engine config) (hm : m.Next m') :
    m'.EndsBy path time := by
  cases h with
  | @begins i stepId secs prompt k hl hturn hx ht =>
    -- the thread keeps its turn from the pause on until it waits, and no time passes meanwhile
    cases hm with
    | others hm =>
      refine DueBy.endsBy ?_
      have hclock := hm.clock
      obtain ⟨-, -⟩ := hm
      exact .begins hl hturn hx ((congrArg (· + secs * 1000) hclock).trans ht)
    | step hs =>
      subst ht
      cases hrelease : m.system.world.release (.awaitApproval i stepId secs prompt) with
      | none => exact waitsTill_step hf hl hturn hx hrelease hs
      | some verdict => exact endsBy_release hf hl hturn hx hrelease hs
  | waits h =>
    cases hm with
    | others hm => exact (h.stirs hm).endsBy
    | step hs => exact h.takes hf (takes_step hs)

/-- **What may happen while a thread waits for an approval.** -/
inductive Stays (path : Path) (m m' : Machine α) : Prop where
  | next (happ : m.isApproving path = true) (h : m.Next m')

/-- A thread that waits for an approval before each of some steps has done so all the while. -/
theorem stays_run {n : Nat} (h : ∀ i < n, (m.run i).isApproving path = true) :
    ReflTransGen (Stays path) m (m.run n) := by
  induction n generalizing m with
  | zero => exact .refl
  | succ n ih =>
    have h₀ := h 0 (Nat.succ_pos n)
    unfold run
    split
    next m' hs =>
      refine .head (.next h₀ (.step hs)) (ih fun i hi => ?_)
      have hi := h (i + 1) (Nat.succ_lt_succ hi)
      rwa [run, hs] at hi
    next => exact .refl

/-- A thread that waits for an approval after each of some steps has done so since the first. -/
theorem exists_stays (path : Path) (n : Nat) (hs : m.step.isSome = true)
    (h : ∀ i < n, (m.run (i + 1)).isApproving path = true) :
    ∃ m₁, m.step = some m₁ ∧ ReflTransGen (Stays path) m₁ (m.run (n + 1)) := by
  obtain ⟨m₁, hs⟩ := Option.isSome_iff_exists.mp hs
  have hrun (i : Nat) : m.run (i + 1) = m₁.run i := by rw [run, hs]
  rw [hrun]
  exact ⟨m₁, hs, stays_run fun i hi => hrun i ▸ h i hi⟩

/-- **What is waited for ends by its time.** -/
theorem DueBy.stays (h : m.DueBy path time) (hf : m.Fits engine config)
    (hw : ReflTransGen (Stays path) m m') : m'.EndsBy path time := by
  have hall : m'.Fits engine config ∧ m'.EndsBy path time := by
    induction hw with
    | refl => exact ⟨hf, h.endsBy⟩
    | tail _ hn ih =>
      obtain ⟨happ, hn⟩ := hn
      obtain ⟨hf, -, hdue | ⟨hended, -⟩⟩ := ih
      · exact ⟨hf.next hn, hdue.next hf hn⟩
      · exact absurd (hended.symm.trans happ) Bool.false_ne_true
  exact hall.2

/-- **A thread that pauses the run waits for an approval next**, till the time that the head of its
simple step tells. -/
theorem Fits.pauses (h : m.Fits engine config) {i : Uuid} {stepId reason : String}
    (hturn : m.running = some (.path path))
    (hp : m.system.announces? path = some (i, .paused stepId reason)) (hs : m.step = some m') :
    ∃ head, m.system.headAt? path = some head ∧ head.id = stepId ∧
      m'.system.world = m.system.world.emit i (.paused stepId reason) ∧
      m'.DueBy path (m.clock + Leaf.approvalTimeout config head.policy * 1000) := by
  -- whoever waits already asks for something from outside
  have hx : ∀ x ∈ m.waits, x.path ≠ path := by
    rintro x hx rfl
    obtain ⟨r, k, hl, hr, -⟩ := h.waits x hx
    obtain ⟨k', hl'⟩ := System.exists_leaf?_of_announces? hp
    cases hl.symm.trans hl'
    cases hr
  have hnone := find?_waits_eq_none.mpr hx
  obtain ⟨head, s, hhead, hid, hmove, hworld, prompt, k, hl⟩ := h.paces.pauses m.setting hp
  obtain rfl : { m with system := s } = m' := by
    rw [step, hturn] at hs
    simpa only [proceed, hnone, hmove, after, Option.some.injEq] using hs
  have hclock : s.world.clock = m.clock := by
    rw [hworld]
    rfl
  refine ⟨head, hhead, hid, hworld, .begins hl hturn hx ?_⟩
  exact congrArg (· + Leaf.approvalTimeout config head.policy * 1000) hclock

end Machine

end Simulation

open Simulation

/-- **How long approvals are waited for.** -/
theorem approval_ends_by_own_limit {α : Type} {engine : Expr.Engine} {config : Config} {host : Host}
    {w : World} {p : Program α} {canceller : Option Canceller} {m m₁ m₂ : Machine α} {path : Path}
    {i : Uuid} {stepId reason : String} (hhost : host.approver.GivesVerdicts)
    (hm : ReflTransGen Machine.Next
      { Machine.start (.ofConfig engine config) host w p with canceller } m)
    (hturn : m.running = some (.path path))
    (hpaused : m.system.announces? path = some (i, .paused stepId reason)) (hs : m.step = some m₁)
    (hw : ReflTransGen (Machine.Stays path) m₁ m₂) :
    ∃ head, m.system.headAt? path = some head ∧ head.id = stepId ∧
      m₁.system.world = m.system.world.emit i (.paused stepId reason) ∧
      m₁.isApproving path = true ∧
      (m₂.isApproving path = true → m₂.step.isSome = true) ∧
      (m₂.isApproving path = false → m₂.running = some (.path path)) ∧
      (∀ secs, head.policy.timeoutSecs = some secs → m₂.clock ≤ m.clock + secs * 1000) ∧
      ((∀ secs, head.policy.timeoutSecs = some secs → secs ≤ config.approvalTimeoutSecs) →
        m₂.clock ≤ m.clock + config.approvalTimeoutSecs * 1000) := by
  have hf := (Machine.fits_start hhost w p canceller).reaches hm
  obtain ⟨head, hhead, hid, hworld, hdue⟩ := hf.pauses hturn hpaused hs
  obtain ⟨hle, hgoes⟩ := hdue.stays (hf.takes (Machine.takes_step hs)) hw
  refine ⟨head, hhead, hid, hworld, hdue.isApproving, fun happ => ?_, fun hended => ?_,
    fun secs hsecs => ?_, fun hsecs => ?_⟩
  · rcases hgoes with hdue₂ | ⟨hended, -⟩
    · exact hdue₂.isSome_step
    · exact absurd (hended.symm.trans happ) Bool.false_ne_true
  · rcases hgoes with hdue₂ | ⟨-, hturn₂⟩
    · exact absurd (hended.symm.trans hdue₂.isApproving) Bool.false_ne_true
    · exact hturn₂
  -- the limit is that of the step, and that of the configuration only if the step has none
  · rwa [Leaf.approvalTimeout, hsecs, Option.getD_some] at hle
  · cases hown : head.policy.timeoutSecs with
    | none => rwa [Leaf.approvalTimeout, hown, Option.getD_none] at hle
    | some secs =>
      rw [Leaf.approvalTimeout, hown, Option.getD_some] at hle
      exact hle.trans (Nat.add_le_add_left (Nat.mul_le_mul_right 1000 (hsecs secs hown)) _)

/-- An approval step, with or without a limit of its own. -/
def Workflow.approving (timeoutSecs : Option Nat) : Workflow :=
  { Workflow.single default false with
    steps := [.simple ⟨"a", none, ⟨timeoutSecs, none, false⟩⟩
      ⟨.human, Leaf.approvalAction, [], none, none⟩] }

/-- A run of it, where the configuration tells five seconds and the approval comes after seven. -/
def Simulation.Machine.approving (timeoutSecs : Option Nat) : Machine (Except RunError Summary) :=
  start (.ofConfig .null { approvalTimeoutSecs := 5 })
    { executor := .dryRun
      approver := .scripted [("a", [⟨7000, {}, false, false, .verdict (.decided ⟨true, none⟩)⟩])] }
    (.holding (.approving timeoutSecs)) (ExceptT.run (Orchestration.run .null ⟨1⟩))

/-- An approval step without a limit of its own is waited for as long as the configuration tells. -/
theorem approval_ends_by_own_limit_approving :
    ∃ m m₁ m₂ : Machine (Except RunError Summary),
      ReflTransGen Machine.Next (.approving none) m ∧
      m.system.announces? [] = some (⟨1⟩, .paused "a" "awaiting approval for step 'a'") ∧
      m.step = some m₁ ∧ ReflTransGen (Machine.Stays []) m₁ m₂ ∧ m₁.isApproving [] = true ∧
      m₂.isApproving [] = false ∧ m₂.clock ≤ m.clock + 5 * 1000 := by
  have hpaused : ((Machine.approving none).run 14).system.announces? [] =
      some (⟨1⟩, .paused "a" "awaiting approval for step 'a'") := by decide +kernel
  obtain ⟨m₁, hs, hw⟩ := Machine.exists_stays (m := (Machine.approving none).run 14) [] 4
    (by decide +kernel) (by decide +kernel)
  have hm : ReflTransGen Machine.Next { Machine.approving none with canceller := none } _ :=
    Machine.reaches_run (.approving none) 14
  have hverdicts : (Machine.approving none).host.approver.GivesVerdicts := by
    intro x hx r hr
    obtain rfl := List.mem_singleton.mp hx
    obtain rfl := List.mem_singleton.mp hr
    exact ⟨_, rfl⟩
  obtain ⟨head, hhead, -, -, happ, -, -, -, hle⟩ := approval_ends_by_own_limit hverdicts hm
    (by decide +kernel) hpaused hs hw
  have hown : (((Machine.approving none).run 14).system.headAt? []).map (·.policy.timeoutSecs) =
      some none := by decide +kernel
  refine ⟨_, m₁, _, hm, hpaused, hs, hw, happ, by decide +kernel, hle fun secs hsecs => ?_⟩
  rw [hhead, Option.map_some, hsecs] at hown
  cases hown

/-- An approval step with a limit of ten seconds is waited for longer than the configuration
tells. -/
theorem approval_outlasts_configured_limit :
    ∃ m m₁ m₂ : Machine (Except RunError Summary),
      ReflTransGen Machine.Next (.approving (some 10)) m ∧
      m.system.announces? [] = some (⟨1⟩, .paused "a" "awaiting approval for step 'a'") ∧
      m.step = some m₁ ∧ ReflTransGen (Machine.Stays []) m₁ m₂ ∧
      m₂.system.announces? [] = some (⟨1⟩, .resumed "a") ∧ m.clock + 5 * 1000 < m₂.clock := by
  obtain ⟨m₁, hs, hw⟩ := Machine.exists_stays (m := (Machine.approving (some 10)).run 14) [] 4
    (by decide +kernel) (by decide +kernel)
  exact ⟨_, m₁, _, Machine.reaches_run _ 14, by decide +kernel, hs, hw, by decide +kernel,
    by decide +kernel⟩

end WorkflowEngine
