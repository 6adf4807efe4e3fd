import WorkflowEngine.Proofs.Run.Beginning
import WorkflowEngine.Proofs.Run.Boundary
import WorkflowEngine.Proofs.Run.Within

/-!
# What threads come to

A thread that waits for no one has its next move, whatever others do before it makes that: they
leave its task alone. So what lies some moves ahead of a thread is come to as long as the thread is
let move, and what the thread still needs of the system holds.

## Main definitions

* `Control.isFree`: what is done next needs no one else
* `System.Idles`: what may happen before a thread makes its next move
* `System.ComesTo`: a thread comes to something by moves of its own

## Main results

* `Task.Moves.of_at?`: a task within the tree is moved by its thread
* `System.ComesTo.of_advance`: a thread that moves its task
* `System.ComesTo.of_over`: a program whose step is over
* `System.ComesTo.of_ends`: a program between its steps
-/

namespace WorkflowEngine

/-- What is done next needs neither the answer of a simple step nor a worker. -/
def Control.isFree {τ : Type} : Control τ → Bool
  | .calling .. => false
  | .joining _ => false
  | _ => true

/-- The thread has moved or was told something. -/
def Happening.isOf (path : Path) : Happening → Bool
  | .moved p _ _ _ => p = path
  | .told p _ => p = path
  | _ => false

namespace Task

variable {env : Env} {m : Moment}

/-- **A task within the tree that can move by itself is moved by its thread.** -/
theorem Moves.of_at? {path : List Nat} {t u u' : Task} {e : Effect} (hu : at? path t = some u)
    (ho : u.outcome? = none) (h : u.advance env m = some (u', e)) :
    ∃ t', Moves env m path t t' e ∧ at? path t' = some u' := by
  induction path generalizing t with
  | nil =>
    cases hu
    exact ⟨u', .here h, rfl⟩
  | cons i path ih =>
    obtain ⟨c, b, fs, index, t₁, rfl, hi, he⟩ := exists_worker_of_at? (Option.isSome_of_mem hu)
    have hu₁ : at? path t₁ = some u := he ▸ hu
    obtain ⟨t', hm, hu'⟩ := ih hu₁
    -- the worker around has not handed in its task
    have ho₁ : t₁.outcome? = none := by
      cases hx : t₁.outcome? with
      | none => rfl
      | some o => cases (outcome?_of_at? hx hu₁).symm.trans ho
    refine ⟨_, .inner hi ho₁ hm, ?_⟩
    rw [at?_of_running (Block.getElem?_setWorker hi (.running index t'))]
    exact hu'

/-- A task that does what needs no one else is not answered. -/
theorem Answers.not_of_isFree {r : Except StepError Json} {path : List Nat} {t t' : Task}
    (hfree : t.control.isFree = true) : ¬ Answers r path t t' := by
  rintro (_ | _) <;> cases hfree

/-- A task that does what needs no one else moves by itself only. -/
theorem Moves.of_isFree {path : List Nat} {t t' : Task} {e : Effect} (h : Moves env m path t t' e)
    (hfree : t.control.isFree = true) : path = [] := by
  cases h with
  | here => rfl
  | _ => cases hfree

theorem callAt?_of_isFree {t : Task} (hfree : t.control.isFree = true) : callAt? [] t = none := by
  obtain ⟨c, control, fs⟩ := t
  cases control with
  | calling => cases hfree
  | _ => rfl

end Task

variable {α β : Type} {S : Surroundings}

theorem Program.bind_assoc {γ : Type} (p : Program α) (f : α → Program β) (g : β → Program γ) :
    (p.bind f).bind g = p.bind fun x => (f x).bind g := by
  induction p with
  | done x => rfl
  | ask r k ih => exact congrArg (Program.ask r) (funext ih)

/-- A step that is run has begun as a task of its own. -/
theorem Program.Reaches.exists_passage {p : Program α} {w : World} {h : List Happening}
    {st : Passage} {a : Assignment} {k : Outcome × Context → Program α}
    (hr : Reaches S p w h (st.toSystem a k)) :
    ∃ step c w₀ h₀, Passage.Run S a ⟨w₀, .start step c 0, []⟩ h₀ st := by
  generalize hs : st.toSystem a k = s at hr
  induction hr with
  | here => cases hs
  | serve _ _ ih => exact ih hs
  | @during _ _ _ _ _ _ st' hst =>
    obtain ⟨w, t, ls⟩ := st
    obtain ⟨w', t', ls'⟩ := st'
    cases hs
    exact ⟨_, _, _, _, hst⟩
  | after _ _ _ ih => exact ih hs

namespace System

variable {path : Path} {s s' s'' : System α} {live : System α → Prop} {Q : System α → Prop}
  {p : Program α} {w w' : World} {h : List Happening}

/-- The run whose step is run, and what its program does after the step. -/
def continuation? (s : System α) : Option (Assignment × (Outcome × Context → Program α)) :=
  match s.main with
  | .stepping a _ k => some (a, k)
  | .program _ => none

theorem eq_toSystem_of_continuation? {a : Assignment} {k : Outcome × Context → Program α}
    (h : s.continuation? = some (a, k)) : ∃ st, s = Passage.toSystem st a k := by
  obtain ⟨w, main, leaves⟩ := s
  cases main with
  | program => cases h
  | stepping a t k =>
    cases h
    exact ⟨⟨w, t, leaves⟩, rfl⟩

/-- The step is still run while a task in it is not over. -/
theorem Step.continuation?_eq {x : Happening} {u : Task} (h : Step S s x s')
    (hu : s.task? path = some u) (ho : u.outcome? = none) :
    s'.continuation? = s.continuation? := by
  obtain ⟨w, main, leaves⟩ := s
  cases main with
  | program => cases hu
  | stepping a t k =>
    have h : Step S (Passage.toSystem ⟨w, t, leaves⟩ a k) x s' := h
    rcases h.of_toSystem with ⟨st', -, rfl⟩ | ⟨o, hover, -, -⟩
    · rfl
    · cases (Task.outcome?_of_at? hover hu).symm.trans ho

/-- **What may happen before a thread makes its next move**, as long as something holds. -/
def Idles (S : Surroundings) (live : System α → Prop) (path : Path) (s s' : System α) : Prop :=
  ∃ h, RunWhile S live s h s' ∧ ∀ x ∈ h, x.isOf path = false

theorem Idles.live_last (h : Idles S live path s s') : live s' := by
  obtain ⟨h, hr, -⟩ := h
  induction hr with
  | refl hp => exact hp
  | step _ _ _ ih => exact ih

/-- What each happening before the next move of a thread keeps holds when the thread moves. -/
theorem Idles.keeps {I : System α → Prop} (h : Idles S live path s s') (hs : I s)
    (hstep : ∀ {s x s'}, I s → Step S s x s' → x.isOf path = false → I s') : I s' := by
  obtain ⟨h, hr, hothers⟩ := h
  induction hr with
  | refl => exact hs
  | step _ hx _ ih =>
    rw [List.forall_mem_cons] at hothers
    exact ih (hstep hs hx hothers.1) hothers.2

/-- Where only the thread itself can move, nothing happens before it does. -/
theorem Idles.eq_of_alone (h : Idles S live path s s')
    (halone : ∀ {x s₁}, Step S s x s₁ → x.isOf path = true) : s' = s := by
  refine h.keeps (I := fun s' => s' = s) rfl ?_
  rintro _ x s₁ rfl hx hothers
  cases (halone hx).symm.trans hothers

/-- **A thread comes to something** by moves of its own: it does not wait, and whatever happens
before each of them, as long as something holds, these moves bring it there, however long the steps
take. -/
inductive ComesTo (S : Surroundings) (live : System α → Prop) (path : Path)
    (Q : System α → Prop) : System α → Prop where
  | now {s : System α} (h : Q s) : ComesTo S live path Q s
  | move {s : System α}
      (hcan : ∀ s', Idles S live path s s' → (s'.move S.setting path).isSome = true)
      (hnext : ∀ s' s'' ms e, Idles S live path s s' → s'.move S.setting path ms = some (s'', e) →
        ComesTo S live path Q s'') : ComesTo S live path Q s

namespace ComesTo

theorem of_move (h : ∀ s' ms, Idles S live path s s' →
    ∃ s'' e, s'.move S.setting path ms = some (s'', e) ∧ ComesTo S live path Q s'') :
    ComesTo S live path Q s := by
  refine .move (fun s' hs => ?_) fun s' s'' ms e hs hm => ?_
  · obtain ⟨s'', e, hm, -⟩ := h s' 0 hs
    rw [hm]
    rfl
  · obtain ⟨s₁, e₁, hm₁, hs₁⟩ := h s' ms hs
    cases hm.symm.trans hm₁
    exact hs₁

/-! ### While a step is run -/

/-- **A thread that moves its task** comes to what lies behind that move. -/
theorem of_advance {u : Task} (hr : Run S (.ofProgram w p) h s) (hu : s.task? path = some u)
    (ho : u.outcome? = none) (hfree : u.control.isFree = true)
    (hnext : ∀ s' ms, live s' →
      ∃ u' e, u.advance S.setting.env ⟨s'.isCancelled, ms⟩ = some (u', e) ∧
      ∀ h' s'', Run S (.ofProgram w p) h' s'' → s''.task? path = some u' →
        s''.continuation? = s.continuation? → ComesTo S live path Q s'') :
    ComesTo S live path Q s := by
  refine of_move fun s' ms hs => ?_
  -- others leave the task alone
  obtain ⟨⟨h', hr'⟩, hu', hk⟩ := hs.keeps (I := fun s' =>
      (∃ h', Run S (.ofProgram w p) h' s') ∧ s'.task? path = some u ∧
        s'.continuation? = s.continuation?) ⟨⟨h, hr⟩, hu, rfl⟩ <| by
    rintro s₁ x s₂ ⟨⟨h₁, hr₁⟩, hu₁, hk₁⟩ hx hothers
    refine ⟨⟨_, hr₁.trans (.step hx (.refl _))⟩, ?_, (hx.continuation?_eq hu₁ ho).trans hk₁⟩
    cases hx.touches hu₁ ho with
    | moves _ hm =>
      obtain rfl := hm.of_isFree hfree
      simp [Happening.isOf] at hothers
    | answers _ ha => exact absurd ha (Task.Answers.not_of_isFree hfree)
    | not _ hu₂ => exact hu₂
  obtain ⟨u', e, hadvance, hnext⟩ := hnext s' ms hs.live_last
  rcases hr'.reaches.eq_ofProgram_or_toSystem with ⟨w', p', rfl⟩ | ⟨st, a, k, rfl⟩
  · cases hu'
  obtain ⟨step, c, w₀, h₀, hpassage⟩ := hr'.reaches.exists_passage
  have hat : st.task.at? path = some u := hu'
  have hleaf : st.leaf? path = none := by
    cases hl : st.leaf? path with
    | none => rfl
    | some q =>
      have hcall := ((Passage.Sound.start w₀ step c 0).run hpassage) path q hl
      rw [← List.append_nil path, Task.callAt?_append hat, Task.callAt?_of_isFree hfree] at hcall
      cases hcall
  obtain ⟨t', hmoves, hat'⟩ := Task.Moves.of_at? hat ho hadvance
  have hmove : (st.toSystem a k).move S.setting path ms =
      some (⟨S.setting.observe a st.world e, .stepping a t' k, st.leaves⟩, e) := by
    have hadvance : Task.advanceAt S.setting.env
        ⟨(st.toSystem a k).world.isCancelled a.executionId, ms⟩ path st.task =
          some (t', e) := Task.advanceAt_eq_some_iff.mpr hmoves
    rw [move_toSystem, hleaf]
    dsimp only
    unfold moveTask
    rw [hadvance]
    rfl
  exact ⟨_, e, hmove, hnext _ _ (hr'.trans (.step (.move hmove) (.refl _))) hat' hk⟩

/-- **A program whose step is over** goes on with the outcome. -/
theorem of_over {st : Passage} {a : Assignment} {k : Outcome × Context → Program α} {o : Outcome}
    (hst : st.Sound) (ho : st.task.outcome? = some o)
    (hnext : live (st.toSystem a k) →
      ComesTo S live [] Q (.ofProgram st.world (k (o, st.task.context)))) :
    ComesTo S live [] Q (st.toSystem a k) := by
  refine of_move fun s' ms hs => ?_
  obtain rfl := hs.eq_of_alone fun {x s₁} hx => by
    rcases hx.of_toSystem with ⟨st', hst', -⟩ | ⟨o', -, rfl, -⟩
    · exact absurd hst' (hst.not_step_of_over ho)
    · rfl
  refine ⟨_, .silent, ?_, hnext hs.live_last⟩
  have hnil := hst.leaves_eq_nil ho
  have hn : Task.advanceAt S.setting.env
      ⟨(st.toSystem a k).world.isCancelled a.executionId, ms⟩ [] st.task = none := by
    cases hn : Task.advanceAt S.setting.env
      ⟨(st.toSystem a k).world.isCancelled a.executionId, ms⟩ [] st.task with
    | none => rfl
    | some y => exact absurd (Task.Moves.of_advanceAt hn) (Task.not_moves_of_outcome? ho)
  have hleaf : st.leaf? [] = none := by rw [Passage.leaf?, hnil]; rfl
  rw [move_toSystem, hleaf]
  dsimp only
  unfold moveTask
  rw [hn]
  dsimp only
  rw [Task.callAt?_of_outcome? ho, ho]
  show some (System.mk st.world (.program (k (o, st.task.context))) st.leaves, Effect.silent) = _
  rw [hnil]
  rfl

/-! ### Between steps -/

/-- A program that works by itself goes on with what it is served, or begins a step. -/
theorem of_program {e : Effect} (hm : (ofProgram w p).move S.setting [] = some (s, e))
    (hs : ComesTo S live [] Q s) : ComesTo S live [] Q (.ofProgram w p) := by
  refine of_move fun s' ms hidles => ?_
  obtain rfl := hidles.eq_of_alone fun {x s₁} hx => by
    obtain ⟨rfl, -⟩ := hx.of_program
    rfl
  exact ⟨s, e, hm, hs⟩

theorem of_serve {r : Request} {k : r.Reply → Program α} {reply : r.Reply}
    (hs : w.serve r = some (reply, w')) (h : ComesTo S live [] Q (.ofProgram w' (k reply))) :
    ComesTo S live [] Q (.ofProgram w (.ask r k)) :=
  of_program (move_of_serve hs) h

theorem of_perform {q : Program β} {x : β} {f : β → Program α} (hq : w.perform q = some (x, w'))
    (h : ComesTo S live [] Q (.ofProgram w' (f x))) :
    ComesTo S live [] Q (.ofProgram w (q.bind f)) := by
  induction q generalizing w with
  | done y =>
    cases hq
    exact h
  | ask r k ih =>
    rw [World.perform] at hq
    cases hs : w.serve r with
    | none =>
      rw [hs] at hq
      cases hq
    | some y =>
      obtain ⟨reply, w₁⟩ := y
      rw [hs] at hq
      exact of_serve hs (ih reply hq)

/-- **A program between its steps** is done before the rest, which is left out after an error. -/
theorem of_ends {γ : Type} {q : Orchestration β} {f : β → Orchestration γ}
    {g : Except RunError γ → Program α} {post : Except RunError β → World → Prop}
    (hq : w.Ends q post)
    (hok : ∀ x w', post (.ok x) w' →
      ComesTo S live [] Q (.ofProgram w' ((ExceptT.run (f x)).bind g)))
    (herr : ∀ e w', post (.error e) w' → ComesTo S live [] Q (.ofProgram w' (g (.error e)))) :
    ComesTo S live [] Q (.ofProgram w ((ExceptT.run (q >>= f)).bind g)) := by
  obtain ⟨r, w', hperform, hpost⟩ := hq
  show ComesTo S live [] Q
    (.ofProgram w (((ExceptT.run q).bind (ExceptT.bindCont f)).bind g))
  rw [Program.bind_assoc]
  refine of_perform hperform ?_
  cases r with
  | ok x => exact hok x w' hpost
  | error e => exact herr e w' hpost

/-- A program that only a call of the store can make fail is done before the rest. -/
theorem of_stored {γ : Type} {q : Orchestration β} {f : β → Orchestration γ}
    {g : Except RunError γ → Program α} {x : β} {P : World → Prop}
    (hq : w.Ends q fun r w' => P w' ∧ (r = .ok x ∨ w.Fails r))
    (hok : ∀ w', P w' → ComesTo S live [] Q (.ofProgram w' ((ExceptT.run (f x)).bind g)))
    (herr : ∀ e w', ComesTo S live [] Q (.ofProgram w' (g (.error (.store e))))) :
    ComesTo S live [] Q (.ofProgram w ((ExceptT.run (q >>= f)).bind g)) := by
  refine of_ends hq ?_ ?_
  · rintro x' w₁ ⟨hw₁, hr | ⟨-, e, hr⟩⟩
    · cases hr
      exact hok w₁ hw₁
    · cases hr
  · rintro err w₁ ⟨-, hr | ⟨-, e, hr⟩⟩
    · cases hr
    · cases hr
      exact herr e w₁

end ComesTo

end System

end WorkflowEngine
