import WorkflowEngine.Proofs.Run.World
import WorkflowEngine.Proofs.Task.Place
import WorkflowEngine.Run.System

/-!
# Histories of runs

Any thread that can move may be the next one to do so, and whoever is waited for may answer at any
time and in any order. While a thread waits, others may cancel the run and change its record. A
history of a run is one of the many courses that this leaves open. What holds of all of them is
proved from what a program does between its steps and from what happens during one step.

## Main definitions

* `Happening`: one thing that happens
* `Surroundings`: what histories depend on, and what others may do to the record of the run
* `System.Step`, `System.Run`: what may happen to a system, once and in a history
* `Passage`, `Passage.Step`, `Passage.Run`: the same while one step is run
* `Program.Reaches`: histories of a program, step by step

## Main results

* `System.Run.reaches`: every history of a system is one of its program
* `Program.Reaches.bind`: histories of one program after the other
-/

namespace WorkflowEngine

/-- One thing that happens while a system works. -/
inductive Happening where
  /-- A thread has moved, with the steps around it before and what it waits for since then. -/
  | moved (path : Path) (around : List Step) (effect : Effect) (opens : Option Request)
  /-- A thread was told what it waited for. -/
  | told (path : Path) (opens : Option Request)
  /-- Someone has tried to cancel the run. -/
  | cancelled (result : Except RunError Unit)
  /-- Others have done something. -/
  | outside

namespace Happening

/-- The program itself has moved. -/
def silent : Happening := .moved [] [] .silent none

/-- What a thread began to wait for. -/
def opens? : Happening → Option Request
  | .moved _ _ _ opens => opens
  | .told _ opens => opens
  | _ => none

/-- A thread has moved or was answered. -/
def isOwn : Happening → Bool
  | .moved .. => true
  | .told .. => true
  | _ => false

end Happening

/-- What histories depend on: how steps are done, which run it is, and how others may change its
record. -/
structure Surroundings where
  setting : Setting
  id : Uuid
  rule : Execution → Execution → Prop

/-- **What others do while a run waits**: they leave the run alone but for its record. -/
structure World.Meanwhile (S : Surroundings) (w w' : World) : Prop where
  like : Like S.id w w'
  record : ∀ e, w.record? S.id = some e → ∃ e', w'.record? S.id = some e' ∧ S.rule e e'

namespace System

variable {α : Type}

/-- Some thread waits for something from outside. -/
def IsPending (s : System α) : Prop := ∃ path r, s.waitsFor? path = some r

/-- The steps around a thread. -/
def around (s : System α) (path : Path) : List Step :=
  match s.main with
  | .stepping _ t _ => t.around path
  | .program _ => []

/-- **What may happen to a system.** -/
inductive Step (S : Surroundings) : System α → Happening → System α → Prop where
  | move {s s' path ms effect} (h : s.move S.setting path ms = some (s', effect)) :
      Step S s (.moved path (s.around path) effect (s'.waitsFor? path)) s'
  | tell {s s' path r reply} (hw : s.waitsFor? path = some r) (h : s.tell path reply = some s') :
      Step S s (.told path (s'.waitsFor? path)) s'
  | cancel {s : System α} {r w'} (hp : s.IsPending)
      (h : s.world.perform (ExceptT.run (Orchestration.cancel S.id)) = some (r, w')) :
      Step S s (.cancelled r) { s with world := w' }
  | outside {s : System α} {w'} (hp : s.IsPending) (h : s.world.Meanwhile S w') :
      Step S s .outside { s with world := w' }

/-- **A history of a system.** -/
inductive Run (S : Surroundings) : System α → List Happening → System α → Prop where
  | refl (s) : Run S s [] s
  | step {s x s' h s''} (hs : Step S s x s') (hr : Run S s' h s'') : Run S s (x :: h) s''

theorem Run.trans {S : Surroundings} {s s' s'' : System α} {h h' : List Happening}
    (hr : Run S s h s') (hr' : Run S s' h' s'') : Run S s (h ++ h') s'' := by
  induction hr with
  | refl => exact hr'
  | step hs _ ih => exact .step hs (ih hr')

/-! ### Histories by choice -/

/-- What is chosen to happen next. -/
inductive Choice where
  | move (path : Path) (elapsedMs : Nat := 0)
  | tell (path : Path) (reply : (r : Request) → Option r.Reply)
  | cancel

/-- What happens by a choice, if that can happen. -/
def choose (S : Surroundings) (s : System α) : Choice → Option (Happening × System α)
  | .move path ms =>
    (s.move S.setting path ms).map fun (s', effect) =>
      (.moved path (s.around path) effect (s'.waitsFor? path), s')
  | .tell path reply =>
    if (s.waitsFor? path).isSome then
      (s.tell path reply).map fun s' => (.told path (s'.waitsFor? path), s')
    else none
  | .cancel =>
    if s.leaves.any fun l => (s.waitsFor? l.1).isSome then
      (s.world.perform (ExceptT.run (Orchestration.cancel S.id))).map fun (r, world) =>
        (.cancelled r, { s with world })
    else none

/-- What happens by one choice after the other. -/
def play (S : Surroundings) (s : System α) : List Choice → Option (List Happening × System α)
  | [] => some ([], s)
  | c :: cs => do
    let (x, s') ← s.choose S c
    let (h, s'') ← play S s' cs
    return (x :: h, s'')

theorem Step.of_choose {S : Surroundings} {s s' : System α} {c : Choice} {x : Happening}
    (h : s.choose S c = some (x, s')) : Step S s x s' := by
  cases c with
  | move path ms =>
    obtain ⟨⟨s₁, effect⟩, hm, he⟩ := Option.map_eq_some_iff.mp h
    cases he
    exact .move hm
  | tell path reply =>
    simp only [choose] at h
    split at h
    next hw =>
      obtain ⟨s₁, ht, he⟩ := Option.map_eq_some_iff.mp h
      obtain ⟨r, hr⟩ := Option.isSome_iff_exists.mp hw
      cases he
      exact .tell hr ht
    next => cases h
  | cancel =>
    simp only [choose] at h
    split at h
    next hp =>
      obtain ⟨⟨r, w⟩, hw, he⟩ := Option.map_eq_some_iff.mp h
      obtain ⟨l, -, hl⟩ := List.any_eq_true.mp hp
      obtain ⟨r', hr'⟩ := Option.isSome_iff_exists.mp hl
      cases he
      exact .cancel ⟨l.1, r', hr'⟩ hw
    next => cases h

/-- **What happens by choices is a history.** -/
theorem Run.of_play {S : Surroundings} {s s' : System α} {cs : List Choice} {h : List Happening}
    (hp : s.play S cs = some (h, s')) : Run S s h s' := by
  induction cs generalizing s h with
  | nil =>
    cases hp
    exact .refl _
  | cons c cs ih =>
    obtain ⟨⟨x, s₁⟩, hc, hp⟩ := Option.bind_eq_some_iff.mp hp
    obtain ⟨⟨h₁, s₂⟩, hp₁, hp⟩ := Option.bind_eq_some_iff.mp hp
    cases hp
    exact .step (.of_choose hc) (ih hp₁)

end System

/-- A system while it runs one step. -/
structure Passage where
  world : World
  task : Task
  leaves : List (Path × LeafProgram)

namespace Passage

/-- The simple step that a thread does. -/
def leaf? (st : Passage) (path : Path) : Option LeafProgram := st.leaves.lookup path

/-- The simple steps that other threads do. -/
def others (st : Passage) (path : Path) : List (Path × LeafProgram) :=
  st.leaves.filter fun l => l.1 != path

/-- A thread does a simple step by a program. -/
def setLeaf (st : Passage) (path : Path) (p : LeafProgram) : Passage :=
  { st with leaves := (path, p) :: st.others path }

/-- What a thread waits for from outside. -/
def waitsFor? (st : Passage) (path : Path) : Option Request :=
  match st.leaf? path with
  | some (.ask r _) => if (st.world.serve r).isSome then none else some r
  | _ => none

/-- Some thread waits for something from outside. -/
def IsPending (st : Passage) : Prop := ∃ path r, st.waitsFor? path = some r

/-- The system that runs the step. -/
def toSystem {α : Type} (st : Passage) (a : Assignment) (next : Outcome × Context → Program α) :
    System α :=
  ⟨st.world, .stepping a st.task next, st.leaves⟩

/-- **What may happen while a step is run.** -/
inductive Step (S : Surroundings) (a : Assignment) : Passage → Happening → Passage → Prop where
  /-- A task moves. -/
  | advance {st : Passage} {path ms t e} (hl : st.leaf? path = none)
      (h : Task.Moves S.setting.env ⟨st.world.isCancelled a.executionId, ms⟩ path st.task t e) :
      Step S a st (.moved path (st.task.around path) e none)
        { st with world := S.setting.observe a st.world e, task := t }
  /-- A simple step begins. -/
  | call {st : Passage} {path head leaf depth c} (hl : st.leaf? path = none)
      (h : st.task.callAt? path = some (head, leaf, depth, c)) :
      Step S a st (.moved path (st.task.around path) .silent
          ((st.setLeaf path (S.setting.leaf a head leaf depth c)).waitsFor? path))
        (st.setLeaf path (S.setting.leaf a head leaf depth c))
  /-- A simple step goes on. -/
  | serve {st : Passage} {path r k reply w'} (hl : st.leaf? path = some (.ask r k))
      (h : st.world.serve r = some (reply, w')) :
      Step S a st (.moved path (st.task.around path) .silent
          (({ st with world := w' }.setLeaf path (k reply)).waitsFor? path))
        ({ st with world := w' }.setLeaf path (k reply))
  /-- A simple step is done. -/
  | answer {st : Passage} {path r t} (hl : st.leaf? path = some (.done r))
      (h : Task.Answers r path st.task t) :
      Step S a st (.moved path (st.task.around path) .silent none)
        { st with task := t, leaves := st.others path }
  /-- A simple step waits no longer. -/
  | release {st : Passage} {path r k reply} (hl : st.leaf? path = some (.ask r k))
      (h : st.world.release r = some reply) :
      Step S a st (.moved path (st.task.around path) .silent
          ((st.setLeaf path (k reply)).waitsFor? path))
        (st.setLeaf path (k reply))
  | tell {st : Passage} {path r k reply} (hl : st.leaf? path = some (.ask r k))
      (h : st.world.serve r = none) :
      Step S a st (.told path ((st.setLeaf path (k reply)).waitsFor? path))
        (st.setLeaf path (k reply))
  | cancel {st : Passage} {r w'} (hp : st.IsPending)
      (h : st.world.perform (ExceptT.run (Orchestration.cancel S.id)) = some (r, w')) :
      Step S a st (.cancelled r) { st with world := w' }
  | outside {st : Passage} {w'} (hp : st.IsPending) (h : st.world.Meanwhile S w') :
      Step S a st .outside { st with world := w' }

/-- **A history of a step.** -/
inductive Run (S : Surroundings) (a : Assignment) : Passage → List Happening → Passage → Prop where
  | refl (st) : Run S a st [] st
  | step {st x st' h st''} (hs : Step S a st x st') (hr : Run S a st' h st'') :
      Run S a st (x :: h) st''

/-! ### Simple steps that are being done -/

theorem lookup_others (st : Passage) (path path' : Path) :
    (st.others path).lookup path' = if path' = path then none else st.leaf? path' := by
  unfold others leaf?
  induction st.leaves with
  | nil => simp
  | cons l ls ih =>
    obtain ⟨p, q⟩ := l
    -- the programs of the thread itself are left out, and all others are kept
    by_cases hp : p = path
    · subst hp
      rw [List.filter_cons_of_neg (by simp), ih, List.lookup_cons]
      by_cases hp' : path' = p
      · simp [hp']
      · simp [hp', beq_eq_false_iff_ne.mpr hp']
    · rw [List.filter_cons_of_pos (by simpa using hp), List.lookup_cons, List.lookup_cons, ih]
      by_cases hp' : path' = p
      · simp [hp', hp]
      · simp [beq_eq_false_iff_ne.mpr hp']

@[simp] theorem leaf?_setLeaf (st : Passage) (path path' : Path) (p : LeafProgram) :
    (st.setLeaf path p).leaf? path' = if path' = path then some p else st.leaf? path' := by
  unfold setLeaf leaf?
  rw [List.lookup_cons]
  by_cases hp : path' = path
  · simp [hp]
  · rw [beq_eq_false_iff_ne.mpr hp, if_neg hp]
    exact (lookup_others st path path').trans (if_neg hp)

/-- The threads that do simple steps are those whose tasks wait for them. -/
def Sound (st : Passage) : Prop :=
  ∀ path p, st.leaf? path = some p → (st.task.callAt? path).isSome = true

theorem Sound.start (w : World) (s : WorkflowEngine.Step) (c : Context) (d : Nat) :
    Sound ⟨w, .start s c d, []⟩ := by
  rintro path p ⟨⟩

/-- A thread whose task waits for a simple step goes on with it. -/
theorem Sound.setLeaf {st : Passage} {path : Path} (hst : st.Sound)
    (h : (st.task.callAt? path).isSome = true) (p : LeafProgram) : (st.setLeaf path p).Sound := by
  intro path' p' hp
  rw [leaf?_setLeaf] at hp
  split at hp
  next he => exact he ▸ h
  next => exact hst path' p' hp

theorem Sound.step {S : Surroundings} {a : Assignment} {st st' : Passage} {x : Happening}
    (hst : st.Sound) (h : Passage.Step S a st x st') : st'.Sound := by
  cases h with
  | advance hl h =>
    intro path' p hp
    obtain ⟨y, hy⟩ := Option.isSome_iff_exists.mp (hst path' p hp)
    exact Option.isSome_iff_exists.mpr ⟨y, h.callAt?_eq hy⟩
  | call hl h => exact hst.setLeaf (Option.isSome_iff_exists.mpr ⟨_, h⟩) _
  | @serve path r k reply w' hl h =>
    have hst' : Sound { st with world := w' } := hst
    exact hst'.setLeaf (hst path _ hl) _
  | @answer path r t hl h =>
    intro path' p hp
    have hp := (lookup_others st path path').symm.trans hp
    split at hp
    next => cases hp
    next hne =>
      obtain ⟨y, hy⟩ := Option.isSome_iff_exists.mp (hst path' p hp)
      exact Option.isSome_iff_exists.mpr ⟨y, h.callAt?_eq hne hy⟩
  | @release path r k reply hl h => exact hst.setLeaf (hst path _ hl) _
  | @tell path r k reply hl h => exact hst.setLeaf (hst path _ hl) _
  | cancel => exact hst
  | outside => exact hst

theorem Sound.run {S : Surroundings} {a : Assignment} {st st' : Passage} {h : List Happening}
    (hst : st.Sound) (hr : Passage.Run S a st h st') : st'.Sound := by
  induction hr with
  | refl => exact hst
  | step hs _ ih => exact ih (hst.step hs)

theorem Step.placed {S : Surroundings} {a : Assignment} {st st' : Passage} {x : Happening}
    {root : WorkflowEngine.Step} {d : Nat} (hp : Task.Placed root d st.task)
    (hs : Passage.Step S a st x st') : Task.Placed root d st'.task := by
  cases hs with
  | advance _ h => exact hp.moves h
  | answer _ h => exact hp.answers h
  | _ => exact hp

/-- The task of a step stays placed. -/
theorem Run.placed {S : Surroundings} {a : Assignment} {st st' : Passage} {h : List Happening}
    {root : WorkflowEngine.Step} {d : Nat} (hp : Task.Placed root d st.task)
    (hr : Passage.Run S a st h st') : Task.Placed root d st'.task := by
  induction hr with
  | refl => exact hp
  | step hs _ ih => exact ih (hs.placed hp)

/-- No simple step is being done any more when the step is over. -/
theorem Sound.leaves_eq_nil {st : Passage} {o : Outcome} (hst : st.Sound)
    (ho : st.task.outcome? = some o) : st.leaves = [] := by
  cases hl : st.leaves with
  | nil => rfl
  | cons l ls =>
    obtain ⟨path, p⟩ := l
    have hp : st.leaf? path = some p := by simp [leaf?, hl]
    have := hst path p hp
    rw [Task.callAt?_of_outcome? ho] at this
    cases this

end Passage

/-! ### From systems to their programs -/

variable {α : Type} {S : Surroundings}

theorem System.move_toSystem (st : Passage) (a : Assignment)
    (next : Outcome × Context → Program α) (setting : Setting) (path : Path)
    (ms : Nat) : (st.toSystem a next).move setting path ms =
      match st.leaf? path with
      | some p => ((st.toSystem a next).moveLeaf path a st.task next p).map (·, .silent)
      | none => (st.toSystem a next).moveTask setting path a st.task next ms := rfl

/-- A thread that does no simple step waits for nothing from outside. -/
theorem Passage.waitsFor?_eq_none {st : Passage} {path : Path} (h : st.leaf? path = none) :
    st.waitsFor? path = none := by
  rw [waitsFor?, h]

/-- A thread that does a simple step goes on with it or is done with it. -/
theorem System.Step.of_moveLeaf {st : Passage} {a : Assignment}
    {next : Outcome × Context → Program α} {path : Path} {p : LeafProgram} {s' : System α}
    (hp : st.leaf? path = some p)
    (h : (st.toSystem a next).moveLeaf path a st.task next p = some s') :
    ∃ st', Passage.Step S a st
      (.moved path (st.task.around path) .silent (st'.waitsFor? path)) st' ∧
      s' = st'.toSystem a next := by
  cases p with
  | done r =>
    obtain ⟨t, ht, rfl⟩ := Option.map_eq_some_iff.mp h
    have hn : (st.others path).lookup path = none := by simp [Passage.lookup_others]
    have hw : Passage.waitsFor? { st with task := t, leaves := st.others path } path = none :=
      Passage.waitsFor?_eq_none hn
    have hs := Passage.Step.answer (S := S) (a := a) hp (Task.answerAt_eq_some_iff.mp ht)
    rw [← hw] at hs
    exact ⟨_, hs, rfl⟩
  | ask r k =>
    simp only [System.moveLeaf] at h
    split at h
    next reply w' hs =>
      cases h
      exact ⟨_, .serve hp hs, rfl⟩
    next =>
      obtain ⟨reply, hs, rfl⟩ := Option.map_eq_some_iff.mp h
      exact ⟨_, .release hp hs, rfl⟩

/-- A thread that does no simple step moves or begins one, unless the whole step is over. -/
theorem System.Step.of_moveTask {st : Passage} {a : Assignment}
    {next : Outcome × Context → Program α} {path : Path} {ms : Nat} {effect : Effect}
    {s' : System α} (hp : st.leaf? path = none)
    (h : (st.toSystem a next).moveTask S.setting path a st.task next ms = some (s', effect)) :
    (∃ st', Passage.Step S a st
      (.moved path (st.task.around path) effect (st'.waitsFor? path)) st' ∧
      s' = st'.toSystem a next) ∨
    ∃ o, st.task.outcome? = some o ∧ path = [] ∧ effect = .silent ∧
      s' = ⟨st.world, .program (next (o, st.task.context)), st.leaves⟩ := by
  unfold System.moveTask at h
  split at h
  next t e ht =>
    cases h
    have hs := Passage.Step.advance (S := S) (a := a) hp (Task.advanceAt_eq_some_iff.mp ht)
    have hw : Passage.waitsFor?
        { st with world := S.setting.observe a st.world effect, task := t } path = none :=
      Passage.waitsFor?_eq_none hp
    rw [← hw] at hs
    exact .inl ⟨_, hs, rfl⟩
  next =>
    split at h
    next head leaf depth c hc =>
      cases h
      exact .inl ⟨_, .call hp hc, rfl⟩
    next =>
      -- nothing is left to be done: the program goes on with the outcome
      split at h
      next o ho _ _ =>
        cases h
        exact .inr ⟨o, ho, rfl, rfl, rfl⟩
      next => cases h

/-- A thread that waits is told what it waits for. -/
theorem System.Step.of_tell {st : Passage} {a : Assignment} {next : Outcome × Context → Program α}
    {path : Path} {r : Request} {reply : (r : Request) → Option r.Reply} {s' : System α}
    (hw : st.waitsFor? path = some r) (h : (st.toSystem a next).tell path reply = some s') :
    ∃ st', Passage.Step S a st (.told path (st'.waitsFor? path)) st' ∧
      s' = st'.toSystem a next := by
  unfold Passage.waitsFor? at hw
  split at hw
  next r' k hp =>
    split at hw
    next => cases hw
    next hs =>
      have ht : (st.toSystem a next).tell path reply =
          (reply r').map fun x => (st.toSystem a next).setLeaf path (k x) := by
        have hl : (st.toSystem a next).leaf? path = some (.ask r' k) := hp
        rw [System.tell, hl]
      rw [ht] at h
      obtain ⟨reply', -, rfl⟩ := Option.map_eq_some_iff.mp h
      exact ⟨_, .tell hp (by simpa using hs), rfl⟩
  next => cases hw

/-- **What happens to a system that runs a step** happens to the step, unless that is over. -/
theorem System.Step.of_toSystem {st : Passage} {a : Assignment}
    {next : Outcome × Context → Program α} {x : Happening} {s' : System α}
    (h : System.Step S (st.toSystem a next) x s') :
    (∃ st', Passage.Step S a st x st' ∧ s' = st'.toSystem a next) ∨
    ∃ o, st.task.outcome? = some o ∧ x = .moved [] (st.task.around []) .silent none ∧
      s' = ⟨st.world, .program (next (o, st.task.context)), st.leaves⟩ := by
  cases h with
  | @move _ path ms effect h =>
    rw [System.move_toSystem] at h
    cases hp : st.leaf? path with
    | some p =>
      rw [hp] at h
      obtain ⟨s₁, ht, he⟩ := Option.map_eq_some_iff.mp h
      cases he
      obtain ⟨st', hs, rfl⟩ := System.Step.of_moveLeaf (S := S) hp ht
      exact .inl ⟨st', hs, rfl⟩
    | none =>
      rw [hp] at h
      rcases System.Step.of_moveTask hp h with ⟨st', hs, rfl⟩ | ⟨o, ho, rfl, rfl, rfl⟩
      · exact .inl ⟨st', hs, rfl⟩
      · have hw : System.waitsFor? (α := α)
            ⟨st.world, .program (next (o, st.task.context)), st.leaves⟩ [] = none :=
          Passage.waitsFor?_eq_none hp
        rw [hw]
        exact .inr ⟨o, ho, rfl, rfl⟩
  | tell hw h =>
    obtain ⟨st', hs, rfl⟩ := System.Step.of_tell (S := S) hw h
    exact .inl ⟨st', hs, rfl⟩
  | cancel hp h => exact .inl ⟨_, .cancel hp h, rfl⟩
  | outside hp h => exact .inl ⟨_, .outside hp h, rfl⟩

namespace Program

/-- **Histories of a program**: it asks for one thing after the other, and while a step is run that
may take any course. -/
inductive Reaches (S : Surroundings) : Program α → World → List Happening → System α → Prop where
  | here {p w} : Reaches S p w [] (.ofProgram w p)
  | serve {r k w reply w' h s} (hs : w.serve r = some (reply, w'))
      (hr : Reaches S (k reply) w' h s) : Reaches S (.ask r k) w (.silent :: h) s
  | during {a step c k w h st} (hr : Passage.Run S a ⟨w, .start step c 0, []⟩ h st) :
      Reaches S (.ask (.runStep a step c) k) w (.silent :: h) (st.toSystem a k)
  | after {a step c k w h h' st o s} (hr : Passage.Run S a ⟨w, .start step c 0, []⟩ h st)
      (ho : st.task.outcome? = some o)
      (hn : Reaches S (k (o, st.task.context)) st.world h' s) :
      Reaches S (.ask (.runStep a step c) k) w
        (.silent :: (h ++ .moved [] (st.task.around []) .silent none :: h')) s

end Program

/-- What a history of a system is while a step is run. -/
theorem System.Run.of_toSystem {st : Passage} {a : Assignment}
    {next : Outcome × Context → Program α} {h : List Happening} {s' : System α}
    (hr : System.Run S (st.toSystem a next) h s') :
    (∃ st', Passage.Run S a st h st' ∧ s' = st'.toSystem a next) ∨
    ∃ h₁ st' o h₂, Passage.Run S a st h₁ st' ∧ st'.task.outcome? = some o ∧
      h = h₁ ++ .moved [] (st'.task.around []) .silent none :: h₂ ∧
      System.Run S ⟨st'.world, .program (next (o, st'.task.context)), st'.leaves⟩ h₂ s' := by
  generalize hs : st.toSystem a next = s at hr
  induction hr generalizing st with
  | refl => exact .inl ⟨st, .refl st, hs.symm⟩
  | @step _ x s₁ h s'' hx hr ih =>
    subst hs
    rcases hx.of_toSystem with ⟨st', hst, rfl⟩ | ⟨o, ho, rfl, rfl⟩
    · rcases ih rfl with ⟨st'', hr', he⟩ | ⟨h₁, st'', o, h₂, hr', ho, he, hr''⟩
      · exact .inl ⟨st'', .step hst hr', he⟩
      · exact .inr ⟨x :: h₁, st'', o, h₂, .step hst hr', ho, by rw [he]; rfl, hr''⟩
    · exact .inr ⟨[], st, o, h, .refl st, ho, rfl, hr⟩

/-- A program between its steps waits for nothing from outside. -/
theorem System.not_isPending_ofProgram (p : Program α) (w : World) :
    ¬ (System.ofProgram w p).IsPending := by
  rintro ⟨path, r, hr⟩
  cases hr

/-- **What happens to a program between its steps**: it is served, or begins a step. -/
theorem System.Step.of_program {p : Program α} {w : World} {x : Happening} {s' : System α}
    (h : System.Step S (.ofProgram w p) x s') :
    x = .silent ∧
      ((∃ r k reply w', p = .ask r k ∧ w.serve r = some (reply, w') ∧
        s' = .ofProgram w' (k reply)) ∨
      ∃ a step c k, p = .ask (.runStep a step c) k ∧
        s' = Passage.toSystem ⟨w, .start step c 0, []⟩ a k) := by
  -- nothing is waited for, so that only the program can move
  have hn : ∀ path, (System.ofProgram w p).waitsFor? path = none := fun path => rfl
  have hp := System.not_isPending_ofProgram p w
  cases h with
  | @move _ path ms effect h =>
    cases path with
    | cons i path => cases h
    | nil =>
      obtain ⟨s₁, hm, he⟩ := Option.map_eq_some_iff.mp
        (h : ((System.ofProgram w p).moveProgram p).map (·, Effect.silent) = some (s', effect))
      cases he
      unfold System.moveProgram at hm
      split at hm
      · cases hm
      · cases hm
        exact ⟨rfl, .inr ⟨_, _, _, _, rfl, rfl⟩⟩
      · obtain ⟨⟨reply, w'⟩, hs, rfl⟩ := Option.map_eq_some_iff.mp hm
        exact ⟨rfl, .inl ⟨_, _, reply, w', rfl, hs, rfl⟩⟩
  | tell hw => rw [hn] at hw; cases hw
  | cancel hp' => exact absurd hp' hp
  | outside hp' => exact absurd hp' hp

/-- **Every history of a system is one of its program.** -/
theorem System.Run.reaches {p : Program α} {w : World} {h : List Happening} {s : System α}
    (hr : System.Run S (.ofProgram w p) h s) : Program.Reaches S p w h s := by
  -- by induction on the length: a step takes several happenings at once
  generalize hn : h.length = n
  induction n using Nat.strongRecOn generalizing p w h with
  | ind n ih =>
    subst hn
    cases hr with
    | refl => exact .here
    | @step _ x s₁ h _ hx hr =>
      obtain ⟨rfl, ⟨r, k, reply, w', rfl, hs, rfl⟩ | ⟨a, step, c, k, rfl, rfl⟩⟩ := hx.of_program
      · exact .serve hs (ih h.length (by simp) hr rfl)
      · rcases hr.of_toSystem with ⟨st, hst, rfl⟩ | ⟨h₁, st, o, h₂, hst, ho, rfl, hr'⟩
        · exact .during hst
        -- a step that is over has left no thread behind
        · have hl : st.leaves = [] := ((Passage.Sound.start w step c 0).run hst).leaves_eq_nil ho
          rw [hl] at hr'
          exact .after hst ho (ih h₂.length (by simp; omega) hr' rfl)

/-! ### One program after the other -/

/-- A system whose program goes on with another one. -/
def System.andThen {β : Type} (s : System α) (f : α → Program β) : System β :=
  { world := s.world
    main :=
      match s.main with
      | .program p => .program (p.bind f)
      | .stepping a t k => .stepping a t fun x => (k x).bind f
    leaves := s.leaves }

/-- The program of a system has ended or waits for a step. -/
def System.IsResting (s : System α) : Prop :=
  match s.main with
  | .program (.ask ..) => False
  | _ => True

@[simp] theorem Program.bind_done (p : Program α) : p.bind .done = p := by
  induction p with
  | done a => rfl
  | ask r k ih => exact congrArg (Program.ask r) (funext ih)

namespace Program.Reaches

variable {β : Type} {w : World} {h : List Happening}

/-- A system whose program works by itself has no other thread. -/
theorem eq_ofProgram_or_toSystem {p : Program α} {s : System α} (hr : Reaches S p w h s) :
    (∃ w' p', s = .ofProgram w' p') ∨ ∃ st a k, s = Passage.toSystem st a k := by
  induction hr with
  | here => exact .inl ⟨_, _, rfl⟩
  | serve _ _ ih => exact ih
  | during => exact .inr ⟨_, _, _, rfl⟩
  | after _ _ _ ih => exact ih

/-- A program that has ended does nothing and waits for nothing. -/
theorem eq_ofProgram {p : Program α} {s : System α} {a : α} (hr : Reaches S p w h s)
    (hs : s.result? = some a) : s = .ofProgram s.world (.done a) := by
  induction hr with
  | @here p w =>
    cases p with
    | done b => cases hs; rfl
    | ask r k => cases hs
  | serve _ _ ih => exact ih hs
  | during => cases hs
  | after _ _ _ ih => exact ih hs

/-- **Histories of one program after the other**: the first one has not ended yet, or it has. -/
theorem bind {p : Program α} {f : α → Program β} {s : System β}
    (hr : Reaches S (p.bind f) w h s) :
    (∃ s₀, Reaches S p w h s₀ ∧ s = s₀.andThen f) ∨
    ∃ a w' h₁ h₂, Reaches S p w h₁ (.ofProgram w' (.done a)) ∧ Reaches S (f a) w' h₂ s ∧
      h = h₁ ++ h₂ := by
  induction p generalizing w h with
  | done a => exact .inr ⟨a, w, [], h, .here, hr, rfl⟩
  | ask r k ih =>
    simp only [Program.bind] at hr
    cases hr with
    | here => exact .inl ⟨_, .here, rfl⟩
    | serve hs hr =>
      rcases ih _ hr with ⟨s₀, hp, he⟩ | ⟨a, w', h₁, h₂, hp, hf, rfl⟩
      · exact .inl ⟨s₀, .serve hs hp, he⟩
      · exact .inr ⟨a, w', _, h₂, .serve hs hp, hf, rfl⟩
    | during hr => exact .inl ⟨_, .during hr, rfl⟩
    | after hst ho hr =>
      rcases ih _ hr with ⟨s₀, hp, he⟩ | ⟨a, w', h₁, h₂, hp, hf, rfl⟩
      · exact .inl ⟨s₀, .after hst ho hp, he⟩
      · exact .inr ⟨a, w', _, h₂, .after hst ho hp, hf, by simp⟩

/-- A history of one program after the other that has ended is one of each of them. -/
theorem bind_done {p : Program α} {f : α → Program β} {w' : World} {b : β}
    (hr : Reaches S (p.bind f) w h (.ofProgram w' (.done b))) :
    ∃ a w₁ h₁ h₂, Reaches S p w h₁ (.ofProgram w₁ (.done a)) ∧
      Reaches S (f a) w₁ h₂ (.ofProgram w' (.done b)) ∧ h = h₁ ++ h₂ := by
  rcases hr.bind with ⟨⟨w₀, main, leaves⟩, hr₀, he⟩ | hr
  · cases main with
    | stepping => cases he
    -- the first program has only just ended: nothing of the second one has happened
    | program q =>
      simp only [System.andThen, System.ofProgram, System.mk.injEq, Main.program.injEq] at he
      obtain ⟨rfl, hq, rfl⟩ := he
      cases q with
      | ask r k => cases hq
      | done a =>
        have hf : f a = .done b := hq.symm
        exact ⟨a, w', h, [], hr₀, by rw [hf]; exact .here, (List.append_nil h).symm⟩
  · exact hr

/-- A program that ends without waiting is served at once. -/
theorem of_perform {p : Program α} {f : α → Program β} {s : System β} {a : α} {w' : World}
    (hr : Reaches S (p.bind f) w h s) (hs : s.IsResting) (hp : w.perform p = some (a, w')) :
    ∃ h₁ h₂, Reaches S (f a) w' h₂ s ∧ h = h₁ ++ h₂ ∧ ∀ x ∈ h₁, x = .silent := by
  induction p generalizing w h with
  | done b =>
    cases hp
    exact ⟨[], h, hr, rfl, fun x hx => by cases hx⟩
  | ask r k ih =>
    rw [World.perform] at hp
    simp only [Program.bind] at hr
    cases hr with
    | here => exact hs.elim
    | @serve _ _ _ reply w₁ h _ hserve hr =>
      rw [hserve] at hp
      obtain ⟨h₁, h₂, hf, rfl, hall⟩ := ih reply hr hp
      exact ⟨.silent :: h₁, h₂, hf, rfl, fun x hx => (List.mem_cons.mp hx).elim id (hall x)⟩
    | during => cases hp
    | after => cases hp

/-- Nothing more happens to a program that has ended. -/
theorem of_done {a : α} {s : System α} (hr : Reaches S (.done a) w h s) :
    h = [] ∧ s = .ofProgram w (.done a) := by
  cases hr
  exact ⟨rfl, rfl⟩

/-- **What ends without waiting is done before the rest**, which there is unless it ends with an
error. -/
theorem of_ends {p : Orchestration α} {f : α → Orchestration β} {s : System (Except RunError β)}
    {post : Except RunError α → World → Prop}
    (hr : Reaches S (ExceptT.run (p >>= f)) w h s) (hs : s.IsResting) (hp : w.Ends p post) :
    (∃ a w' h₁ h₂, post (.ok a) w' ∧ Reaches S (ExceptT.run (f a)) w' h₂ s ∧ h = h₁ ++ h₂ ∧
      ∀ x ∈ h₁, x = .silent) ∨
    ∃ e w', post (.error e) w' ∧ s = .ofProgram w' (.done (.error e)) ∧ ∀ x ∈ h, x = .silent := by
  obtain ⟨r, w', hp, hpost⟩ := hp
  obtain ⟨h₁, h₂, hr', he, hall⟩ := of_perform (p := ExceptT.run p) hr hs hp
  cases r with
  | ok a => exact .inl ⟨a, w', h₁, h₂, hpost, hr', he, hall⟩
  | error e =>
    obtain ⟨rfl, rfl⟩ := of_done hr'
    exact .inr ⟨e, w', hpost, rfl, by simpa [he] using hall⟩

/-- A program that ends without waiting has ended in every history. -/
theorem done_of_ends {p : Orchestration α} {s : System (Except RunError α)}
    {post : Except RunError α → World → Prop} (hr : Reaches S (ExceptT.run p) w h s)
    (hs : s.IsResting) (hp : w.Ends p post) :
    ∃ r w', post r w' ∧ s = .ofProgram w' (.done r) ∧ ∀ x ∈ h, x = .silent := by
  obtain ⟨r, w', hp, hpost⟩ := hp
  rw [← Program.bind_done (ExceptT.run p)] at hr
  obtain ⟨h₁, h₂, hr', rfl, hall⟩ := of_perform hr hs hp
  obtain ⟨rfl, rfl⟩ := of_done hr'
  exact ⟨r, w', hpost, rfl, by simpa using hall⟩

/-- What is known to end well is done before the rest. -/
theorem of_ends_ok {p : Orchestration α} {f : α → Orchestration β}
    {s : System (Except RunError β)} {a : α} {w' : World}
    (hr : Reaches S (ExceptT.run (p >>= f)) w h s) (hs : s.IsResting)
    (hp : w.Ends p fun r w₁ => r = .ok a ∧ w₁ = w') :
    ∃ h₁ h₂, Reaches S (ExceptT.run (f a)) w' h₂ s ∧ h = h₁ ++ h₂ ∧ ∀ x ∈ h₁, x = .silent := by
  rcases hr.of_ends hs hp with ⟨_, _, h₁, h₂, ⟨⟨⟩, rfl⟩, hr, he, hall⟩ | ⟨e, w₁, ⟨⟨⟩, -⟩, -⟩
  exact ⟨h₁, h₂, hr, he, hall⟩

theorem post_of_ends {p : Orchestration α} {w' : World} {r : Except RunError α}
    {post : Except RunError α → World → Prop}
    (hr : Reaches S (ExceptT.run p) w h (.ofProgram w' (.done r))) (hp : w.Ends p post) :
    post r w' := by
  obtain ⟨r', w'', hpost, he, -⟩ := hr.done_of_ends trivial hp
  cases he
  exact hpost

/-- What is asked for and served comes before the rest. -/
theorem of_lift {r : Request} {a : r.Reply} {w' : World} {f : r.Reply → Orchestration β}
    {s : System (Except RunError β)}
    (hr : Reaches S (ExceptT.run (Orchestration.lift (Program.request r) >>= f)) w h s)
    (hs : s.IsResting) (hserve : w.serve r = some (a, w')) :
    ∃ h', Reaches S (ExceptT.run (f a)) w' h' s ∧ h = .silent :: h' := by
  have hr : Reaches S (.ask r fun a => ExceptT.run (f a)) w h s := hr
  cases hr with
  | here => exact hs.elim
  | serve hs' hr =>
    rw [hserve] at hs'
    cases hs'
    exact ⟨_, hr, rfl⟩
  | during => cases hserve
  | after => cases hserve

/-- A run that is ended too. -/
theorem of_ending {id : Uuid} {p : Orchestration α} {w' : World} {r : Except RunError α}
    (hr : Reaches S (ExceptT.run (Orchestration.ending id p)) w h (.ofProgram w' (.done r))) :
    ∃ w₁ h₁, Reaches S (ExceptT.run p) w h₁ (.ofProgram w₁ (.done r)) ∧ w' = w₁.endRun id ∧
      h = h₁ ++ [.silent] := by
  obtain ⟨r', w₁, h₁, h₂, hp, hr', rfl⟩ := bind_done (p := ExceptT.run p) hr
  have hr' : Reaches S (.ask (.endRun id) fun _ => .done r') w₁ h₂ (.ofProgram w' (.done r)) := hr'
  generalize hs : System.ofProgram w' (Program.done r) = s at hr'
  cases hr' with
  | here => cases hs
  | serve hs' hr'' =>
    cases hs'
    obtain ⟨rfl, rfl⟩ := of_done hr''
    cases hs
    exact ⟨w₁, h₁, hp, rfl, rfl⟩

/-- What throws at its end ends with that error, or with one before. -/
theorem error_of_throw {p : Orchestration α} {e : RunError} {w' : World} {r : Except RunError β}
    (hr : Reaches S (ExceptT.run (p >>= fun _ => (throw e : Orchestration β))) w h
      (.ofProgram w' (.done r))) : ∃ e', r = .error e' := by
  obtain ⟨a, w₁, h₁, h₂, -, hr', -⟩ := bind_done (p := ExceptT.run p) hr
  cases a with
  | ok a => exact ⟨e, by have := (of_done hr').2; cases this; rfl⟩
  | error e' => exact ⟨e', by have := (of_done hr').2; cases this; rfl⟩

/-- **A step is run before the rest**, if the program has ended. -/
theorem of_runStep {a : Assignment} {step : Step} {c : Context}
    {f : Outcome × Context → Orchestration β} {w' : World} {r : Except RunError β}
    (hr : Reaches S (ExceptT.run (Orchestration.lift (Program.request (.runStep a step c)) >>= f))
      w h (.ofProgram w' (.done r))) :
    ∃ st o h₁ h₂, Passage.Run S a ⟨w, .start step c 0, []⟩ h₁ st ∧ st.task.outcome? = some o ∧
      Reaches S (ExceptT.run (f (o, st.task.context))) st.world h₂ (.ofProgram w' (.done r)) ∧
      h = .silent :: (h₁ ++ .moved [] (st.task.around []) .silent none :: h₂) := by
  have hr : Reaches S (.ask (.runStep a step c) fun x => ExceptT.run (f x)) w h
    (.ofProgram w' (.done r)) := hr
  generalize hs : System.ofProgram w' (Program.done r) = s at hr
  cases hr with
  | here => cases hs
  | serve hs' => cases hs'
  | during => cases hs
  | after hst ho hr => exact ⟨_, _, _, _, hst, ho, hr, rfl⟩

end Program.Reaches

end WorkflowEngine
