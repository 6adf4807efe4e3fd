import WorkflowEngine.Proofs.Run.Telling
import WorkflowEngine.Proofs.Task.Sum

/-!
# Reports of steps

In every history of a run each step that begins is over once, and what is told of the steps is what
is to be told of each of them when it is over, in this order and nothing else. It does not matter
how deep a step is, whether it is run beside others, whether its failure counts, and when the run is
cancelled.

## Main definitions

* `System.Chronicle`: a history with the steps that begin in it and what is told in it
* `System.Owes`: what a run has to tell of a step at the top level that is over
* `System.underway`: the steps that have begun and are not over

## Main results

* `System.Step.tells`: what is told by one happening
* `System.Step.underway`: steps begin and end
* `run_reports_each_step_once`: each step that is over is told of once
-/

namespace WorkflowEngine

namespace System

variable {α : Type}

/-- The step that a thread begins by what happens. -/
def enters? (s : System α) : Happening → Option Visit
  | .moved path _ _ _ => (s.task? path).bind Task.entering?
  | _ => none

/-- **What a run tells by what happens**; what others do is not told by it. -/
inductive Tells (id : Uuid) (s : System α) : Happening → System α → List Telling → Prop where
  | own {x s' l} (hx : x ≠ .outside) (h : s'.world.tellings id = s.world.tellings id ++ l) :
      Tells id s x s' l
  | outside {s'} : Tells id s .outside s' []

/-- **A history with the steps that begin in it and what is told in it.** -/
inductive Chronicle (S : Surroundings) :
    System α → List Happening → List Visit → List Telling → System α → Prop where
  | refl {s} : Chronicle S s [] [] [] s
  | step {s x l s' h begun told s''} (hs : Step S s x s') (hx : s.Tells S.id x s' l)
      (hr : Chronicle S s' h begun told s'') :
      Chronicle S s (x :: h) ((s.enters? x).toList ++ begun) (l ++ told) s''

/-- The steps that have begun and are not over. -/
def underway (s : System α) : Multiset Visit :=
  match s.main with
  | .stepping _ t _ => t.underway
  | .program _ => 0

end System

theorem Happening.filterMap_ending? (x : Happening) (h : List Happening) :
    (x :: h).filterMap ending? = x.ending?.toList ++ h.filterMap ending? := by
  cases hx : x.ending? <;> simp [hx]

/-- **Where a step that is over stands**: it is the first of the steps around its thread, and its
depth is the number of the others. -/
def Happening.IsLocated : Happening → Prop
  | .moved _ around effect _ =>
    ∀ e ∈ effect.ending?, ∃ outer, around = e.step :: outer ∧ e.depth = outer.length
  | _ => True

/-! ### While a step is run -/

namespace Passage

variable {engine : Expr.Engine} {config : Config} {id : Uuid}
  {rule : Execution → Execution → Prop} {α : Type} {a : Assignment} {st st' : Passage}
  {x : Happening} {root : WorkflowEngine.Step} {k : Outcome × Context → Program α}

/-- What a run has to tell of the step that is run, if that is over. -/
def owed (root : WorkflowEngine.Step) (st : Passage) : List Telling :=
  (st.task.outcome?.map fun o => (⟨root, 0, o, 0⟩ : Ending)).toList.flatMap Ending.tellings

theorem owed_of_outcome? {o : Outcome} (ho : st.task.outcome? = some o) :
    st.owed root = Ending.tellings ⟨root, 0, o, 0⟩ := by
  rw [owed, ho]
  exact List.append_nil _

theorem owed_of_none (ho : st.task.outcome? = none) : st.owed root = [] := by
  rw [owed, ho]
  rfl

/-- **What is told while a step is run**: of each step within that is over, all there is to be told,
and of the step itself nothing yet. -/
theorem Step.tells (ha : a.executionId = id) (hp : Task.Placed root 0 st.task)
    (hl : st.LeavesAsk a) (h : Passage.Step (.ofRun engine config id rule) a st x st') :
    ∃ l, (st.toSystem a k).Tells id x (st'.toSystem a k) l ∧
      l ++ st'.owed root = st.owed root ++ x.ending?.toList.flatMap Ending.tellings := by
  subst ha
  -- what tells of no step and leaves the task as far as it is
  have hquiet (hx : x ≠ .outside) (he : x.ending? = none)
      (hw : st'.world.tellings a.executionId = st.world.tellings a.executionId)
      (ho : st'.task.outcome? = st.task.outcome?) :
      ∃ l, (st.toSystem a k).Tells a.executionId x (st'.toSystem a k) l ∧
        l ++ st'.owed root = st.owed root ++ x.ending?.toList.flatMap Ending.tellings := by
    refine ⟨[], .own hx (hw.trans (List.append_nil _).symm), ?_⟩
    rw [he, owed, owed, ho]
    exact (List.append_nil _).symm
  have h' := h
  cases h with
  | @advance path ms t e _ hm =>
    have hn : st.task.outcome? = none := by
      cases ho : st.task.outcome? with
      | none => rfl
      | some o => exact absurd hm (Task.not_moves_of_outcome? ho)
    refine ⟨_, .own (by rintro ⟨⟩) (World.tellings_observe engine config a st.world e), ?_⟩
    have howed : owed root ⟨(Setting.ofConfig engine config).observe a st.world e, t, st.leaves⟩ =
        (e.ending?.toList.filter fun y => y.depth = 0).flatMap Ending.tellings := by
      -- what is told of a step does not tell how long it took
      obtain ⟨ms, htops, -⟩ := h'.tops hp hn
      have howed : owed root
          ⟨(Setting.ofConfig engine config).observe a st.world e, t, st.leaves⟩ =
            (t.outcome?.map fun o => (⟨root, 0, o, ms⟩ : Ending)).toList.flatMap
              Ending.tellings := by
        unfold owed
        cases t.outcome? <;> rfl
      rw [howed, ← htops]
      cases hy : e.ending? <;> simp [Happening.tops, Happening.ending?, hy]
    -- the end of the step itself is still to be told
    rw [owed_of_none hn]
    refine (congrArg _ howed).trans ?_
    show _ = [] ++ e.ending?.toList.flatMap Ending.tellings
    cases e.ending? with
    | none => rfl
    | some y => by_cases hd : y.depth = 0 <;> simp [hd]
  | call => exact hquiet (by rintro ⟨⟩) rfl rfl rfl
  | @serve path r k' reply w' hl' hs =>
    refine hquiet (by rintro ⟨⟩) rfl ((World.tellings_serve hs).trans ?_) rfl
    have htelling : r.telling? a.executionId = none := by
      cases (hl _ _ hl').1 with
      | paused | resumed => exact ite_self _
      | _ => rfl
    rw [htelling]
    exact List.append_nil _
  | @answer path r t _ hr =>
    refine hquiet (by rintro ⟨⟩) rfl rfl ((hp.outcome?_of_answers hr).trans ?_)
    cases ho : st.task.outcome? with
    | none => rfl
    | some o => exact absurd hr (Task.not_answers_of_outcome? ho)
  | release => exact hquiet (by rintro ⟨⟩) rfl rfl rfl
  | tell => exact hquiet (by rintro ⟨⟩) rfl rfl rfl
  | cancel _ hc =>
    exact hquiet (by rintro ⟨⟩) rfl
      (World.tellings_perform (Orchestration.isQuiet_cancel _) hc _) rfl
  | outside =>
    refine ⟨[], .outside, ?_⟩
    exact (List.append_nil _).symm

/-- A thread that waits for a simple step begins none. -/
theorem entering?_of_callAt? {t : Task} {path : Path} (h : (t.callAt? path).isSome = true) :
    (t.at? path).bind Task.entering? = none := by
  unfold Task.callAt? at h
  split at h
  next hu =>
    rw [hu]
    rfl
  next => cases h

/-- **Steps begin and end** while a step is run. -/
theorem Step.underway {S : Surroundings} (hst : st.Sound) (h : Passage.Step S a st x st') :
    st'.task.underway + (x.ending?.map Ending.visit).toList =
      st.task.underway + ((st.toSystem a k).enters? x).toList := by
  -- a thread that does a simple step is in the middle of a step
  have hnone {path around e opens} (hc : (st.task.callAt? path).isSome = true) :
      (st.toSystem a k).enters? (.moved path around e opens) = none := entering?_of_callAt? hc
  cases h with
  | advance _ hm => exact hm.underway
  | call _ hc =>
    rw [hnone (Option.isSome_of_mem hc)]
    rfl
  | serve hl | release hl =>
    rw [hnone (hst _ _ hl)]
    rfl
  | answer hl hr =>
    rw [hnone (hst _ _ hl), hr.underway]
    rfl
  | _ => rfl

/-- **A step that is over stands in its place.** -/
theorem Step.isLocated {S : Surroundings} (hp : Task.Placed root 0 st.task)
    (h : Passage.Step S a st x st') : x.IsLocated := by
  cases h with
  | @advance path ms t e _ hm =>
    rintro y hy
    cases e with
    | finished s d o ms =>
      cases hy
      obtain ⟨outer, hl, -, hd⟩ := hp.lineage hm
      exact ⟨outer, hl, hd.trans (Nat.zero_add _)⟩
    | _ => cases hy
  | call | serve | answer | release => rintro _ ⟨⟩
  | _ => trivial

end Passage

/-! ### In a run -/

variable {engine : Expr.Engine} {config : Config} {id : Uuid}
  {rule : Execution → Execution → Prop} {w : World} {h : List Happening} {x : Happening}
  {s s' : System (Except RunError Summary)} {owed : List Telling}

namespace System

/-- **What a run has to tell of a step at the top level that is over.** A step that is run is to be
told of when it is over, and the program does so then. -/
def Owes (id : Uuid) (owed : List Telling) (s : System (Except RunError Summary)) : Prop :=
  match s.main with
  | .program p => s.leaves = [] ∧ ∃ n, p.Eventually (Program.Owes id owed) n s.world
  | .stepping a t k =>
    ∃ root, a.executionId = id ∧ Task.Placed root 0 t ∧ Passage.Sound ⟨s.world, t, s.leaves⟩ ∧
      Passage.LeavesAsk a ⟨s.world, t, s.leaves⟩ ∧
      (∀ o c, (k (o, c)).Owes id (Ending.tellings ⟨root, 0, o, 0⟩)) ∧
      owed = Passage.owed root ⟨s.world, t, s.leaves⟩

/-- **What is told by one happening**: what was to be told before and what is to be told of the step
that is over by it, but for what is to be told then. Steps begin and end by it. -/
theorem Step.tells (hs : s.Owes id owed) (h : Step (.ofRun engine config id rule) s x s') :
    ∃ l owed', s.Tells id x s' l ∧ s'.Owes id owed' ∧
      l ++ owed' = owed ++ x.ending?.toList.flatMap Ending.tellings ∧
      s'.underway + (x.ending?.map Ending.visit).toList = s.underway + (s.enters? x).toList ∧
      x.IsLocated := by
  obtain ⟨world, main, leaves⟩ := s
  cases main with
  | program p =>
    obtain ⟨rfl, n, hp⟩ := hs
    obtain ⟨rfl, ⟨r, k, reply, w', rfl, hserve, rfl⟩ | ⟨a, step, c, k, rfl, rfl⟩⟩ := h.of_program
    · -- what the program asks for is told, and it goes on
      have htells : System.Tells id (.ofProgram world (.ask r k)) .silent
          (.ofProgram w' (k reply)) (r.telling? id).toList :=
        .own nofun (World.tellings_serve hserve)
      cases hp with
      | now hp =>
        cases hp with
        | runStep => cases hserve
        | ask _ hp =>
          exact ⟨_, _, htells, ⟨rfl, 0, .now (hp reply)⟩, (List.append_nil _).symm, rfl, nofun⟩
      | serve hr hserve' hp =>
        obtain ⟨rfl, rfl⟩ := Prod.mk.inj (Option.some.inj (hserve'.symm.trans hserve))
        rw [hr.telling?] at htells
        exact ⟨_, _, htells, ⟨rfl, _, hp⟩, (List.append_nil _).symm, rfl, nofun⟩
    · cases hp with
      | serve hr => exact absurd rfl (hr.ne_runStep _ _ _)
      | now hp =>
        cases hp with
        | ask hr => exact absurd rfl (hr _ _ _)
        | runStep ha hk =>
          refine ⟨[], [], .own nofun (List.append_nil _).symm, ?_, rfl, rfl, nofun⟩
          exact ⟨step, ha, .start step c 0, .start world step c 0, by rintro path p ⟨⟩, hk, rfl⟩
  | stepping a t k =>
    obtain ⟨root, ha, hplaced, hsound, hasks, hk, rfl⟩ := hs
    have h : Step (.ofRun engine config id rule) (Passage.toSystem ⟨world, t, leaves⟩ a k) x s' := h
    rcases h.of_toSystem with
      ⟨st', hst, rfl⟩ | ⟨o, ho, rfl, rfl⟩
    · obtain ⟨l, htells, heq⟩ := hst.tells (k := k) ha hplaced hasks
      exact ⟨l, _, htells, ⟨root, ha, hst.placed hplaced, hsound.step hst, hasks.step hst, hk, rfl⟩,
        heq, hst.underway hsound, hst.isLocated hplaced⟩
    · -- the step is over, and it is to be told of
      refine ⟨[], Passage.owed root ⟨world, t, leaves⟩, .own nofun (List.append_nil _).symm,
        ⟨hsound.leaves_eq_nil ho, 0, .now ?_⟩, (List.append_nil _).symm, ?_, nofun⟩
      · rw [Passage.owed_of_outcome? ho]
        exact hk _ _
      · show (0 : Multiset Visit) + 0 = t.underway + (t.entering?.toList : Multiset Visit)
        rw [Task.underway_of_outcome? ho, Task.entering?_of_outcome? ho]
        rfl

/-- **In every history** what was told is what was to be told, but for what is still to be. -/
theorem Run.chronicle (hs : s.Owes id owed) (hr : Run (.ofRun engine config id rule) s h s') :
    ∃ begun told owed', Chronicle (.ofRun engine config id rule) s h begun told s' ∧
      s'.Owes id owed' ∧
      told ++ owed' = owed ++ (h.filterMap Happening.ending?).flatMap Ending.tellings ∧
      s'.underway + (h.filterMap Happening.ending?).map Ending.visit = s.underway + begun ∧
      ∀ x ∈ h, x.IsLocated := by
  induction hr generalizing owed with
  | refl s => exact ⟨[], [], owed, .refl, hs, (List.append_nil _).symm, rfl, List.forall_mem_nil _⟩
  | @step s x s₁ h s' hx _ ih =>
    obtain ⟨l, owed₁, htells, hs₁, heq, hunder, hloc⟩ := hx.tells hs
    obtain ⟨begun, told, owed', hc, hs', heq', hunder', hlocs⟩ := ih hs₁
    refine ⟨_, _, owed', .step hx htells hc, hs', ?_, ?_, List.forall_mem_cons.mpr ⟨hloc, hlocs⟩⟩
    · rw [Happening.filterMap_ending?, List.flatMap_append, List.append_assoc, heq',
        ← List.append_assoc, heq, List.append_assoc]
    · calc s'.underway + ((x :: h).filterMap Happening.ending?).map Ending.visit
          = s'.underway + (h.filterMap Happening.ending?).map Ending.visit +
              (x.ending?.map Ending.visit).toList := by
            rw [Happening.filterMap_ending?, List.map_append, ← Multiset.coe_add, add_assoc,
              add_comm (Multiset.ofList (x.ending?.toList.map _)), Option.toList_map]
        _ = s.underway + ((s.enters? x).toList ++ begun : List Visit) := by
            rw [hunder', add_right_comm, hunder, add_assoc, Multiset.coe_add]

/-- A run that is over has nothing to tell, and no step is underway. -/
theorem Owes.of_result? (hs : s.Owes id owed) (hresult : s.result?.isSome = true) :
    owed = [] ∧ s.underway = 0 := by
  obtain ⟨world, main, leaves⟩ := s
  cases main with
  | stepping => cases hresult
  | program p =>
    obtain ⟨-, n, hp⟩ := hs
    cases p with
    | ask => cases hresult
    | done r =>
      cases hp with
      | now hp =>
        cases hp
        exact ⟨rfl, rfl⟩

end System

/-- **Every step that is run is reported once.** In every history of a run,

* each step that begins, at whatever depth, is over once, if the run is over;
* what the run has told is a beginning of what is to be told of the steps that are over, in the
  order in which they are, and is all of it when the run is over: one event for each of them and,
  right after that, one call for its failure if it has one, but nothing of a step that was
  cancelled;
* a step that is over has the depth at which its thread is;
* what is told of a failure is that it arose at an approval exactly if that was rejected or timed
  out. -/
theorem run_reports_each_step_once
    (hr : System.Run (.ofRun engine config id rule)
      (.ofProgram w (ExceptT.run (Orchestration.run engine id))) h s) :
    ∃ begun told, System.Chronicle (.ofRun engine config id rule)
        (.ofProgram w (ExceptT.run (Orchestration.run engine id))) h begun told s ∧
      told <+: (h.filterMap Happening.ending?).flatMap Ending.tellings ∧
      (s.result?.isSome = true →
        told = (h.filterMap Happening.ending?).flatMap Ending.tellings ∧
        begun.Perm ((h.filterMap Happening.ending?).map Ending.visit)) ∧
      (∀ x ∈ h, x.IsLocated) ∧
      ∀ error : StepError, error.stage = .approval ↔
        (∃ stepId reason, error = .approvalRejected stepId reason) ∨
          ∃ stepId, error = .approvalTimeout stepId := by
  have hstart : System.Owes id [] (.ofProgram w (ExceptT.run (Orchestration.run engine id))) :=
    ⟨rfl, Orchestration.eventually_owes_run engine id w⟩
  obtain ⟨begun, told, owed, hc, hs, heq, hunder, hlocs⟩ := hr.chronicle hstart
  refine ⟨begun, told, hc, ⟨owed, heq⟩, fun hresult => ?_, hlocs, fun error => ?_⟩
  · obtain ⟨rfl, hnone⟩ := hs.of_result? hresult
    rw [List.append_nil] at heq
    have hbefore : System.underway (.ofProgram w (ExceptT.run (Orchestration.run engine id))) = 0 :=
      rfl
    rw [hnone, hbefore, zero_add, zero_add] at hunder
    exact ⟨heq, (Multiset.coe_eq_coe.mp hunder).symm⟩
  · cases error <;> simp [StepError.stage]

/-- What is told of a loop that fails since an approval in its body was rejected. -/
def Telling.rejected : List Telling :=
  let error : StepError := .approvalRejected "g" none
  [.executed "g" "human" .failed 1, .handled "g" .approval error,
    .executed "l" "loop" .failed 0, .handled "l" .approval error]

/-- An approval in the body of a loop is rejected. -/
theorem run_reports_each_step_once_gated : ∃ h begun told s,
    System.Chronicle (.ofRun .null {} ⟨1⟩ Eq) .gated h begun told s ∧ s.result?.isSome = true ∧
      told = Telling.rejected ∧ begun.length = 2 := by
  have hplay : ((System.gated.play (.ofRun .null {} ⟨1⟩ Eq)
      (System.moves 17 ++ .decide [] false :: System.moves 17)).any fun x =>
        x.2.result?.isSome && decide ((x.1.filterMap Happening.ending?).length = 2) &&
          decide ((x.1.filterMap Happening.ending?).flatMap Ending.tellings =
            Telling.rejected)) = true := by
    decide +kernel
  obtain ⟨⟨h, s⟩, hrun, hx⟩ := (Option.any_eq_true _ _).mp hplay
  simp only [Bool.and_eq_true, decide_eq_true_eq] at hx
  obtain ⟨⟨hresult, hlength⟩, htold⟩ := hx
  obtain ⟨begun, told, hc, -, hover, -⟩ := run_reports_each_step_once (System.Run.of_play hrun)
  obtain ⟨rfl, hbegun⟩ := hover hresult
  refine ⟨h, begun, _, s, hc, hresult, htold, ?_⟩
  rw [hbegun.length_eq, List.length_map, hlength]

end WorkflowEngine
