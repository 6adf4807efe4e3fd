import WorkflowEngine.Proofs.Run.Scope
import WorkflowEngine.Proofs.Task.Pass

/-!
# Tasks within runs

What happens to a system touches the task of a thread only if a thread within that task moves. So
what becomes of a task that has an outcome, or of a parallel step, is settled by its own threads,
however many other ones there are.

## Main definitions

* `System.isCancelled`: the run whose step is run is cancelled
* `System.Touches`: what a happening does to the task of a thread

## Main results

* `System.Step.touches`: a task that is not over is touched from within only
-/

namespace WorkflowEngine

namespace Task

/-- The task of a thread within a task. -/
theorem at?_append {path q : List Nat} {t u : Task} (hu : at? path t = some u) :
    at? (path ++ q) t = at? q u := by
  induction path generalizing t with
  | nil =>
    cases hu
    rfl
  | cons i path ih =>
    obtain ⟨c, b, fs, index, t', rfl, hi, he⟩ := exists_worker_of_at? (Option.isSome_of_mem hu)
    rw [List.cons_append, at?_of_running hi]
    exact ih (he ▸ hu)

theorem callAt?_append {path q : List Nat} {t u : Task} (hu : at? path t = some u) :
    callAt? (path ++ q) t = callAt? q u := by
  unfold callAt?
  rw [at?_append hu]

end Task

variable {α : Type} {S : Surroundings} {s s' : System α} {x : Happening} {path : Path} {u : Task}

/-- The run whose step is run is cancelled. -/
def System.isCancelled (s : System α) : Bool :=
  match s.main with
  | .stepping a _ _ => s.world.isCancelled a.executionId
  | .program _ => false

/-- **What a happening does to the task of a thread**: a thread within it moves, or has its simple
step answered, or else the task stays as it is. -/
inductive System.Touches (S : Surroundings) (s : System α) (path : Path) (u : Task) :
    Happening → System α → Prop where
  | moves {r ms around e opens u' s₁} (hl : s.leaf? (path ++ r) = none)
      (hm : Task.Moves S.setting.env ⟨s.isCancelled, ms⟩ r u u' e) (hu : s₁.task? path = some u') :
      Touches S s path u (.moved (path ++ r) around e opens) s₁
  | answers {r reply around e opens u' s₁} (hl : (s.leaf? (path ++ r)).isSome = true)
      (ha : Task.Answers reply r u u') (hu : s₁.task? path = some u') :
      Touches S s path u (.moved (path ++ r) around e opens) s₁
  | not {y s₁} (hx : ∀ r around e opens, y = .moved (path ++ r) around e opens →
      s.leaf? (path ++ r) = none → (u.callAt? r).isSome = true) (hu : s₁.task? path = some u) :
      Touches S s path u y s₁

/-- **A task that is not over is touched from within only.** -/
theorem System.Step.touches (h : System.Step S s x s') (hu : s.task? path = some u)
    (ho : u.outcome? = none) : s.Touches S path u x s' := by
  obtain ⟨w, main, leaves⟩ := s
  cases main with
  | program p => cases hu
  | stepping a t k =>
    have h : System.Step S (Passage.toSystem ⟨w, t, leaves⟩ a k) x s' := h
    have hat : t.at? path = some u := hu
    rcases h.of_toSystem with ⟨st', hst, rfl⟩ | ⟨o, hover, -, -⟩
    · cases hst with
      | advance hl hm =>
        rcases hm.affects hat ho with ⟨r, u', rfl, hm, hu'⟩ | ⟨hp, hu'⟩
        · exact .moves hl hm hu'
        · refine .not ?_ hu'
          rintro r around e opens ⟨⟩
          exact absurd rfl (hp r)
      | call _ hc =>
        -- the thread only begins its simple step
        refine .not ?_ hu
        rintro r around e opens ⟨⟩ -
        have hc := (Task.callAt?_append hat).symm.trans hc
        exact Option.isSome_of_mem hc
      | serve hl =>
        refine .not ?_ hu
        rintro r around e opens ⟨⟩ hn
        cases hn.symm.trans hl
      | answer hl ha =>
        rcases ha.affects hat with ⟨r, u', rfl, ha, hu'⟩ | ⟨hp, hu'⟩
        · exact .answers (Option.isSome_of_mem hl) ha hu'
        · refine .not ?_ hu'
          rintro r around e opens ⟨⟩
          exact absurd rfl (hp r)
      | release hl =>
        refine .not ?_ hu
        rintro r around e opens ⟨⟩ hn
        cases hn.symm.trans hl
      | tell => exact .not (by rintro r around e opens ⟨⟩) hu
      | cancel => exact .not (by rintro r around e opens ⟨⟩) hu
      | outside => exact .not (by rintro r around e opens ⟨⟩) hu
    · -- nothing within a step that is over goes on
      cases (Task.outcome?_of_at? hover hat).symm.trans ho

/-- A task that has an outcome and is not over moves only by itself. -/
theorem System.Step.task?_settled {c : Context} {o : Outcome} {f : Frame} {fs : List Frame}
    (h : System.Step S s x s') (ht : s.task? path = some (.mk c (.settled o) (f :: fs))) :
    s'.task? path = some (.mk c (.settled o) (f :: fs)) ∨
      ∃ t m e, (Task.mk c (.settled o) (f :: fs)).advance S.setting.env m = some (t, e) ∧
        s'.task? path = some t := by
  cases h.touches ht rfl with
  | moves _ hm hu => exact .inr ⟨_, _, _, hm.advance_eq nofun, hu⟩
  | answers _ ha => cases ha
  | not _ hu => exact .inl hu

end WorkflowEngine
