import Mathlib.Data.List.Nodup
import Mathlib.Data.List.TakeWhile
import WorkflowEngine.Proofs.Dict
import WorkflowEngine.Proofs.Task.Place

/-!
# Scopes of loops

The loops that the context of a task tells of are those whose frames wait for the task, each in its
iteration, on top of the loops around the whole tree. A loop puts itself there when it begins its
first iteration and takes itself away when it ends. It knows itself by its id, and so this rests on
one condition: no loop is within another one with its id.

## Main definitions

* `Step.ApartFrom`, `Workflow.LoopsApart`: no loop is within another one with its id
* `Task.Scoped`: the context of a task, and those of the tasks of its workers, tell of the loops
  around
* `Task.baseAt`: the loops around the tree that the thread at a path runs

## Main results

* `Context.get?_toJson_loop`: what expressions see of the innermost loop
* `Task.Scoped.moves`, `Task.Scoped.answers`: motions keep tasks scoped
* `Task.Moves.baseAt_eq`, `Task.Answers.baseAt_eq`: motions leave what is around a thread as it is
-/

namespace WorkflowEngine

/-! ### Ids of loops -/

/-- The id of a loop. -/
def Step.loopId? : Step → Option String
  | .loop head _ _ => some head.id
  | _ => none

/-- **No loop in the tree of a step is within another one with its id**, nor has one of the given
ids. -/
def Step.ApartFrom (s : Step) (ids : List String) : Prop :=
  ∀ l, s.Lineage l → (l.filterMap Step.loopId? ++ ids).Nodup

/-- **No loop of a workflow is within another one with its id.** -/
def Workflow.LoopsApart (v : Workflow) : Prop :=
  ∀ s ∈ v.steps, ∀ l, s.Lineage l → (l.filterMap Step.loopId?).Nodup

theorem Workflow.LoopsApart.apartFrom {v : Workflow} (h : v.LoopsApart) {s : Step}
    (hs : s ∈ v.steps) : s.ApartFrom [] := by
  intro l hl
  rw [List.append_nil]
  exact h s hs l hl

/-- A line of steps ends with the root, and begins in one of the steps that the root holds. -/
theorem Step.Lineage.root_or_held {root : Step} {l : List Step} (h : root.Lineage l) :
    l = [root] ∨ ∃ x l', root.Holds x ∧ x.Lineage l' ∧ l = l' ++ [root] := by
  induction h with
  | root => exact .inl rfl
  | @child s p l _ hs ih =>
    rcases ih with he | ⟨x, l', hx, hl', he⟩
    · cases he
      exact .inr ⟨s, [s], hs, .root, rfl⟩
    · refine .inr ⟨x, s :: l', hx, ?_, by rw [he]; rfl⟩
      cases hl' with
      | root =>
        cases he
        exact .child .root hs
      | child hl' hs' =>
        cases he
        exact .child (.child hl' hs') hs

theorem Step.ApartFrom.of_held {s : Step} {ids : List String}
    (h : (s.loopId?.toList ++ ids).Nodup)
    (hs : ∀ x, s.Holds x → x.ApartFrom (s.loopId?.toList ++ ids)) : s.ApartFrom ids := by
  intro l hl
  rcases hl.root_or_held with rfl | ⟨x, l', hx, hl', rfl⟩
  · cases hid : s.loopId? <;> simpa [hid] using h
  · have hl' := hs x hx l' hl'
    cases hid : s.loopId? <;> simpa [hid] using hl'

theorem Step.ApartFrom.simple {head : Head} {leaf : Leaf} {ids : List String} (h : ids.Nodup) :
    (Step.simple head leaf).ApartFrom ids :=
  .of_held h fun _ ⟨_, hsteps, _⟩ => absurd hsteps List.not_mem_nil

theorem Step.ApartFrom.loop {head : Head} {rule : LoopRule} {body : List Step} {ids : List String}
    (h : (head.id :: ids).Nodup) (hb : ∀ x ∈ body, x.ApartFrom (head.id :: ids)) :
    (Step.loop head rule body).ApartFrom ids := by
  refine .of_held h ?_
  rintro x ⟨steps, hsteps, hx⟩
  rw [List.mem_singleton.mp hsteps] at hx
  exact hb x hx

/-! ### What contexts tell of loops -/

namespace Context

variable {c : Context} {id : String} {n : Nat} {outer : List (String × Nat)}

/-- **What expressions see of the innermost loop**: its id and its iteration. -/
theorem get?_toJson_loop (h : c.loops = (id, n) :: outer) :
    c.toJson.get? "loop" = some (.ofFields [("id", .str id), ("iteration", .ofNat n)]) := by
  have hfields : ∀ fields : List (String × Json), ∀ loop loops : Json,
      (Json.ofFields (fields ++ [("loop", loop), ("loops", loops)])).get? "loop" = some loop := by
    intro fields loop loops
    rw [List.append_cons, Json.ofFields, Json.get?, Dict.ofList_append_singleton,
      Dict.find?_insert_of_ne _ _ (show "loop" ≠ "loops" by decide), Dict.ofList_append_singleton,
      Dict.find?_insert_self]
  simp only [toJson, loopFields, h]
  exact hfields _ _ _

theorem loops_foldl {α : Type} {f : Context → α → Context} (hf : ∀ c x, (f c x).loops = c.loops)
    (l : List α) (c : Context) : (l.foldl f c).loops = c.loops := by
  induction l generalizing c with
  | nil => rfl
  | cons x l ih => exact (ih (f c x)).trans (hf c x)

theorem loops_recordAll {τ : Type} (b : Block τ) (c : Context) :
    (b.recordAll c).loops = c.loops :=
  loops_foldl (f := fun c (x : Finished) => x.results.foldl record c)
    (fun c x => loops_foldl (f := record) (fun _ _ => rfl) x.results c) _ c

/-- There is no loop around a run. -/
theorem loops_build {engine : Expr.Engine} {e : Execution} {item : Option WorkItem}
    {vars : Dict Json} (h : build engine e item vars = .ok c) : c.loops = [] := by
  have hvars : ∀ (vars : List (String × Json)) (c c' : Context),
      c.resolveVariables engine vars = .ok c' → c'.loops = c.loops := by
    intro vars
    induction vars with
    | nil =>
      rintro c _ ⟨⟩
      rfl
    | cons x vars ih =>
      intro c c' h
      rw [resolveVariables] at h
      cases hx : c.resolveVariable engine x.2 with
      | error e =>
        rw [hx] at h
        cases h
      | ok value =>
        rw [hx] at h
        exact ih (c.setVariable x.1 value) c' h
  exact (hvars _ _ _ h).trans (loops_foldl (f := record) (fun _ _ => rfl) _ _)

/-! ### Loops that begin and end -/

/-- A loop that is not around becomes the innermost one. -/
theorem loops_enterLoop_of_not_mem (h : id ∉ c.loops.map Prod.fst) :
    (c.enterLoop id n).loops = (id, n) :: c.loops := by
  unfold enterLoop
  split
  next inner k outer hl =>
    have hne : inner ≠ id := by
      rintro rfl
      exact h (by simp [hl])
    rw [if_neg (by simpa using hne), hl]
  next hl => rw [hl]

/-- The innermost loop begins another iteration. -/
theorem loops_enterLoop_of_head {k : Nat} (h : c.loops = (id, k) :: outer) :
    (c.enterLoop id n).loops = (id, n) :: outer := by
  unfold enterLoop
  rw [h]
  simp

/-- A loop that is not around is not left. -/
theorem exitLoop_of_not_mem (h : id ∉ c.loops.map Prod.fst) : c.exitLoop id = c := by
  have hnil : (c.loops.dropWhile fun l => l.1 != id) = [] := by
    refine List.dropWhile_eq_nil_iff.mpr fun l hl => ?_
    simpa using fun he : l.1 = id => h (he ▸ List.mem_map_of_mem hl)
  rw [exitLoop, hnil]

/-- The innermost loop is left. -/
theorem loops_exitLoop_of_head (h : c.loops = (id, n) :: outer) :
    (c.exitLoop id).loops = outer := by
  rw [exitLoop, h, List.dropWhile_cons_of_neg (by simp)]

end Context

/-! ### Scoped tasks -/

/-- The loop that a frame is that of, with its iteration. -/
def Frame.loop? : Frame → Option (String × Nat)
  | .loop f => some (f.head.id, f.iteration)
  | _ => none

/-- A parallel step waits for its workers, or a loop is between two iterations. -/
def Control.isBetween {τ : Type} : Control τ → Bool
  | .joining _ => true
  | .iterate => true
  | _ => false

namespace Task

/-- The loops whose frames wait for a task, the innermost first. -/
def loopsOf (fs : List Frame) : List (String × Nat) := fs.filterMap Frame.loop?

/-- **The contexts of a task tell of the loops around**: of those whose frames wait, and of those
around the tree. A loop that has not begun an iteration is not told of yet. -/
inductive Scoped : List (String × Nat) → Task → Prop where
  | simple {base c control fs} (hc : Control.isBetween control = false)
      (h : c.loops = loopsOf fs ++ base) : Scoped base (.mk c control fs)
  | iterate {base c f fs}
      (h : c.loops = loopsOf fs ++ base ∨ c.loops = loopsOf (.loop f :: fs) ++ base) :
      Scoped base (.mk c .iterate (.loop f :: fs))
  | joining {base c fs} {b : Block Task} (h : c.loops = loopsOf fs ++ base)
      (hw : ∀ (i index : Nat) (t : Task), b.workers[i]? = some (.running index t) →
        Scoped c.loops t) :
      Scoped base (.mk c (.joining b) fs)

theorem Scoped.loops {base : List (String × Nat)} {c : Context} {control : Control Task}
    {fs : List Frame} (h : Scoped base (.mk c control fs)) (hc : control.isBetween = false) :
    c.loops = loopsOf fs ++ base := by
  cases h with
  | simple _ h => exact h
  | iterate => cases hc
  | joining => cases hc

theorem Scoped.start (s : Step) (c : Context) (d : Nat) : Scoped c.loops (start s c d) :=
  .simple rfl rfl

variable {env : Env} {m : Moment} {root : Step} {d₀ : Nat} {base : List (String × Nat)}

/-! ### Loops around are apart -/

theorem Hosts.map_fst_loopsOf {s : Step} {d : Nat} {fs : List Frame} (h : Hosts root d₀ s d fs) :
    (loopsOf fs).map Prod.fst = (stepsOf fs).filterMap Step.loopId? := by
  induction h with
  | root => rfl
  | branch _ hf _ ih =>
    obtain ⟨condition, ifSteps, elseSteps, cases, defaultSteps, rfl⟩ := hf.step
    exact ih
  | loop _ hf _ ih =>
    rw [hf.step]
    exact congrArg (_ :: ·) ih

/-- A loop has another id than those around. -/
theorem Hosts.not_mem_loops {head : Head} {rule : LoopRule} {body : List Step} {d : Nat}
    {fs : List Frame} (h : Hosts root d₀ (.loop head rule body) d fs)
    (ha : root.ApartFrom (base.map Prod.fst)) :
    head.id ∉ (loopsOf fs ++ base).map Prod.fst := by
  have hn := ha _ h.lineage.1
  rw [List.map_append, h.map_fst_loopsOf]
  exact (List.nodup_cons.mp hn).1

/-- The loops in a step that a worker takes are apart from those around. -/
theorem Hosts.apartFrom {head : Head} {rule : ParallelRule} {body : List Step} {d : Nat}
    {fs : List Frame} (h : Hosts root d₀ (.parallel head rule body) d fs)
    (ha : root.ApartFrom (base.map Prod.fst)) {s : Step} (hs : s ∈ body) :
    s.ApartFrom ((loopsOf fs ++ base).map Prod.fst) := by
  intro l hl
  have hholds : (Step.parallel head rule body).Holds s := ⟨body, List.mem_singleton_self _, hs⟩
  have hn := ha _ (hl.append h.lineage.1 hholds)
  rw [List.map_append, h.map_fst_loopsOf, ← List.append_assoc, ← List.filterMap_append]
  rw [List.filterMap_append, List.filterMap_cons] at hn
  rwa [List.filterMap_append]

/-! ### Motions keep tasks scoped -/

/-- A loop that was in an iteration is over. -/
theorem Scoped.leaveLoop {c : Context} {f : LoopFrame} {result : Except StepError (Nat × LoopExit)}
    {fs : List Frame} {n : Nat} (h : c.loops = (f.head.id, n) :: (loopsOf fs ++ base)) :
    Scoped base (leaveLoop c f result fs) :=
  .simple rfl (Context.loops_exitLoop_of_head h)

/-- A loop that begins an iteration puts itself on top of the loops around, or is there already. -/
theorem loops_enterLoop {c : Context} {f : LoopFrame} {fs : List Frame} (n : Nat)
    (hf : f.head.id ∉ (loopsOf fs ++ base).map Prod.fst)
    (h : c.loops = loopsOf fs ++ base ∨ c.loops = loopsOf (.loop f :: fs) ++ base) :
    (c.enterLoop f.head.id n).loops = (f.head.id, n) :: (loopsOf fs ++ base) := by
  rcases h with h | h
  · rw [Context.loops_enterLoop_of_not_mem (h ▸ hf), h]
  · exact Context.loops_enterLoop_of_head h

theorem Scoped.iterate_scoped {c : Context} {f : LoopFrame} {fs : List Frame}
    (hf : f.head.id ∉ (loopsOf fs ++ base).map Prod.fst)
    (h : c.loops = loopsOf fs ++ base ∨ c.loops = loopsOf (.loop f :: fs) ++ base) :
    Scoped base (Task.iterate env m c f fs) := by
  have henter := loops_enterLoop (nextIteration f.iteration) hf h
  rcases iterate_cases env m c f fs with ⟨result, he⟩ | ⟨result, he⟩ | ⟨-, he⟩ <;> rw [he]
  · -- the loop ends before it looks at its next iteration, which may be its first one
    rcases h with h | h
    · refine .simple rfl ?_
      rw [Context.exitLoop_of_not_mem (h ▸ hf), h]
    · exact .leaveLoop h
  · exact .leaveLoop henter
  · exact .simple rfl henter

/-- A task that moves by itself stays scoped. -/
theorem Scoped.advance {t t' : Task} {e : Effect} (ht : Scoped base t) (hp : Placed root d₀ t)
    (ha : root.ApartFrom (base.map Prod.fst)) (h : t.advance env m = some (t', e)) :
    Scoped base t' := by
  -- By what the task does next, as for tasks that stay placed.
  cases hp with
  | @enter _ _ c s d fs hs =>
    have hloops := ht.loops rfl
    obtain rfl : (Task.enter env m c s d fs).1 = t' := congrArg Prod.fst (Option.some.inj h)
    have he := enters_enter env m c s d fs
    generalize Task.enter env m c s d fs = p at he ⊢
    cases he with
    | loop => exact .iterate (.inl hloops)
    | parallel =>
      refine .joining hloops fun i index t hi => ?_
      cases List.eq_of_mem_replicate (List.mem_of_getElem? hi)
    | _ => exact .simple rfl hloops
  | calling => cases h
  | joining hs =>
    simp only [Task.advance] at h
    split at h
    · cases h
      cases ht with
      | simple hc => cases hc
      | joining hloops => exact .simple rfl ((Context.loops_recordAll _ _).trans hloops)
    · cases h
  | @branch _ _ p c f d fs hs hf =>
    have hloops := ht.loops rfl
    obtain rfl : proceedBranch m c f (.finish p d :: fs) = t' :=
      congrArg Prod.fst (Option.some.inj h)
    rcases proceedBranch_cases m c f (.finish p d :: fs) with
      ⟨-, he⟩ | ⟨-, he⟩ | ⟨s, rest, -, -, he⟩ <;> rw [he] <;> exact .simple rfl hloops
  | @loop _ _ p c f d fs hs hf =>
    have hloops := ht.loops rfl
    obtain rfl : proceedLoop env m c f (.finish p d :: fs) = t' :=
      congrArg Prod.fst (Option.some.inj h)
    rcases proceedLoop_cases env m c f (.finish p d :: fs) with
      ⟨result, he⟩ | he | ⟨s, rest, -, -, he⟩ <;> rw [he]
    · exact .leaveLoop hloops
    · exact .iterate (.inr hloops)
    · exact .simple rfl hloops
  | @iterate _ _ p c f d fs hs hf =>
    obtain rfl : Task.iterate env m c f (.finish p d :: fs) = t' :=
      congrArg Prod.fst (Option.some.inj h)
    rw [hf.step] at hs
    cases ht with
    | simple hc => cases hc
    | iterate hloops => exact .iterate_scoped (hs.not_mem_loops ha) hloops
  | ended =>
    have hloops := ht.loops rfl
    cases h
    refine .simple rfl ?_
    split <;> exact hloops
  | @returned _ _ s c o d fs hs =>
    have hloops := ht.loops rfl
    cases hs with
    | root => cases h
    | @branch p s f d fs hs hf =>
      obtain rfl : returnToBranch c f o (.finish p d :: fs) = t' :=
        congrArg Prod.fst (Option.some.inj h)
      rcases returnToBranch_cases c f o (.finish p d :: fs) with
        ⟨-, he⟩ | ⟨e, -, he⟩ | ⟨e, -, -, -, he⟩ <;> rw [he] <;> exact .simple rfl hloops
    | @loop p s f d fs hs hf =>
      obtain rfl : returnToLoop c f o (.finish p d :: fs) = t' :=
        congrArg Prod.fst (Option.some.inj h)
      rcases returnToLoop_cases c f o (.finish p d :: fs) with
        ⟨-, he⟩ | ⟨e, -, he⟩ | ⟨e, -, -, -, he⟩ | ⟨e, -, -, -, he⟩ <;> rw [he]
      · exact .simple rfl hloops
      · exact .leaveLoop hloops
      · exact .simple rfl hloops
      · exact .leaveLoop hloops

/-- A parallel step stays scoped when a worker changes into one whose task is scoped. -/
theorem Scoped.setWorker {c : Context} {fs : List Frame} {b b' : Block Task} {i : Nat}
    {w : Worker Task} (h : Scoped base (.mk c (.joining b) fs))
    (hworkers : b'.workers = (b.setWorker i w).workers)
    (hn : ∀ index t, w = .running index t → Scoped c.loops t) :
    Scoped base (.mk c (.joining b') fs) := by
  cases h with
  | simple hc => cases hc
  | joining hloops hw =>
    refine .joining hloops fun j index t hj => ?_
    rw [hworkers] at hj
    rcases Block.workers_setWorker hj with he | hj
    · exact hn index t he.symm
    · exact hw j index t hj

theorem Scoped.worker {c : Context} {fs : List Frame} {b : Block Task} {i index : Nat} {t : Task}
    (h : Scoped base (.mk c (.joining b) fs)) (hi : b.workers[i]? = some (.running index t)) :
    c.loops = loopsOf fs ++ base ∧ Scoped c.loops t := by
  cases h with
  | simple hc => cases hc
  | joining hloops hw => exact ⟨hloops, hw i index t hi⟩

/-- **Motions keep tasks scoped.** -/
theorem Scoped.moves {path : List Nat} {t t' : Task} {e : Effect} (ht : Scoped base t)
    (hp : Placed root d₀ t) (ha : root.ApartFrom (base.map Prod.fst))
    (h : Moves env m path t t' e) : Scoped base t' := by
  -- Induction on the path: the loops around a worker's tree are those of the parallel step.
  induction h generalizing root d₀ base with
  | here h => exact ht.advance hp ha h
  | stop => exact ht.setWorker rfl nofun
  | skip => exact ht.setWorker rfl nofun
  | @take i path c fs s =>
    refine ht.setWorker rfl fun index t he => ?_
    cases he
    exact .start s c _
  | handIn => exact ht.setWorker rfl nofun
  | inner hi _ _ ih =>
    refine ht.setWorker rfl fun index t he => ?_
    cases he
    obtain ⟨hloops, hw⟩ := ht.worker hi
    cases hp with
    | joining hs hd hb hwp =>
      obtain ⟨s, hx⟩ := hb _ _ _ hi
      have has := hs.apartFrom ha (List.mem_of_getElem? hx)
      exact ih hw (hwp _ _ _ s hi hx) (hloops ▸ has)

/-- **Answers keep tasks scoped.** -/
theorem Scoped.answers {r : Except StepError Json} {path : List Nat} {t t' : Task}
    (ht : Scoped base t) (h : Answers r path t t') : Scoped base t' := by
  induction h generalizing base with
  | here => exact .simple rfl (ht.loops rfl)
  | inner hi _ ih =>
    refine ht.setWorker rfl fun index t he => ?_
    cases he
    exact ih (ht.worker hi).2

/-! ### What is around a thread -/

/-- The loops around the tree that the thread at a path runs: those of the parallel step whose
worker it is, or else those around the whole tree. -/
def baseAt : List (String × Nat) → List Nat → Task → List (String × Nat)
  | _, i :: path, .mk c (.joining b) _ =>
    match b.workers[i]? with
    | some (.running _ t) => baseAt c.loops path t
    | _ => c.loops
  | base, _, _ => base

@[simp] theorem baseAt_nil (t : Task) : baseAt base [] t = base := by
  rw [baseAt]
  rintro _ _ _ _ _ ⟨⟩

theorem baseAt_cons {i : Nat} {path : List Nat} {c : Context} {b : Block Task} {fs : List Frame}
    {index : Nat} {t : Task} (hi : b.workers[i]? = some (.running index t)) :
    baseAt base (i :: path) (.mk c (.joining b) fs) = baseAt c.loops path t := by
  rw [baseAt, hi]

/-- A task within another one is that of a worker, or within it. -/
theorem exists_worker_of_at? {i : Nat} {path : List Nat} {t : Task}
    (h : (at? (i :: path) t).isSome = true) :
    ∃ c b fs index t', t = .mk c (.joining b) fs ∧ b.workers[i]? = some (.running index t') ∧
      at? (i :: path) t = at? path t' := by
  obtain ⟨c, control, fs⟩ := t
  cases control with
  | joining b =>
    rw [at?] at h
    split at h
    next index t' hi => exact ⟨c, b, fs, index, t', rfl, hi, by rw [at?, hi]⟩
    next => cases h
  | _ => cases h

/-- The task at a path is scoped by the loops around it. -/
theorem Scoped.at {path : List Nat} {t u : Task} (ht : Scoped base t) (hu : at? path t = some u) :
    Scoped (baseAt base path t) u := by
  induction path generalizing base t with
  | nil =>
    cases hu
    rwa [baseAt_nil]
  | cons i path ih =>
    obtain ⟨c, b, fs, index, t', rfl, hi, he⟩ := exists_worker_of_at? (Option.isSome_of_mem hu)
    rw [baseAt_cons hi]
    exact ih (ht.worker hi).2 (he ▸ hu)

/-- What is around a thread stays as it is when a worker changes, if that is so within its task. -/
theorem baseAt_setWorker {path : List Nat} {c : Context} {fs : List Frame} {b b' : Block Task}
    {i : Nat} {w : Worker Task} (hb : b'.workers = (b.setWorker i w).workers)
    (hu : (at? path (.mk c (.joining b) fs)).isSome = true)
    (hu' : (at? path (.mk c (.joining b') fs)).isSome = true)
    (hw : ∀ path' index t index' t', b.workers[i]? = some (.running index t) →
      w = .running index' t' → (at? path' t).isSome = true → (at? path' t').isSome = true →
      baseAt c.loops path' t' = baseAt c.loops path' t) :
    baseAt base path (.mk c (.joining b') fs) = baseAt base path (.mk c (.joining b) fs) := by
  cases path with
  | nil => rw [baseAt_nil, baseAt_nil]
  | cons j path =>
    obtain ⟨_, _, _, index, t, ⟨⟩, hj, he⟩ := exists_worker_of_at? hu
    obtain ⟨_, _, _, index', t', ⟨⟩, hj', he'⟩ := exists_worker_of_at? hu'
    rw [baseAt_cons hj, baseAt_cons hj']
    rw [hb, Block.setWorker, List.getElem?_set] at hj'
    split at hj'
    · next hij =>
      subst hij
      split at hj'
      · exact hw path index t index' t' hj (Option.some.inj hj') (he ▸ hu) (he' ▸ hu')
      · cases hj'
    · -- another worker has changed
      cases hj.symm.trans hj'
      rfl

/-- **What is around a thread stays as it is** while that is there. -/
theorem Moves.baseAt_eq {path path' : List Nat} {t t' : Task} {e : Effect}
    (h : Moves env m path t t' e) (hu : (at? path' t).isSome = true)
    (hu' : (at? path' t').isSome = true) : baseAt base path' t' = baseAt base path' t := by
  induction h generalizing base path' with
  | @here t t' e h =>
    cases path' with
    | nil => rw [baseAt_nil, baseAt_nil]
    | cons i path' =>
      -- a parallel step with a worker that runs does not move by itself
      obtain ⟨c, b, fs, index, u, rfl, hi, -⟩ := exists_worker_of_at? hu
      simp [Task.advance, Block.isOver_eq_false hi] at h
  | stop hi => exact baseAt_setWorker rfl hu hu' (by rintro _ _ _ _ _ - ⟨⟩)
  | skip hi => exact baseAt_setWorker rfl hu hu' (by rintro _ _ _ _ _ - ⟨⟩)
  | take hi =>
    -- the worker was idle before
    refine baseAt_setWorker rfl hu hu' fun _ _ _ _ _ hi' => ?_
    cases hi.symm.trans hi'
  | handIn => exact baseAt_setWorker rfl hu hu' (by rintro _ _ _ _ _ - ⟨⟩)
  | inner hi _ _ ih =>
    refine baseAt_setWorker rfl hu hu' fun path' index t index' t' hi' hw ht ht' => ?_
    cases hi.symm.trans hi'
    cases hw
    exact ih ht ht'

theorem Answers.baseAt_eq {r : Except StepError Json} {path path' : List Nat} {t t' : Task}
    (h : Answers r path t t') (hu : (at? path' t).isSome = true)
    (hu' : (at? path' t').isSome = true) : baseAt base path' t' = baseAt base path' t := by
  induction h generalizing base path' with
  | here =>
    cases path' with
    | nil => rw [baseAt_nil, baseAt_nil]
    | cons i path' => cases hu
  | inner hi _ ih =>
    refine baseAt_setWorker rfl hu hu' fun path' index t index' t' hi' hw ht ht' => ?_
    cases hi.symm.trans hi'
    cases hw
    exact ih ht ht'

end Task

end WorkflowEngine
