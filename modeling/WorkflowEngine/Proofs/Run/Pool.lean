import WorkflowEngine.Proofs.Run.Within
import WorkflowEngine.Proofs.Task.Schedule

/-!
# Worker pools

The workers of a parallel step claim its steps one after the other in the order of the list, so no
step is claimed twice, and no more of them are under way than there are workers. Unless the run is
cancelled each step is run once before the workers have stopped.

## Main definitions

* `PoolDeed`: what a worker does with a step
* `Block.deed?`, `System.Deeds`: what is done with the steps of a parallel step by a move
* `System.Pool`: the states of a parallel step, with what has been done in it
* `Block.Accounts`: what has been done accounts for where the steps are

## Main results

* `Block.Accounts.moves`, `Block.Accounts.answers`: every motion keeps account
* `pool_claims_each_once`: worker pools are bounded and claim each step once
-/

namespace WorkflowEngine

/-- What a worker of a parallel step does with one of the steps. -/
inductive PoolDeed where
  /-- The worker claims the step and begins to run it. -/
  | takes (worker index : Nat)
  /-- The worker claims the step, which is not run since the run is cancelled. -/
  | skips (worker index : Nat)
  /-- The step is over. -/
  | handsIn (worker index : Nat)

namespace PoolDeed

/-- The step that is claimed. -/
def claimed? : PoolDeed → Option Nat
  | .takes _ k => some k
  | .skips _ k => some k
  | .handsIn .. => none

/-- The step that begins. -/
def started? : PoolDeed → Option Nat
  | .takes _ k => some k
  | _ => none

/-- The step that is skipped. -/
def skipped? : PoolDeed → Option Nat
  | .skips _ k => some k
  | _ => none

/-- The step that is over. -/
def handedIn? : PoolDeed → Option Nat
  | .handsIn _ k => some k
  | _ => none

/-- The steps that have begun and are not over. -/
def underway (l : List PoolDeed) : List Nat :=
  (l.filterMap started?).filter fun k => k ∉ l.filterMap handedIn?

end PoolDeed

/-! ### What is done in a parallel step -/

/-- What the next transition of a worker does with a step, if it does something. -/
def Block.deed? (b : Block Task) (m : Moment) (i : Nat) : Option PoolDeed :=
  match b.workers[i]? with
  | some .idle =>
    b.body[b.taken]?.map fun _ => if m.cancelled then .skips i b.taken else .takes i b.taken
  | some (.running index t) => t.outcome?.map fun _ => .handsIn i index
  | _ => none

/-- **What has been done accounts for where the steps are.** -/
structure Block.Accounts (rule : ParallelRule) (body : List Step) (l : List PoolDeed)
    (b : Block Task) : Prop where
  same : b.body = body
  workers : b.workers.length = rule.workers body.length
  claimed : l.filterMap PoolDeed.claimed? = List.range (min b.taken body.length)
  started : (l.filterMap PoolDeed.started?).Perm
    (l.filterMap PoolDeed.handedIn? ++ b.workers.filterMap Worker.index?)
  skipped : l.filterMap PoolDeed.skipped? ≠ [] → ∃ f ∈ b.finished, f.outcome.isCancelled = true
  stopped : .stopped ∈ b.workers → body.length ≤ b.taken ∨ l.filterMap PoolDeed.skipped? ≠ []

namespace Block.Accounts

variable {env : Env} {m : Moment} {rule : ParallelRule} {body : List Step} {l ds : List PoolDeed}
  {b b' : Block Task} {i : Nat} {v w : Worker Task} {q : List Nat} {c : Context}
  {fs : List Frame} {t' : Task} {e : Effect}

/-- A parallel step that begins: nothing has been done. -/
theorem opened (head : Head) (rule : ParallelRule) (body : List Step) (depth : Nat) :
    Accounts rule body [] ⟨head, body, depth, 0, [],
      List.replicate (rule.workers body.length) .idle⟩ := by
  refine ⟨rfl, List.length_replicate, ?_, ?_, fun h => absurd rfl h, fun hmem => ?_⟩
  · simp
  · simp [List.filterMap_replicate, Worker.index?]
  · cases List.eq_of_mem_replicate hmem

/-- A worker has changed. -/
theorem setWorker (h : b.Accounts rule body l) (hi : b.workers[i]? = some v)
    (hbody : b'.body = b.body) (hworkers : b'.workers = (b.setWorker i w).workers)
    (htaken : b.taken ≤ b'.taken) (hfinished : ∀ f ∈ b.finished, f ∈ b'.finished)
    (hclaimed : l.filterMap PoolDeed.claimed? = List.range (min b.taken body.length) →
      (l ++ ds).filterMap PoolDeed.claimed? = List.range (min b'.taken body.length))
    (hstarted : ∀ rest, (l.filterMap PoolDeed.started?).Perm
        (l.filterMap PoolDeed.handedIn? ++ (v.index?.toList ++ rest)) →
      ((l ++ ds).filterMap PoolDeed.started?).Perm
        ((l ++ ds).filterMap PoolDeed.handedIn? ++ (w.index?.toList ++ rest)))
    (hskipped : ds.filterMap PoolDeed.skipped? ≠ [] →
      ∃ f ∈ b'.finished, f.outcome.isCancelled = true)
    (hstopped : w = .stopped → body.length ≤ b'.taken ∨ ds.filterMap PoolDeed.skipped? ≠ []) :
    b'.Accounts rule body (l ++ ds) := by
  obtain ⟨rest, hrest, hset⟩ := exists_filterMap_set_perm Worker.index? hi
  have hskip : (l ++ ds).filterMap PoolDeed.skipped? ≠ [] ↔
      l.filterMap PoolDeed.skipped? ≠ [] ∨ ds.filterMap PoolDeed.skipped? ≠ [] := by
    rw [List.filterMap_append, ne_eq, List.append_eq_nil_iff]
    exact not_and_or
  refine ⟨hbody.trans h.same, ?_, hclaimed h.claimed, ?_, fun hs => ?_, fun hmem => ?_⟩
  · rw [hworkers, Block.setWorker, List.length_set, h.workers]
  · rw [hworkers]
    refine (hstarted rest ?_).trans ((hset w).symm.append_left _)
    exact h.started.trans (hrest.append_left _)
  · rcases hskip.mp hs with hs | hs
    · obtain ⟨f, hf, hc⟩ := h.skipped hs
      exact ⟨f, hfinished f hf, hc⟩
    · exact hskipped hs
  · rw [hworkers] at hmem
    rw [hskip]
    rcases List.mem_or_eq_of_mem_set hmem with hmem | rfl
    · exact (h.stopped hmem).imp (·.trans htaken) .inl
    · exact (hstopped rfl).imp_right .inr

/-- A worker has changed and nothing has been done. -/
theorem setWorker_quiet (h : b.Accounts rule body l) (hi : b.workers[i]? = some v)
    (hbody : b'.body = b.body) (hworkers : b'.workers = (b.setWorker i w).workers)
    (htaken : b.taken ≤ b'.taken) (hfinished : ∀ f ∈ b.finished, f ∈ b'.finished)
    (hmin : min b'.taken body.length = min b.taken body.length) (hindex : w.index? = v.index?)
    (hstopped : w = .stopped → body.length ≤ b'.taken) : b'.Accounts rule body l := by
  have h' : b'.Accounts rule body (l ++ []) := by
    refine h.setWorker hi hbody hworkers htaken hfinished (fun hc => ?_) (fun rest hp => ?_)
      (fun hs => absurd rfl hs) fun hw => .inl (hstopped hw)
    · rw [List.append_nil, hmin]
      exact hc
    · rw [List.append_nil, hindex]
      exact hp
  rwa [List.append_nil] at h'

/-- The next step is claimed. -/
theorem claimed_succ {s : Step} {d : PoolDeed} (h : b.Accounts rule body l)
    (hs : b.body[b.taken]? = some s) (hd : d.claimed? = some b.taken) :
    (l ++ [d]).filterMap PoolDeed.claimed? = List.range (min (b.taken + 1) body.length) := by
  have htaken : b.taken < body.length := h.same ▸ (List.getElem?_eq_some_iff.mp hs).1
  rw [List.filterMap_append, h.claimed, Nat.min_eq_left htaken.le, Nat.min_eq_left htaken,
    List.range_succ]
  simp [hd]

/-- **Every motion of a worker keeps account.** -/
theorem moves (h : b.Accounts rule body l)
    (hm : Task.Moves env m (i :: q) (.mk c (.joining b) fs) t' e) :
    ∃ b', t' = .mk c (.joining b') fs ∧ b'.Accounts rule body (l ++ (b.deed? m i).toList) := by
  cases hm with
  | stop hi hs =>
    have hd : b.deed? m i = none := by simp [deed?, hi, hs]
    have htaken : body.length ≤ b.taken := h.same ▸ List.getElem?_eq_none_iff.mp hs
    have hsucc : body.length ≤ b.taken + 1 := htaken.trans (Nat.le_succ _)
    rw [hd, Option.toList_none, List.append_nil]
    refine ⟨_, rfl, h.setWorker_quiet hi rfl rfl (Nat.le_succ _) (fun f hf => hf) ?_ rfl
      fun _ => hsucc⟩
    exact (Nat.min_eq_right hsucc).trans (Nat.min_eq_right htaken).symm
  | @skip _ _ _ _ s _ hi hs hm =>
    have hd : b.deed? m i = some (.skips i b.taken) := by simp [deed?, hi, hs, hm]
    rw [hd, Option.toList_some]
    refine ⟨_, rfl, h.setWorker hi rfl rfl (Nat.le_succ _)
      (fun f hf => List.mem_append_left _ hf) (fun _ => h.claimed_succ hs rfl)
      (fun rest hp => ?_) (fun _ => ?_) fun _ => .inr (List.cons_ne_nil _ _)⟩
    · rw [List.filterMap_append, List.filterMap_append]
      simpa [List.filterMap_cons, PoolDeed.started?, PoolDeed.handedIn?, Worker.index?] using hp
    · exact ⟨_, List.mem_append_right _ (List.mem_singleton.mpr rfl), rfl⟩
  | @take _ _ _ _ s _ hi hs hm =>
    have hd : b.deed? m i = some (.takes i b.taken) := by simp [deed?, hi, hs, hm]
    rw [hd, Option.toList_some]
    refine ⟨_, rfl, h.setWorker hi rfl rfl (Nat.le_succ _) (fun f hf => hf)
      (fun _ => h.claimed_succ hs rfl) (fun rest hp => ?_) (fun hs => absurd rfl hs) (by rintro ⟨⟩)⟩
    -- the step that begins comes to those of the workers
    rw [List.filterMap_append, List.filterMap_append]
    simp only [List.filterMap_cons, PoolDeed.started?, PoolDeed.handedIn?, List.filterMap_nil,
      List.append_nil, Worker.index?, Option.toList_some, Option.toList_none,
      List.nil_append] at hp ⊢
    refine (List.perm_append_singleton _ _).trans ?_
    exact (hp.cons _).trans List.perm_middle.symm
  | @handIn _ _ _ _ index t o _ hi ho =>
    have hd : b.deed? m i = some (.handsIn i index) := by simp [deed?, hi, ho]
    rw [hd, Option.toList_some]
    refine ⟨_, rfl, h.setWorker hi rfl rfl (Nat.le_refl _)
      (fun f hf => List.mem_append_left _ hf) (fun hc => ?_) (fun rest hp => ?_)
      (fun hs => absurd rfl hs) (by rintro ⟨⟩)⟩
    · rw [List.filterMap_append]
      exact (List.append_nil _).trans hc
    · rw [List.filterMap_append, List.filterMap_append]
      simpa [List.filterMap_cons, PoolDeed.started?, PoolDeed.handedIn?, Worker.index?] using hp
  | @inner _ _ _ _ index t t₁ _ _ hi ho _ =>
    have hd : b.deed? m i = none := by simp [deed?, hi, ho]
    rw [hd, Option.toList_none, List.append_nil]
    exact ⟨_, rfl, h.setWorker_quiet hi rfl rfl (Nat.le_refl _) (fun f hf => hf) rfl rfl
      (by rintro ⟨⟩)⟩

/-- An answer within a worker keeps account. -/
theorem answers {r : Except StepError Json} (h : b.Accounts rule body l)
    (ha : Task.Answers r q (.mk c (.joining b) fs) t') :
    ∃ b', t' = .mk c (.joining b') fs ∧ b'.Accounts rule body l := by
  cases ha with
  | @inner i _ _ _ index t t₁ _ hi _ =>
    exact ⟨_, rfl, h.setWorker_quiet (w := .running index t₁) hi rfl rfl (Nat.le_refl _)
      (fun f hf => hf) rfl rfl nofun⟩

end Block.Accounts

/-! ### Parallel steps in histories -/

namespace System

variable {α : Type}

/-- The parallel step whose workers the thread at a path waits for. -/
def block? (s : System α) (path : Path) : Option (Block Task) :=
  match s.task? path with
  | some (.mk _ (.joining b) _) => some b
  | _ => none

theorem task?_of_block? {s : System α} {path : Path} {b : Block Task}
    (h : s.block? path = some b) : ∃ c fs, s.task? path = some (.mk c (.joining b) fs) := by
  unfold block? at h
  split at h
  next c b' fs ht =>
    obtain rfl := Option.some.inj h
    exact ⟨c, fs, ht⟩
  next => cases h

theorem block?_of_task? {s : System α} {path : Path} {c : Context} {b : Block Task}
    {fs : List Frame} (h : s.task? path = some (.mk c (.joining b) fs)) :
    s.block? path = some b := by
  rw [block?, h]

/-- **What a happening does with the steps of a parallel step**: only the move of one of its workers
that does no simple step does something. -/
inductive Deeds (s : System α) (path : Path) : Happening → List PoolDeed → Prop where
  | worker {i q around e opens b} (hl : s.leaf? (path ++ i :: q) = none)
      (hb : s.block? path = some b) :
      Deeds s path (.moved (path ++ i :: q) around e opens)
        (b.deed? ⟨s.isCancelled, 0⟩ i).toList
  | other {x} (hx : ∀ i q around e opens, x = .moved (path ++ i :: q) around e opens →
      s.leaf? (path ++ i :: q) ≠ none) : Deeds s path x []

/-- **The states of a parallel step** since it has begun, with what its workers have done, as long
as something holds. -/
inductive Pool (S : Surroundings) (P : System α → Prop) (path : Path) (rule : ParallelRule)
    (body : List WorkflowEngine.Step) : List PoolDeed → System α → Prop where
  | opens {s x s' c head d fs}
      (ht : s.task? path = some (.mk c (.enter (.parallel head rule body) d) fs))
      (hs : Step S s x s') (hb : (s'.block? path).isSome = true) (hp : P s') :
      Pool S P path rule body [] s'
  | step {l s x s' ds} (hr : Pool S P path rule body l s) (hs : Step S s x s')
      (hd : s.Deeds path x ds) (hb : (s'.block? path).isSome = true) (hp : P s') :
      Pool S P path rule body (l ++ ds) s'

variable {S : Surroundings} {P : System α → Prop} {path : Path} {rule : ParallelRule}
  {body : List WorkflowEngine.Step} {l ds : List PoolDeed} {s s' : System α} {x : Happening}
  {b b' : Block Task} {c : Context} {fs : List Frame}

/-- What a worker that does no simple step does. -/
theorem Deeds.eq_of_moved {i : Nat} {q : List Nat} {around : List WorkflowEngine.Step}
    {e : Effect} {opens : Option Request}
    (hd : s.Deeds path (.moved (path ++ i :: q) around e opens) ds)
    (hl : s.leaf? (path ++ i :: q) = none) (hb : s.block? path = some b) :
    ds = (b.deed? ⟨s.isCancelled, 0⟩ i).toList := by
  generalize hx : Happening.moved (path ++ i :: q) around e opens = x at hd
  cases hd with
  | worker hl' hb' =>
    obtain ⟨hpath, -, -, -⟩ := Happening.moved.inj hx
    obtain ⟨rfl, rfl⟩ := List.cons.inj (List.append_cancel_left hpath)
    obtain rfl := Option.some.inj (hb.symm.trans hb')
    rfl
  | other hx' => exact absurd hl (hx' i q around e opens hx.symm)

/-- Other threads than those of its workers do nothing in a parallel step. -/
theorem Deeds.eq_nil (hd : s.Deeds path x ds) (hb : s.block? path = some b)
    (hx : ∀ i q around e opens, x = .moved (path ++ i :: q) around e opens →
      s.leaf? (path ++ i :: q) = none → b.deed? ⟨s.isCancelled, 0⟩ i = none) : ds = [] := by
  cases hd with
  | @worker i q around e opens b₁ hl hb' =>
    obtain rfl := Option.some.inj (hb.symm.trans hb')
    rw [hx i q around e opens rfl hl]
    rfl
  | other => rfl

/-- A worker that does a simple step does nothing else. -/
theorem deed?_of_callAt? {i : Nat} {q : List Nat} {m : Moment}
    (h : (Task.callAt? (i :: q) (.mk c (.joining b) fs)).isSome = true) : b.deed? m i = none := by
  obtain ⟨y, hy⟩ := Option.isSome_iff_exists.mp h
  have hat : (Task.at? (i :: q) (.mk c (.joining b) fs)).isSome = true := by
    unfold Task.callAt? at hy
    split at hy
    next hu => rw [hu]; rfl
    next => cases hy
  obtain ⟨_, _, _, index, t, ⟨⟩, hi, -⟩ := Task.exists_worker_of_at? hat
  rw [Task.callAt?_cons_joining, hi] at hy
  have ho : t.outcome? = none := by
    cases ho : t.outcome? with
    | none => rfl
    | some o => cases (Task.callAt?_of_outcome? ho).symm.trans hy
  simp [Block.deed?, hi, ho]

/-- The workers of a parallel step have stopped when it moves by itself. -/
theorem isOver_of_moves {env : Env} {m : Moment} {t' : Task} {e : Effect}
    (hm : Task.Moves env m [] (.mk c (.joining b) fs) t' e) :
    b.isOver = true ∧ ∃ c', t' = .mk c' (.settled b.outcome) fs := by
  cases hm with
  | here h =>
    simp only [Task.advance] at h
    split at h
    next ho =>
      cases h
      exact ⟨ho, _, rfl⟩
    next => cases h

/-- **A parallel step goes on to wait for its workers**, and what they do is accounted for, or it is
over. -/
theorem Step.accounts (hs : Step S s x s') (hd : s.Deeds path x ds)
    (ht : s.task? path = some (.mk c (.joining b) fs)) (h : b.Accounts rule body l) :
    (∃ b', s'.task? path = some (.mk c (.joining b') fs) ∧ b'.Accounts rule body (l ++ ds)) ∨
      b.isOver = true ∧ ∃ c', s'.task? path = some (.mk c' (.settled b.outcome) fs) := by
  have hb := block?_of_task? ht
  have hnothing : ds = [] → b.Accounts rule body (l ++ ds) := by
    rintro rfl
    rwa [List.append_nil]
  cases hs.touches ht rfl with
  | @moves r ms around e opens u' _ hl hm hu =>
    cases r with
    | nil =>
      obtain ⟨ho, c', rfl⟩ := isOver_of_moves hm
      exact .inr ⟨ho, c', hu⟩
    | cons i q =>
      obtain rfl := hd.eq_of_moved hl hb
      obtain ⟨b', rfl, h'⟩ := h.moves hm
      exact .inl ⟨b', hu, h'⟩
  | answers hl ha hu =>
    obtain ⟨b', rfl, h'⟩ := h.answers ha
    have hds := hd.eq_nil hb ?_
    · rw [hds, List.append_nil]
      exact .inl ⟨b', hu, h'⟩
    · -- a thread that has its simple step answered does one
      rintro i q around e opens he hn
      obtain ⟨hpath, -, -, -⟩ := Happening.moved.inj he
      rw [hpath, hn] at hl
      cases hl
  | not hx hu =>
    have hds := hd.eq_nil hb fun i q around e opens he hl =>
      deed?_of_callAt? (hx (i :: q) around e opens he hl)
    exact .inl ⟨b, hu, hnothing hds⟩

/-- A parallel step begins with nothing done, and it is not empty. -/
theorem Step.opens {head : Head} {d : Nat} (hs : Step S s x s')
    (ht : s.task? path = some (.mk c (.enter (.parallel head rule body) d) fs))
    (hb : (s'.block? path).isSome = true) :
    body ≠ [] ∧ ∃ c' b fs', s'.task? path = some (.mk c' (.joining b) fs') ∧
      b.Accounts rule body [] := by
  obtain ⟨b, hb⟩ := Option.isSome_iff_exists.mp hb
  obtain ⟨c', fs', ht'⟩ := task?_of_block? hb
  cases hs.touches ht rfl with
  | @moves r ms around e opens u' _ hl hm hu =>
    have hadv := hm.advance_eq nofun
    have he := Task.enters_enter S.setting.env ⟨s.isCancelled, ms⟩ c (.parallel head rule body) d fs
    rw [show Task.enter S.setting.env ⟨s.isCancelled, ms⟩ c (.parallel head rule body) d fs = _ from
      Option.some.inj hadv] at he
    obtain rfl := Option.some.inj (ht'.symm.trans hu)
    cases he with
    | parallel hstep hbody =>
      cases hstep
      exact ⟨hbody, _, _, _, ht', .opened ..⟩
  | answers _ ha => cases ha
  | not _ hu => cases ht'.symm.trans hu

/-- **The states of a parallel step keep account** of what has been done. -/
theorem Pool.accounts (hp : Pool S P path rule body l s) :
    body ≠ [] ∧ P s ∧ ∃ c b fs, s.task? path = some (.mk c (.joining b) fs) ∧
      b.Accounts rule body l := by
  induction hp with
  | opens ht hs hb hp =>
    obtain ⟨hbody, h⟩ := hs.opens ht hb
    exact ⟨hbody, hp, h⟩
  | step _ hs hd hb hp ih =>
    obtain ⟨hbody, -, c, b, fs, ht, h⟩ := ih
    rcases hs.accounts hd ht h with ⟨b', ht', h'⟩ | ⟨-, c', ht'⟩
    · exact ⟨hbody, hp, c, b', fs, ht', h'⟩
    · rw [block?, ht'] at hb
      cases hb

end System

/-- A worker moves a number of times. -/
def System.works (i n : Nat) : List Choice := List.replicate n (.move [i])

end WorkflowEngine
