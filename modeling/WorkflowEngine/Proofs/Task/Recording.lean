import WorkflowEngine.Proofs.Task.Trace

/-!
# What tasks record

However a task is moved, its results are those that it had at the beginning, followed by those of
the steps that are over, each behind what was run for it. What is told is kept along with the task:
for the frames that wait, the steps that have been run before the one that is waited for, and for a
parallel step, what was told of each of its steps.

## Main definitions

* `Trace.AreRun`, `Trace.Ready`: what has been run for a step that goes on, and for one whose
  outcome is about to be told
* `Task.Awaits`, `Task.Traced`: what was recorded and told until now, for frames and for tasks
* `Block.IsTraced`: the same for what was handed in to a parallel step

## Main results

* `Block.IsTraced.exists_ready`: what has been run for a parallel step when its workers have stopped
* `Task.Traced.moves`, `Task.Traced.answers`: motions keep this up
-/

namespace WorkflowEngine

open Trace

/-! ### Results of contexts -/

namespace Context

theorem results_foldl_record (rs : List StepResult) (c : Context) :
    (rs.foldl record c).results = c.results ++ rs := by
  induction rs generalizing c with
  | nil => simp
  | cons r rs ih => rw [List.foldl_cons, ih, record, List.append_assoc]; rfl

theorem results_foldl_flatMap {α : Type} (f : α → List StepResult) (l : List α) (c : Context) :
    (l.foldl (fun c x => (f x).foldl record c) c).results = c.results ++ l.flatMap f := by
  induction l generalizing c with
  | nil => simp
  | cons x l ih => rw [List.foldl_cons, ih, results_foldl_record, List.flatMap_cons,
      List.append_assoc]

/-- A parallel step records the results of its steps in the order of the list. -/
theorem results_recordAll {τ : Type} (b : Block τ) (c : Context) :
    (b.recordAll c).results = c.results ++ b.inOrder.flatMap Finished.results :=
  results_foldl_flatMap Finished.results b.inOrder c

@[simp] theorem results_enterLoop (c : Context) (id : String) (n : Nat) :
    (c.enterLoop id n).results = c.results := by
  unfold enterLoop
  split
  · split <;> rfl
  · rfl

@[simp] theorem results_exitLoop (c : Context) (id : String) :
    (c.exitLoop id).results = c.results := by
  unfold exitLoop
  split <;> rfl

end Context

/-! ### Steps that have been run for a step -/

namespace Trace

/-- **Steps that have been run one after the other** at a depth, and what was told meanwhile. -/
structure AreRun (d : Nat) (parts : List Trace) (told : List Ending) : Prop where
  fits : ∀ p ∈ parts, p.Fits
  depth : ∀ p ∈ parts, p.ending.depth = d
  told : ∃ tolds, List.Forall₂ Told parts tolds ∧ told = tolds.flatten

theorem AreRun.nil (d : Nat) : AreRun d [] [] := ⟨nofun, nofun, [], .nil, rfl⟩

/-- One more step has been run. -/
theorem AreRun.concat {d : Nat} {parts : List Trace} {told told' : List Ending} {p : Trace}
    (h : AreRun d parts told) (hf : p.Fits) (hd : p.ending.depth = d) (ht : p.Told told') :
    AreRun d (parts ++ [p]) (told ++ told') := by
  obtain ⟨tolds, htolds, rfl⟩ := h.told
  refine ⟨List.forall_mem_append.mpr ⟨h.fits, List.forall_mem_singleton.mpr hf⟩,
    List.forall_mem_append.mpr ⟨h.depth, List.forall_mem_singleton.mpr hd⟩,
    tolds ++ [told'], List.rel_append htolds (.cons ht .nil), ?_⟩
  simp

/-- **What has been run for a step whose outcome is about to be told**, whatever time it took. -/
def Ready (s : Step) (d : Nat) (o : Outcome) (parts : List Trace) (told : List Ending) : Prop :=
  ∀ ms, (node ⟨s, d, o, ms⟩ parts).Fits ∧
    (node ⟨s, d, o, ms⟩ parts).Told (told ++ [⟨s, d, o, ms⟩])

theorem AreRun.ready {s : Step} {d : Nat} {o : Outcome} {parts : List Trace} {told : List Ending}
    (h : AreRun (d + 1) parts told) (hs : s.isParallel = false) (hr : s.MayRun o (steps parts)) :
    Ready s d o parts told := by
  intro ms
  obtain ⟨tolds, htolds, rfl⟩ := h.told
  exact ⟨.intro hr h.depth h.fits, .inTurn hs htolds⟩

/-- Nothing has been run for the step. -/
theorem ready_nil {s : Step} {d : Nat} {o : Outcome} (h : s.MayRun o []) : Ready s d o [] [] := by
  intro ms
  refine ⟨.intro h nofun nofun, ?_⟩
  have htolds : List.Forall₂ Told [] [] := .nil
  cases hs : s.isParallel with
  | false => exact .inTurn hs htolds
  | true => exact .sideBySide hs htolds (.nil nofun)

end Trace

/-- Nothing has to be run for a step of a run that is cancelled. -/
theorem Step.mayRun_nil_of_cancelled (s : Step) : s.MayRun (.error .cancelled) [] := by
  cases s with
  | simple => rfl
  | conditional => exact .inl rfl
  | loop _ _ body => exact ⟨0, [], List.nil_prefix, rfl⟩
  | parallel _ _ body => exact ⟨List.nil_sublist body, nofun⟩

/-- **What has been run of a branch that goes on.** -/
structure BranchFrame.HasRun (f : BranchFrame) (s : Step) (d : Nat) (parts : List Trace)
    (told : List Ending) : Prop where
  of : f.Of s d
  list : steps parts ++ f.rest ∈ s.children
  parts : AreRun (d + 1) parts told

/-- **What has been run of a loop that goes on**: its body a number of times, and what is before the
rest of the body. -/
structure LoopFrame.HasRun (f : LoopFrame) (s : Step) (d : Nat) (parts : List Trace)
    (told : List Ending) : Prop where
  of : f.Of s d
  list : ∃ n last, f.body = last ++ f.rest ∧
    steps parts = (List.replicate n f.body).flatten ++ last
  parts : AreRun (d + 1) parts told

/-- What has been run of a loop between two iterations. -/
structure LoopFrame.HasIterated (f : LoopFrame) (s : Step) (d : Nat) (parts : List Trace)
    (told : List Ending) : Prop where
  of : f.Of s d
  list : ∃ n, steps parts = (List.replicate n f.body).flatten
  parts : AreRun (d + 1) parts told

theorem BranchFrame.HasRun.ready {f : BranchFrame} {s : Step} {d : Nat} {parts : List Trace}
    {told : List Ending} (h : f.HasRun s d parts told) (o : Outcome) :
    Ready s d o parts told := by
  obtain ⟨_, _, _, _, _, rfl⟩ := h.of.step
  exact h.parts.ready rfl (.inr ⟨_, h.list, List.prefix_append ..⟩)

theorem LoopFrame.HasRun.ready {f : LoopFrame} {s : Step} {d : Nat} {parts : List Trace}
    {told : List Ending} (h : f.HasRun s d parts told) (o : Outcome) :
    Ready s d o parts told := by
  obtain ⟨n, last, hbody, hsteps⟩ := h.list
  rw [h.of.step]
  exact h.parts.ready rfl ⟨n, last, hbody ▸ List.prefix_append .., hsteps⟩

theorem LoopFrame.HasIterated.ready {f : LoopFrame} {s : Step} {d : Nat} {parts : List Trace}
    {told : List Ending} (h : f.HasIterated s d parts told) (o : Outcome) :
    Ready s d o parts told := by
  obtain ⟨n, hsteps⟩ := h.list
  rw [h.of.step]
  exact h.parts.ready rfl ⟨n, [], List.nil_prefix, by rw [hsteps, List.append_nil]⟩

/-- A branch whose next step has been run goes on behind it. -/
theorem BranchFrame.HasRun.concat {f : BranchFrame} {s p : Step} {d : Nat} {parts : List Trace}
    {told told' : List Ending} {tr : Trace}
    (h : BranchFrame.HasRun { f with rest := s :: f.rest } p d parts told) (ht : tr.Fits)
    (hs : tr.ending.step = s) (hd : tr.ending.depth = f.depth) (htold : tr.Told told') :
    f.HasRun p d (parts ++ [tr]) (told ++ told') := by
  refine ⟨⟨h.of.step, h.of.depth, fun x hx => h.of.rest x (List.mem_cons_of_mem s hx)⟩, ?_,
    h.parts.concat ht (hd.trans h.of.depth) htold⟩
  have hlist := h.list
  simpa [steps, hs] using hlist

/-- A loop whose next step has been run goes on behind it. -/
theorem LoopFrame.HasRun.concat {f : LoopFrame} {s p : Step} {d : Nat} {parts : List Trace}
    {told told' : List Ending} {tr : Trace}
    (h : LoopFrame.HasRun { f with rest := s :: f.rest } p d parts told) (ht : tr.Fits)
    (hs : tr.ending.step = s) (hd : tr.ending.depth = f.depth) (htold : tr.Told told') :
    f.HasRun p d (parts ++ [tr]) (told ++ told') := by
  obtain ⟨n, last, hbody, hsteps⟩ := h.list
  refine ⟨⟨h.of.step, h.of.depth, fun x hx => h.of.rest x (List.mem_cons_of_mem s hx)⟩,
    ⟨n, last ++ [s], ?_, ?_⟩, h.parts.concat ht (hd.trans h.of.depth) htold⟩
  · simpa using hbody
  · rw [← List.append_assoc, ← hsteps]
    simp [steps, hs]

/-- A loop at the end of its body has run it once more. -/
theorem LoopFrame.HasRun.hasIterated {f : LoopFrame} {s : Step} {d : Nat} {parts : List Trace}
    {told : List Ending} (h : f.HasRun s d parts told) (hr : f.rest = []) :
    f.HasIterated s d parts told := by
  obtain ⟨n, last, hbody, hsteps⟩ := h.list
  refine ⟨h.of, ⟨n + 1, ?_⟩, h.parts⟩
  rw [hr, List.append_nil] at hbody
  rw [hsteps, ← hbody, List.replicate_succ', List.flatten_append, List.flatten_singleton]

/-- A loop that begins an iteration has its whole body before it. -/
theorem LoopFrame.HasIterated.hasRun {f : LoopFrame} {s : Step} {d : Nat} {parts : List Trace}
    {told : List Ending} (h : f.HasIterated s d parts told) (n : Nat) :
    LoopFrame.HasRun { f with iteration := n, rest := f.body, failed := false } s d parts told := by
  obtain ⟨k, hsteps⟩ := h.list
  exact ⟨⟨h.of.step, h.of.depth, h.of.holds_body⟩,
    ⟨k, [], rfl, by rw [hsteps, List.append_nil]⟩, h.parts⟩

/-! ### What was handed in -/

/-- **A step that was handed in**: it has not been run since the run is cancelled, or its results
are those of what was run for it. -/
inductive Finished.Fits (body : List Step) (depth : Nat) (told : List (Nat × Ending))
    (f : Finished) : Prop where
  | skipped (ho : f.outcome = .error .cancelled) (hr : f.results = [])
      (ht : toldBy told f.index = [])
  | ran {s : Step} {p : Trace} (hs : body[f.index]? = some s) (hp : p.Fits)
      (hstep : p.ending.step = s) (hd : p.ending.depth = depth) (ho : p.ending.outcome = f.outcome)
      (hr : f.results = Ending.results p.postorder) (ht : p.Told (toldBy told f.index))

/-- **What was told of the steps of a block, and what was handed in.** Workers stop only when there
is no step left to take, or when the run is cancelled. -/
structure Block.IsTraced (b : Block Task) (told : List (Nat × Ending)) : Prop where
  tracked : b.IsTracked
  stopped : .stopped ∈ b.workers →
    b.body.length ≤ b.taken ∨ ∃ f ∈ b.finished, f.outcome.isCancelled = true
  workers : b.workers ≠ []
  taken : ∀ x ∈ told, x.1 < min b.taken b.body.length
  handed : ∀ f ∈ b.finished, f.Fits b.body b.depth told

namespace Block

variable {b : Block Task} {told : List (Nat × Ending)}

/-- The steps at the places from the front of a list. -/
theorem filterMap_range_getElem? {α : Type} (l : List α) (n : Nat) :
    (List.range n).filterMap (l[·]?) = l.take n := by
  induction n with
  | zero => simp
  | succ n ih =>
    rw [List.range_succ, List.filterMap_append, ih, List.take_add_one]
    cases h : l[n]? <;> simp [h]

/-- What has been run for steps that were handed in, in their order. -/
theorem exists_parts {fs : List Finished} (h : ∀ f ∈ fs, f.Fits b.body b.depth told) :
    ∃ (parts : List Trace) (indices : List Nat),
      (∀ p ∈ parts, p.Fits ∧ p.ending.depth = b.depth) ∧
      List.Forall₂ Told parts (indices.map (toldBy told)) ∧
      steps parts = indices.filterMap (b.body[·]?) ∧
      Ending.results (postorders parts) = fs.flatMap Finished.results ∧
      indices.Sublist (fs.map Finished.index) ∧
      (∀ f ∈ fs, f.index ∉ indices → toldBy told f.index = []) ∧
      ((∀ f ∈ fs, f.outcome.isCancelled = false) → indices = fs.map Finished.index) := by
  -- Induction on the steps: one that has not been run is left out.
  induction fs with
  | nil => exact ⟨[], [], nofun, .nil, rfl, rfl, .slnil, nofun, fun _ => rfl⟩
  | cons f fs ih =>
    obtain ⟨hf, hfs⟩ := List.forall_mem_cons.mp h
    obtain ⟨parts, indices, hparts, htold, hsteps, hresults, hsub, hrest, hall⟩ := ih hfs
    cases hf with
    | skipped ho hr ht =>
      refine ⟨parts, indices, hparts, htold, hsteps, ?_, hsub.cons _, ?_, fun hc => ?_⟩
      · rw [List.flatMap_cons, hr, hresults, List.nil_append]
      · exact List.forall_mem_cons.mpr ⟨fun _ => ht, hrest⟩
      · have hcancelled := (List.forall_mem_cons.mp hc).1
        rw [ho] at hcancelled
        cases hcancelled
    | @ran s p hs hp hstep hd ho hr ht =>
      refine ⟨p :: parts, f.index :: indices, List.forall_mem_cons.mpr ⟨⟨hp, hd⟩, hparts⟩,
        .cons ht htold, ?_, ?_, hsub.cons_cons _, ?_, fun hc => ?_⟩
      · rw [List.filterMap_cons_some hs, ← hsteps, ← hstep]
        rfl
      · rw [postorders, Ending.results_append, hresults, List.flatMap_cons, hr]
      · refine List.forall_mem_cons.mpr ⟨fun hn => absurd (List.mem_cons_self ..) hn, ?_⟩
        exact fun g hg hn => hrest g hg fun hmem => hn (List.mem_cons_of_mem _ hmem)
      · rw [hall (List.forall_mem_cons.mp hc).2]
        rfl

/-- A parallel step that is not cancelled has run all of its steps. -/
theorem IsTraced.length_le_taken (h : b.IsTraced told) (ho : b.isOver = true)
    (hc : ∀ f ∈ b.finished, f.outcome.isCancelled = false) : b.body.length ≤ b.taken := by
  obtain ⟨w, hw⟩ := List.exists_mem_of_ne_nil _ h.workers
  refine (h.stopped (isOver_iff.mp ho w hw ▸ hw)).resolve_right ?_
  rintro ⟨f, hf, hcancelled⟩
  rw [hc f hf] at hcancelled
  cases hcancelled

/-- No step was cancelled of a parallel step that is not. -/
theorem not_isCancelled_of_outcome (h : b.outcome.isCancelled = false) :
    ∀ f ∈ b.finished, f.outcome.isCancelled = false := by
  unfold outcome at h
  split at h
  · cases h
  next hany => exact fun f hf => by simpa using fun hc => hany (List.any_eq_true.mpr ⟨f, hf, hc⟩)

/-- **What has been run for a parallel step when its workers have stopped.** -/
theorem IsTraced.exists_ready (h : b.IsTraced told) (ho : b.isOver = true) {d : Nat}
    (hd : b.depth = d + 1) (rule : ParallelRule) :
    ∃ parts, Ready (.parallel b.head rule b.body) d b.outcome parts (told.map Prod.snd) ∧
      Ending.results (postorders parts) = b.inOrder.flatMap Finished.results := by
  have hindex := h.tracked.map_index_inOrder ho
  have hmem {f : Finished} : f ∈ b.inOrder ↔ f ∈ b.finished := Task.Block.mem_inOrder
  obtain ⟨parts, indices, hparts, htold, hsteps, hresults, hsub, hrest, hall⟩ :=
    exists_parts fun f hf => h.handed f (hmem.mp hf)
  rw [hindex] at hsub hall
  refine ⟨parts, fun ms => ⟨.intro ⟨?_, fun hc => ?_⟩ ?_ ?_, .sideBySide rfl htold ?_⟩, hresults⟩
  · -- the steps that were run stand in the order of the list
    rw [hsteps]
    refine (hsub.filterMap _).trans ?_
    rw [filterMap_range_getElem?]
    exact List.take_sublist ..
  · have hnone := not_isCancelled_of_outcome hc
    rw [hsteps, hall fun f hf => hnone f (hmem.mp hf),
      Nat.min_eq_right (h.length_le_taken ho hnone), filterMap_range_getElem?, List.take_length]
  · exact fun p hp => (hparts p hp).2.trans hd
  · exact fun p hp => (hparts p hp).1
  · -- nothing was told of a step that was not run
    refine interleaves_toldBy (hsub.nodup List.nodup_range) fun x hx => ?_
    by_contra hn
    have hrange := List.mem_range.mpr (h.taken x hx)
    rw [← hindex] at hrange
    obtain ⟨f, hf, hfx⟩ := List.mem_map.mp hrange
    have hnil := hrest f hf (hfx ▸ hn)
    rw [hfx, toldBy, List.map_eq_nil_iff, List.filter_eq_nil_iff] at hnil
    exact hnil x hx (by simp)

/-! ### Workers -/

/-- What was told of the steps of a block stays so when a worker changes. -/
theorem IsTraced.setWorker {b' : Block Task} {told' : List (Nat × Ending)} {i : Nat}
    {w : Worker Task} (h : b.IsTraced told) (hb' : b'.IsTracked) (hbody : b'.body = b.body)
    (htaken : b.taken ≤ b'.taken) (hworkers : b'.workers = (b.setWorker i w).workers)
    (hfinished : ∀ f ∈ b.finished, f ∈ b'.finished)
    (hstopped : w = .stopped →
      b'.body.length ≤ b'.taken ∨ ∃ f ∈ b'.finished, f.outcome.isCancelled = true)
    (htold : ∀ x ∈ told', x ∈ told ∨ x.1 < min b'.taken b'.body.length)
    (hhanded : ∀ f ∈ b'.finished, f.Fits b'.body b'.depth told') : b'.IsTraced told' := by
  refine ⟨hb', fun hmem => ?_, ?_, fun x hx => ?_, hhanded⟩
  · rw [hworkers] at hmem
    rcases List.mem_or_eq_of_mem_set hmem with hmem | hw
    · refine (h.stopped hmem).imp (fun hle => ?_) fun ⟨f, hf, hc⟩ => ⟨f, hfinished f hf, hc⟩
      exact hbody ▸ hle.trans htaken
    · exact hstopped hw.symm
  · rw [hworkers]
    simpa [Block.setWorker] using h.workers
  · rcases htold x hx with hx | hlt
    · have hlt := h.taken x hx
      rw [hbody]
      omega
    · exact hlt

/-- A worker finds no step left to take. -/
theorem IsTraced.stop {i : Nat} (h : b.IsTraced told) (hi : b.workers[i]? = some .idle)
    (hs : b.body[b.taken]? = none) :
    ({ b with taken := b.taken + 1 }.setWorker i .stopped).IsTraced told := by
  have hle : b.body.length ≤ b.taken := List.getElem?_eq_none_iff.mp hs
  exact h.setWorker (h.tracked.stop hi hs) rfl (Nat.le_succ _) rfl (fun _ hf => hf)
    (fun _ => .inl (hle.trans (Nat.le_succ _))) (fun _ => .inl) h.handed

/-- Nothing was told of a step that has not been taken. -/
theorem IsTraced.toldBy_taken (h : b.IsTraced told) : toldBy told b.taken = [] := by
  refine toldBy_eq_nil fun x hx he => ?_
  have hlt := h.taken x hx
  omega

/-- A step that is taken when the run is cancelled is not run. -/
theorem IsTraced.skip {i : Nat} {s : Step} (h : b.IsTraced told)
    (hi : b.workers[i]? = some .idle) (hs : b.body[b.taken]? = some s) :
    ({ b with
        taken := b.taken + 1
        finished := b.finished ++ [(⟨b.taken, .error .cancelled, []⟩ : Finished)] }.setWorker i
      .stopped).IsTraced told := by
  refine h.setWorker (h.tracked.skip hi hs _ _) rfl (Nat.le_succ _) rfl
    (fun _ hf => List.mem_append_left _ hf) (fun _ => .inr ?_) (fun _ => .inl)
    (List.forall_mem_append.mpr ⟨h.handed, List.forall_mem_singleton.mpr ?_⟩)
  · exact ⟨_, List.mem_append_right _ (List.mem_singleton_self _), rfl⟩
  · exact .skipped rfl rfl h.toldBy_taken

/-- A worker takes a step. -/
theorem IsTraced.take {i : Nat} {s : Step} (h : b.IsTraced told) (hi : b.workers[i]? = some .idle)
    (hs : b.body[b.taken]? = some s) (t : Task) :
    ({ b with taken := b.taken + 1 }.setWorker i (.running b.taken t)).IsTraced told :=
  h.setWorker (h.tracked.take hi hs t) rfl (Nat.le_succ _) rfl (fun _ hf => hf) nofun
    (fun _ => .inl) h.handed

/-- A worker hands in the step that it has run. -/
theorem IsTraced.handIn {i index : Nat} {t : Task} {o : Outcome} {results : List StepResult}
    (h : b.IsTraced told) (hi : b.workers[i]? = some (.running index t))
    (hf : Finished.Fits b.body b.depth told ⟨index, o, results⟩) :
    ({ b with finished := b.finished ++ [(⟨index, o, results⟩ : Finished)] }.setWorker i
      .idle).IsTraced told :=
  h.setWorker (h.tracked.handIn hi o results) rfl le_rfl rfl
    (fun _ hf => List.mem_append_left _ hf) nofun (fun _ => .inl)
    (List.forall_mem_append.mpr ⟨h.handed, List.forall_mem_singleton.mpr hf⟩)

/-- What else is told of the step that a worker runs is not told of any other step. -/
theorem toldBy_append_of_ne {index other : Nat} (h : other ≠ index) (es : List Ending) :
    toldBy (told ++ es.map (index, ·)) other = toldBy told other := by
  have hnil : toldBy (es.map (index, ·)) other = [] := by
    refine toldBy_eq_nil fun x hx he => ?_
    obtain ⟨e, -, rfl⟩ := List.mem_map.mp hx
    exact h he.symm
  rw [toldBy_append, hnil, List.append_nil]

theorem toldBy_append_self (index : Nat) (es : List Ending) :
    toldBy (told ++ es.map (index, ·)) index = toldBy told index ++ es := by
  rw [toldBy_append]
  simp [toldBy, List.filter_map, Function.comp_def]

/-- More is told of the step that a worker runs. -/
theorem IsTraced.inner {i index : Nat} {t : Task} (h : b.IsTraced told)
    (hi : b.workers[i]? = some (.running index t)) (t' : Task) (es : List Ending) :
    (b.setWorker i (.running index t')).IsTraced (told ++ es.map (index, ·)) := by
  refine h.setWorker (h.tracked.inner hi t') rfl le_rfl rfl (fun _ hf => hf) nofun ?_ fun f hf => ?_
  · intro x hx
    refine (List.mem_append.mp hx).imp_right fun hx => ?_
    obtain ⟨e, -, rfl⟩ := List.mem_map.mp hx
    exact h.tracked.lt_of_running hi
  · have htold : toldBy (told ++ es.map (index, ·)) f.index = toldBy told f.index :=
      toldBy_append_of_ne (h.tracked.ne_of_finished hi hf) es
    cases h.handed f hf with
    | skipped ho hr ht => exact .skipped ho hr (htold.trans ht)
    | ran hs hp hstep hd ho hr ht => exact .ran hs hp hstep hd ho hr (htold ▸ ht)

end Block

namespace Task


/-! ### Frames and tasks -/

/-- **What was recorded and told when a step begins** for which frames wait: that of the steps that
have been run for each of the steps around. -/
inductive Awaits (root : Step) (d₀ : Nat) :
    Step → Nat → List Frame → List Ending → List Ending → Prop where
  | root : Awaits root d₀ root d₀ [] [] []
  | branch {p s f d fs recorded told parts told'} (h : Awaits root d₀ p d fs recorded told)
      (hf : BranchFrame.HasRun { f with rest := s :: f.rest } p d parts told') :
      Awaits root d₀ s f.depth (.branch f :: .finish p d :: fs) (recorded ++ postorders parts)
        (told ++ told')
  | loop {p s f d fs recorded told parts told'} (h : Awaits root d₀ p d fs recorded told)
      (hf : LoopFrame.HasRun { f with rest := s :: f.rest } p d parts told') :
      Awaits root d₀ s f.depth (.loop f :: .finish p d :: fs) (recorded ++ postorders parts)
        (told ++ told')

/-- **What a task has recorded and what was told of it**: its results are those at the beginning,
`base`, and those of the steps that are over. -/
inductive Traced : Step → Nat → List StepResult → Task → List Ending → Prop where
  | enter {root d₀ base c s d fs recorded told} (h : Awaits root d₀ s d fs recorded told)
      (hc : c.results = base ++ Ending.results recorded) :
      Traced root d₀ base (.mk c (.enter s d) fs) told
  | calling {root d₀ base c head leaf d fs recorded told}
      (h : Awaits root d₀ (.simple head leaf) d fs recorded told)
      (hc : c.results = base ++ Ending.results recorded) :
      Traced root d₀ base (.mk c (.calling head leaf d) (.finish (.simple head leaf) d :: fs)) told
  | joining {root d₀ base c rule d fs recorded told} {b : Block Task} {told' : List (Nat × Ending)}
      (h : Awaits root d₀ (.parallel b.head rule b.body) d fs recorded told)
      (hc : c.results = base ++ Ending.results recorded) (hd : b.depth = d + 1)
      (hb : b.IsTraced told')
      (hw : ∀ (i index : Nat) (t : Task) (s : Step), b.workers[i]? = some (.running index t) →
        b.body[index]? = some s → Traced s b.depth c.results t (toldBy told' index)) :
      Traced root d₀ base (.mk c (.joining b) (.finish (.parallel b.head rule b.body) d :: fs))
        (told ++ told'.map Prod.snd)
  | branch {root d₀ base p c f d fs recorded told parts told'}
      (h : Awaits root d₀ p d fs recorded told) (hf : BranchFrame.HasRun f p d parts told')
      (hc : c.results = base ++ Ending.results (recorded ++ postorders parts)) :
      Traced root d₀ base (.mk c .proceed (.branch f :: .finish p d :: fs)) (told ++ told')
  | loop {root d₀ base p c f d fs recorded told parts told'}
      (h : Awaits root d₀ p d fs recorded told) (hf : LoopFrame.HasRun f p d parts told')
      (hc : c.results = base ++ Ending.results (recorded ++ postorders parts)) :
      Traced root d₀ base (.mk c .proceed (.loop f :: .finish p d :: fs)) (told ++ told')
  | iterate {root d₀ base p c f d fs recorded told parts told'}
      (h : Awaits root d₀ p d fs recorded told) (hf : LoopFrame.HasIterated f p d parts told')
      (hc : c.results = base ++ Ending.results (recorded ++ postorders parts)) :
      Traced root d₀ base (.mk c .iterate (.loop f :: .finish p d :: fs)) (told ++ told')
  /-- The outcome of a step is about to be told. -/
  | ended {root d₀ base s c o d fs recorded told parts told'}
      (h : Awaits root d₀ s d fs recorded told) (hr : Ready s d o parts told')
      (hc : c.results = base ++ Ending.results (recorded ++ postorders parts)) :
      Traced root d₀ base (.mk c (.settled o) (.finish s d :: fs)) (told ++ told')
  /-- The outcome of a step has been told. -/
  | returned {root d₀ base s c o d ms fs recorded told parts told'}
      (h : Awaits root d₀ s d fs recorded told) (hf : (node ⟨s, d, o, ms⟩ parts).Fits)
      (ht : (node ⟨s, d, o, ms⟩ parts).Told told')
      (hc : c.results = base ++ Ending.results (recorded ++ (node ⟨s, d, o, ms⟩ parts).postorder)) :
      Traced root d₀ base (.mk c (.settled o) fs) (told ++ told')

theorem Traced.start (s : Step) (c : Context) (d : Nat) : Traced s d c.results (start s c d) [] :=
  .enter .root (List.append_nil _).symm

variable {env : Env} {m : Moment} {root : Step} {d₀ : Nat} {base : List StepResult}

/-- A step for which nothing was run. -/
theorem Traced.ended_nil {s : Step} {c : Context} {o : Outcome} {d : Nat} {fs : List Frame}
    {recorded told : List Ending} (h : Awaits root d₀ s d fs recorded told) (hr : s.MayRun o [])
    (hc : c.results = base ++ Ending.results recorded) :
    Traced root d₀ base (.mk c (.settled o) (.finish s d :: fs)) told := by
  rw [← List.append_nil told]
  exact .ended h (ready_nil hr) (by rw [postorders_nil, List.append_nil]; exact hc)

theorem Traced.leaveLoop {s : Step} {c : Context} {f : LoopFrame}
    {result : Except StepError (Nat × LoopExit)} {d : Nat} {fs : List Frame}
    {recorded told told' : List Ending} {parts : List Trace}
    (h : Awaits root d₀ s d fs recorded told) (hr : ∀ o, Ready s d o parts told')
    (hc : c.results = base ++ Ending.results (recorded ++ postorders parts)) :
    Traced root d₀ base (leaveLoop c f result (.finish s d :: fs)) (told ++ told') :=
  .ended h (hr _) ((Context.results_exitLoop ..).trans hc)

/-- A task that begins a step. -/
theorem Traced.enter_traced (env : Env) (m : Moment) {s : Step} {d : Nat} {c : Context}
    {fs : List Frame} {recorded told : List Ending} (h : Awaits root d₀ s d fs recorded told)
    (hc : c.results = base ++ Ending.results recorded) :
    Traced root d₀ base (Task.enter env m c s d fs).1 told ∧
      (Task.enter env m c s d fs).2.ending? = none := by
  -- By how the step begins: nothing has been run for it yet.
  have he := enters_enter env m c s d fs
  generalize Task.enter env m c s d fs = p at he ⊢
  have hc' : c.results = base ++ Ending.results (recorded ++ postorders []) := by
    rw [postorders_nil, List.append_nil]
    exact hc
  cases he with
  | cancelled => exact ⟨.ended_nil h s.mayRun_nil_of_cancelled hc, rfl⟩
  | simple hs => subst hs; exact ⟨.calling h hc, rfl⟩
  | failed hs | skipped hs => subst hs; exact ⟨.ended_nil h (.inl rfl) hc, rfl⟩
  | branch hs hb =>
    refine ⟨?_, rfl⟩
    have hchild := Env.mem_children_of_selectBranch hb
    rw [← hs] at hchild
    have hlist : Trace.steps [] ++ _ ∈ s.children := hchild
    rw [← List.append_nil told]
    exact .branch h ⟨⟨⟨_, _, _, _, _, hs⟩, rfl, fun x hx => ⟨_, hchild, hx⟩⟩, hlist, .nil _⟩ hc'
  | loop hs =>
    refine ⟨?_, rfl⟩
    rw [← List.append_nil told]
    exact .iterate h ⟨⟨hs, rfl, nofun⟩, ⟨0, rfl⟩, .nil _⟩ hc'
  | empty hs => subst hs; exact ⟨.ended_nil h ⟨.slnil, fun _ => rfl⟩ hc, rfl⟩
  | @parallel head rule body hs hb =>
    subst hs
    refine ⟨?_, rfl⟩
    have hb := isOrderly_opened head rule (d + 1) hb
    -- nothing was handed in, and nothing was told
    have ht : Block.IsTraced _ [] :=
      ⟨hb.perm, fun hmem => .inl (hb.stopped hmem), hb.workers, nofun, nofun⟩
    rw [← List.append_nil told]
    refine .joining h hc rfl ht ?_
    intro i index t s hi
    -- no worker runs a step yet
    cases List.eq_of_mem_replicate (List.mem_of_getElem? hi)

/-- Nothing more is told by a transition that tells of no step. -/
theorem Traced.quiet {t : Task} {e : Effect} {told : List Ending} (he : e.ending? = none)
    (h : Traced root d₀ base t told) : Traced root d₀ base t (told ++ e.ending?.toList) := by
  rw [he, Option.toList_none, List.append_nil]
  exact h

/-- Only at the end of its body does a loop begin another iteration. -/
theorem rest_eq_nil_of_proceedLoop {c : Context} {f : LoopFrame} {fs : List Frame}
    (h : proceedLoop env m c f fs = .mk c .iterate (.loop f :: fs)) : f.rest = [] := by
  cases hr : f.rest with
  | nil => rfl
  | cons s rest =>
    rw [proceedLoop, hr] at h
    dsimp only at h
    split at h
    · simp [leaveLoop] at h
    · cases h

/-- The results behind which the one of a step that is over is recorded. -/
theorem results_finish {c : Context} {s : Step} {d : Nat} {o : Outcome} (fs : List Frame)
    {recorded : List Ending} {parts : List Trace}
    (hc : c.results = base ++ Ending.results (recorded ++ postorders parts)) :
    (finish m c s d o fs).1.context.results =
      base ++ Ending.results (recorded ++ (node ⟨s, d, o, m.elapsedMs⟩ parts).postorder) := by
  have hown : Ending.results (recorded ++ (node ⟨s, d, o, m.elapsedMs⟩ parts).postorder) =
      Ending.results (recorded ++ postorders parts) ++
        Ending.results [⟨s, d, o, m.elapsedMs⟩] := by
    rw [postorder, ← List.append_assoc, Ending.results_append]
  rw [hown, ← List.append_assoc, ← hc]
  show (if o.isCancelled then c else c.record (.ofOutcome s.id o m.elapsedMs)).results = _
  cases ho : o.isCancelled with
  | false => simp [Ending.results, Ending.result?, ho, Context.record]
  | true => simp [Ending.results, Ending.result?, ho]

/-- A task that moves by itself. -/
theorem Traced.advance {t t' : Task} {e : Effect} {told : List Ending}
    (ht : Traced root d₀ base t told) (h : t.advance env m = some (t', e)) :
    Traced root d₀ base t' (told ++ e.ending?.toList) := by
  -- By what the task does next; only a step whose outcome is told adds to what was told.
  cases ht with
  | @enter _ _ _ c s d fs recorded told hs hc =>
    obtain ⟨ht, he⟩ := enter_traced env m hs hc
    have hp : Task.enter env m c s d fs = (t', e) := Option.some.inj h
    rw [hp] at ht he
    simpa [he] using ht
  | calling => cases h
  | @joining _ _ _ c rule d fs recorded told b told' hs hc hd hb hw =>
    simp only [Task.advance] at h
    split at h
    next hover =>
      cases h
      obtain ⟨parts, hr, hresults⟩ := hb.exists_ready hover hd rule
      refine .quiet rfl (.ended hs hr ?_)
      rw [Context.results_recordAll, ← hresults, hc, Ending.results_append, List.append_assoc]
    next => cases h
  | @branch _ _ _ p c f d fs recorded told parts told' hs hf hc =>
    cases h
    refine .quiet rfl ?_
    rcases proceedBranch_cases m c f (.finish p d :: fs) with
      ⟨-, he⟩ | ⟨-, he⟩ | ⟨s, rest, hr, -, he⟩ <;> rw [he]
    · exact .ended hs (hf.ready _) hc
    · exact .ended hs (hf.ready _) hc
    · exact .enter (.branch (f := { f with rest }) hs (hr ▸ hf)) hc
  | @loop _ _ _ p c f d fs recorded told parts told' hs hf hc =>
    cases h
    refine .quiet rfl ?_
    rcases proceedLoop_cases env m c f (.finish p d :: fs) with
      ⟨result, he⟩ | he | ⟨s, rest, hr, -, he⟩
    · rw [he]
      exact .leaveLoop hs hf.ready hc
    · have hr := rest_eq_nil_of_proceedLoop he
      rw [he]
      exact .iterate hs (hf.hasIterated hr) hc
    · rw [he]
      exact .enter (.loop (f := { f with rest }) hs (hr ▸ hf)) hc
  | @iterate _ _ _ p c f d fs recorded told parts told' hs hf hc =>
    cases h
    refine .quiet rfl ?_
    rcases iterate_cases env m c f (.finish p d :: fs) with
      ⟨result, he⟩ | ⟨result, he⟩ | ⟨-, he⟩ <;> rw [he]
    · exact .leaveLoop hs hf.ready hc
    · exact .leaveLoop hs hf.ready ((Context.results_enterLoop ..).trans hc)
    · exact .loop hs (hf.hasRun _) ((Context.results_enterLoop ..).trans hc)
  | @ended _ _ _ s c o d fs recorded told parts told' hs hr hc =>
    cases h
    obtain ⟨hf, ht⟩ := hr m.elapsedMs
    rw [List.append_assoc]
    exact .returned hs hf ht (results_finish fs hc)
  | @returned _ _ _ s c o d ms fs recorded told parts told' hs hf ht hc =>
    cases hs with
    | root => cases h
    | @branch p s f d fs recorded told parts' told'' hs hfr =>
      cases h
      refine .quiet rfl ?_
      have hfr := hfr.concat hf rfl rfl ht
      rw [List.append_assoc]
      have hc : c.results = base ++ Ending.results (recorded ++
          postorders (parts' ++ [node ⟨s, f.depth, o, ms⟩ parts])) := by
        rw [hc, postorders_append, postorders_singleton, List.append_assoc]
      rcases returnToBranch_cases c f o (.finish p d :: fs) with
        ⟨-, he⟩ | ⟨e, -, he⟩ | ⟨e, -, -, -, he⟩ <;> rw [he]
      · exact .branch hs hfr hc
      · exact .ended hs (hfr.ready _) hc
      · exact .ended hs (hfr.ready _) hc
    | @loop p s f d fs recorded told parts' told'' hs hfr =>
      cases h
      refine .quiet rfl ?_
      have hfr := hfr.concat hf rfl rfl ht
      rw [List.append_assoc]
      have hc : c.results = base ++ Ending.results (recorded ++
          postorders (parts' ++ [node ⟨s, f.depth, o, ms⟩ parts])) := by
        rw [hc, postorders_append, postorders_singleton, List.append_assoc]
      rcases returnToLoop_cases c f o (.finish p d :: fs) with
        ⟨-, he⟩ | ⟨e, -, he⟩ | ⟨e, -, -, -, he⟩ | ⟨e, -, -, -, he⟩ <;> rw [he]
      · exact .loop hs hfr hc
      · exact .leaveLoop hs hfr.ready hc
      · exact .loop hs ⟨⟨hfr.of.step, hfr.of.depth, hfr.of.rest⟩, hfr.list, hfr.parts⟩ hc
      · exact .leaveLoop hs hfr.ready hc

/-! ### Motions within the tree -/

/-- A task that is over has a trace. -/
theorem Traced.exists_trace {t : Task} {o : Outcome} {told : List Ending}
    (ht : Traced root d₀ base t told) (ho : t.outcome? = some o) :
    ∃ (tr : Trace) (ms : Nat), tr.Fits ∧ tr.ending = ⟨root, d₀, o, ms⟩ ∧ tr.Told told ∧
      t.context.results = base ++ Ending.results tr.postorder := by
  cases ht with
  | returned h hf ht hc =>
    cases h with
    | root =>
      cases ho
      exact ⟨_, _, hf, rfl, ht, hc⟩
    | branch => cases ho
    | loop => cases ho
  | _ => cases ho

/-- A step whose worker hands in has its trace. -/
theorem Traced.fits_handIn {b : Block Task} {c : Context} {told : List (Nat × Ending)}
    {index : Nat} {t : Task} {s : Step} {o : Outcome} (hs : b.body[index]? = some s)
    (ht : Traced s b.depth c.results t (toldBy told index)) (ho : t.outcome? = some o) :
    Finished.Fits b.body b.depth told
      ⟨index, o, t.context.results.drop c.results.length⟩ := by
  obtain ⟨tr, ms, hf, hending, htold, hresults⟩ := ht.exists_trace ho
  refine .ran hs hf ?_ ?_ ?_ ?_ htold
  · rw [hending]
  · rw [hending]
  · rw [hending]
  · rw [hresults, List.drop_left]

/-- **Motions keep what is recorded and told.** -/
theorem Traced.moves {path : List Nat} {t t' : Task} {e : Effect} {told : List Ending}
    (ht : Traced root d₀ base t told) (h : Moves env m path t t' e) :
    Traced root d₀ base t' (told ++ e.ending?.toList) := by
  -- Induction on the path: a worker's task is traced from the results of the parallel step on.
  induction h generalizing root d₀ base told with
  | here h => exact ht.advance h
  | @stop i path c fs b hi hs =>
    cases ht with
    | joining h hc hd hb hw =>
      refine .quiet rfl (.joining h hc hd (hb.stop hi hs) fun j index t s hj => ?_)
      rcases Block.workers_setWorker hj with he | hj
      · cases he
      · exact hw j index t s hj
  | @skip i path c fs s b hi hs hm =>
    cases ht with
    | joining h hc hd hb hw =>
      refine .quiet rfl (.joining h hc hd (hb.skip hi hs) fun j index t s hj => ?_)
      rcases Block.workers_setWorker hj with he | hj
      · cases he
      · exact hw j index t s hj
  | @take i path c fs s b hi hs hm =>
    cases ht with
    | joining h hc hd hb hw =>
      refine .quiet rfl (.joining h hc hd (hb.take hi hs _) fun j index t s' hj hs' => ?_)
      rcases Block.workers_setWorker hj with he | hj
      · cases he
        cases hs.symm.trans hs'
        rw [hb.toldBy_taken]
        exact .start s c _
      · exact hw j index t s' hj hs'
  | @handIn i path c fs index t o b hi ho =>
    cases ht with
    | joining h hc hd hb hw =>
      have hlt : index < b.body.length := by
        have hlt := hb.tracked.lt_of_running hi
        omega
      have hs := List.getElem?_eq_getElem hlt
      have hf := Traced.fits_handIn hs (hw i index t _ hi hs) ho
      refine .quiet rfl (.joining h hc hd (hb.handIn hi hf) fun j index t s hj => ?_)
      rcases Block.workers_setWorker hj with he | hj
      · cases he
      · exact hw j index t s hj
  | @inner i path c fs index t t' e b hi ho _ ih =>
    cases ht with
    | @joining _ _ _ _ rule d fs recorded told₀ _ told' h hc hd hb hw =>
      have htold : told₀ ++ told'.map Prod.snd ++ e.ending?.toList =
          told₀ ++ (told' ++ e.ending?.toList.map (index, ·)).map Prod.snd := by
        simp
      rw [htold]
      refine .joining h hc hd (hb.inner hi t' _) fun j index' t'' s hj hs => ?_
      by_cases hij : i = j
      · subst hij
        cases (Block.getElem?_setWorker hi _).symm.trans hj
        rw [Block.toldBy_append_self]
        exact ih (hw i index t s hi hs)
      · rw [Block.setWorker, List.getElem?_set_ne hij] at hj
        rw [Block.toldBy_append_of_ne (hb.tracked.ne_of_running hi hj hij)]
        exact hw j index' t'' s hj hs

/-- **Answers keep what is recorded and told.** -/
theorem Traced.answers {r : Except StepError Json} {path : List Nat} {t t' : Task}
    {told : List Ending} (ht : Traced root d₀ base t told) (h : Answers r path t t') :
    Traced root d₀ base t' told := by
  induction h generalizing root d₀ base told with
  | here =>
    cases ht with
    | calling h hc => exact .ended_nil h rfl hc
  | @inner i path c fs index t t' b hi _ ih =>
    cases ht with
    | @joining _ _ _ _ rule d fs recorded told₀ _ told' h hc hd hb hw =>
      have hb' := hb.inner hi t' []
      rw [List.map_nil, List.append_nil] at hb'
      refine .joining h hc hd hb' fun j index' t'' s hj hs => ?_
      by_cases hij : i = j
      · subst hij
        cases (Block.getElem?_setWorker hi _).symm.trans hj
        exact ih (hw i index t s hi hs)
      · rw [Block.setWorker, List.getElem?_set_ne hij] at hj
        exact hw j index' t'' s hj hs

/-- **What is followed is recorded and told.** -/
theorem Traced.follow {xs : List Motion} {t t' : Task} {es told : List Ending}
    (ht : Traced root d₀ base t told) (h : follow env xs t = some (t', es)) :
    Traced root d₀ base t' (told ++ es) := by
  induction xs generalizing t told es with
  | nil =>
    cases h
    rwa [List.append_nil]
  | cons x xs ih =>
    obtain ⟨u, e, es', hu, hrest, rfl⟩ := follow_cons_eq_some_iff.mp h
    rw [← List.append_assoc]
    refine ih ?_ hrest
    cases x with
    | moves path m => exact ht.moves (advanceAt_eq_some_iff.mp hu)
    | answers path r =>
      obtain ⟨u', hu', heq⟩ := Option.map_eq_some_iff.mp hu
      cases heq
      exact .quiet rfl (ht.answers (answerAt_eq_some_iff.mp hu'))

end Task

end WorkflowEngine
