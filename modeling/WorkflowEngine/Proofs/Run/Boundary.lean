import WorkflowEngine.Proofs.Run.Cancellation
import WorkflowEngine.Proofs.Run.Results

/-!
# Boundaries between steps

At each boundary between two steps at the top level a run looks at its record. If that says
`CANCELLED`, whoever has made it say so, the run goes no further: the step that is under way comes
to its end, its result is kept, and the run ends as cancelled. A run does not look for the other
statuses that say that it is over. If its record says `COMPLETED` or `FAILED` all of a sudden, it
goes on with the next step as if nothing had happened, and only its very end is refused.

## Main definitions

* `System.GoesNoFurther`: what becomes of a run that goes no further
* `World.setStatus`: others give the records a status

## Main results

* `Program.Winds.course`: a program that ends soon begins no step
* `Passage.Run.eq_nil_of_top`: nothing happens to a step that is over
* `cancelled_run_goes_no_further`: a run whose record says `CANCELLED` stops at the next boundary
* `completed_run_goes_on`: a run whose record says `COMPLETED` does not
-/

namespace WorkflowEngine

/-- **A program that ends soon begins no step**, and asks for so many things at most. -/
theorem Program.Winds.course {α : Type} {S : Surroundings} {I : World → Prop}
    {post : α → World → Prop} {n : Nat} {p : Program α} {w : World} {h : List Happening}
    {begun : List Step} {s : System α} (hp : p.Winds I post n w)
    (hr : System.Course S (.ofProgram w p) h begun s) :
    begun = [] ∧ h.length ≤ n ∧ (∀ x ∈ h, x = .silent) ∧
      ∃ m p' w', s = .ofProgram w' p' ∧ p'.Winds I post m w' := by
  generalize hs : System.ofProgram w p = s₀ at hr
  induction hr generalizing n p w with
  | refl => exact ⟨rfl, Nat.zero_le n, by simp, n, p, w, hs.symm, hp⟩
  | step hx _ ih =>
    subst hs
    obtain ⟨rfl, ⟨r, k, reply, w', rfl, hserve, rfl⟩ | ⟨a, step, c, k, rfl, rfl⟩⟩ := hx.of_program
    · cases hp with
      | ask _ hserve' hk =>
        cases hserve.symm.trans hserve'
        have hb : (System.ofProgram w (.ask r k)).begins? = none := by
          cases r <;> first | rfl | cases hserve
        obtain ⟨rfl, hle, hall, hend⟩ := ih hk rfl
        refine ⟨by rw [hb]; rfl, Nat.succ_le_succ hle, fun x hx => ?_, hend⟩
        exact (List.mem_cons.mp hx).elim id (hall x)
    · cases hp with
      | ask _ hserve => cases hserve

/-- Where nothing tells of a step at the top level in the second part of a history, what does is in
the first one. -/
theorem Happening.eq_append_of_top {h h' g₁ g₂ : List Happening} {x : Happening}
    (hh : h ++ h' = g₁ ++ x :: g₂) (hx : tops [x] ≠ []) (hs : ∀ y ∈ h', tops [y] = []) :
    ∃ g, h = g₁ ++ x :: g ∧ g₂ = g ++ h' := by
  rcases List.append_eq_append_iff.mp hh with ⟨g, -, hg⟩ | ⟨g, hg₁, hg⟩
  · exact absurd (hs x (by simp [hg])) hx
  · cases g with
    | nil =>
      obtain rfl : x :: g₂ = h' := hg
      exact absurd (hs x (List.mem_cons_self ..)) hx
    | cons y g =>
      obtain ⟨rfl, rfl⟩ := List.cons.inj hg
      exact ⟨g, hg₁, rfl⟩

namespace Passage

variable {S : Surroundings} {a : Assignment} {st st' : Passage} {x : Happening}
  {h h₁ h₂ : List Happening} {root : WorkflowEngine.Step}

/-- Nothing happens any more while a step that is over is run. -/
theorem Sound.not_step_of_over {o : Outcome} (hst : st.Sound) (ho : st.task.outcome? = some o) :
    ¬ Passage.Step S a st x st' := by
  have hleaf : ∀ path, st.leaf? path = none := by
    intro path
    rw [leaf?, hst.leaves_eq_nil ho]
    rfl
  intro hs
  cases hs with
  | advance _ h => exact Task.not_moves_of_outcome? ho h
  | call _ h => rw [Task.callAt?_of_outcome? ho] at h; cases h
  | serve hl | answer hl | release hl | tell hl => rw [hleaf] at hl; cases hl
  | cancel hp | outside hp =>
    obtain ⟨path, r, hr⟩ := hp
    rw [waitsFor?_eq_none (hleaf path)] at hr
    cases hr

/-- **The end of a step at the top level is the last thing that happens** while it is run. -/
theorem Run.eq_nil_of_top (hp : Task.Placed root 0 st.task) (hst : st.Sound)
    (hn : st.task.outcome? = none) (hr : Passage.Run S a st h st') (hh : h = h₁ ++ x :: h₂)
    (hx : Happening.tops [x] ≠ []) : h₂ = [] := by
  induction hr generalizing h₁ with
  | refl => cases h₁ <;> cases hh
  | @step st y st₁ h st' hs hr ih =>
    cases ho : st₁.task.outcome? with
    | some o =>
      -- the step is over, so that nothing follows
      cases hr with
      | refl =>
        cases h₁ with
        | nil => exact (List.cons.inj hh).2.symm
        | cons z h₁ => cases h₁ <;> cases hh
      | step hs' => exact absurd hs' ((hst.step hs).not_step_of_over ho)
    | none =>
      cases h₁ with
      | nil =>
        obtain ⟨rfl, rfl⟩ := List.cons.inj hh
        obtain ⟨ms, htops, -⟩ := hs.tops hp hn
        rw [htops, ho] at hx
        exact absurd rfl hx
      | cons z h₁ => exact ih (hs.placed hp) (hst.step hs) ho (List.cons.inj hh).2

/-- The step that is run is not over while it waits for something. -/
theorem Sound.outcome?_of_isPending (hst : st.Sound) (h : st.IsPending) :
    st.task.outcome? = none := by
  cases ho : st.task.outcome? with
  | none => rfl
  | some o =>
    obtain ⟨path, r, hr⟩ := h
    rw [waitsFor?, leaf?, hst.leaves_eq_nil ho] at hr
    cases hr

end Passage

variable {engine : Expr.Engine} {config : Config} {id : Uuid}
  {rule rule₀ : Execution → Execution → Prop} {w₀ : World} {stepId : Option String}
  {results : List StepResult}

/-- **The record of a cancelled run stays as it is while a step is run**, unless others change
it. -/
theorem Surroundings.keeps_sealed (hrule : ∀ e e', rule e e' →
      e'.status = e.status ∧ e'.currentStepId = e.currentStepId ∧ e'.stepResults = e.stepResults) :
    (ofRun engine config id rule).Keeps fun w => World.Sealed id w₀ stepId results w where
  note hn h := h.note hn
  emit hd h := h.emit hd.not_concludes
  cancel := by
    intro w w' r hc h
    obtain ⟨e, hr, he⟩ := h.record
    obtain ⟨r', w'', hc', hev, hf, hcases⟩ := World.ends_cancel hr
    cases hc'.symm.trans hc
    rcases hcases with ⟨-, hrunning, -⟩ | ⟨-, ha, hr'⟩
    · rw [he] at hrunning
      cases hrunning
    · exact h.of_eq ⟨ha, hev, hf⟩ (hr'.trans hr.symm)
  outside := by
    intro w w' hm h
    obtain ⟨e, hr, he⟩ := h.record
    obtain ⟨hstep, hresults⟩ := h.keeps e hr
    obtain ⟨e', hr', hchange⟩ := hm.record e hr
    obtain ⟨hs', hstep', hresults'⟩ := hrule e e' hchange
    have h' := h.like hm.like hr' (hs'.trans he) (hstep'.trans hstep)
    rwa [hresults', hresults] at h'

/-- **What becomes of a run that goes no further** since its record was found to say that it was
cancelled. -/
structure System.GoesNoFurther (setting : Setting) (id : Uuid) (w₀ : World) (e₀ : Execution)
    (h : List Happening) (begun : List WorkflowEngine.Step) (s : System (Except RunError Summary)) :
    Prop where
  /-- No step is begun at the top level. -/
  begins : begun = []
  /-- Of the steps at the top level only the one that is under way is over. -/
  finishes : (Happening.tops h).length ≤ 1
  /-- Once it is over, only so much happens, and nobody is asked for anything. -/
  stops : ∀ h₁ x h₂, h = h₁ ++ x :: h₂ → Happening.tops [x] ≠ [] →
    h₂.length ≤ 11 ∧ ∀ y ∈ h₂, y.opens? = none
  /-- The record keeps the step that it has come to, and at most the result of that is added. -/
  record : ∃ e, s.world.record? id = some e ∧ e.status = .cancelled ∧
    e.currentStepId = e₀.currentStepId ∧ e₀.stepResults <+: e.stepResults ∧
    e.stepResults <+: e₀.stepResults ++ Ending.results (Happening.tops h)
  /-- The run can go on or waits for something that the step under way has asked for. -/
  goesOn : s.result? = none →
    ∃ path, (s.move setting path).isSome = true ∨ (s.waitsFor? path).isSome = true
  /-- The run ends as cancelled, unless a call of the store fails. -/
  ends : ∀ r, s.result? = some r → World.EndsCancelled id w₀ r s.world

/-- **A step that is under way when the record comes to say `CANCELLED` is the last one.** -/
theorem Passage.goesNoFurther {a : Assignment} (st : Passage) {root : WorkflowEngine.Step}
    {e₀ : Execution} {k : Outcome × Context → Program (Except RunError Summary)}
    {h : List Happening} {begun : List WorkflowEngine.Step}
    {s : System (Except RunError Summary)}
    (hp : Task.Placed root 0 st.task) (hst : st.Sound) (hl : st.LeavesAsk a)
    (hn : st.task.outcome? = none)
    (hw : World.Sealed a.executionId w₀ e₀.currentStepId e₀.stepResults st.world)
    (hk : ∀ x w, World.Sealed a.executionId w₀ e₀.currentStepId e₀.stepResults w → Program.Winds
      (World.MayKeep a.executionId w₀ e₀.currentStepId e₀.stepResults
        (Ending.results [.ofTop root x]))
      (World.EndsCancelled a.executionId w₀) 10 (k x) w)
    (hrule : ∀ e e', rule e e' →
      e'.status = e.status ∧ e'.currentStepId = e.currentStepId ∧ e'.stepResults = e.stepResults)
    (hr : System.Course (.ofRun engine config a.executionId rule) (st.toSystem a k) h begun s) :
    s.GoesNoFurther (.ofConfig engine config) a.executionId w₀ e₀ h begun := by
  have hkeeps : (Surroundings.ofRun engine config a.executionId rule).Keeps fun w =>
      World.Sealed a.executionId w₀ e₀.currentStepId e₀.stepResults w :=
    Surroundings.keeps_sealed hrule
  rcases hr.of_toSystem with ⟨st', hrun, rfl, rfl⟩ | ⟨h₁, st', o, h₂, hrun, ho, rfl, hcourse⟩
  · -- the step is still being run, or only just over
    obtain ⟨hw', -⟩ := hkeeps.run rfl hl hrun hw
    obtain ⟨ms, htops, -⟩ := hrun.tops hp hn
    obtain ⟨e, hrec, hs⟩ := hw'.record
    obtain ⟨hstep, hresults⟩ := hw'.keeps e hrec
    refine ⟨rfl, ?_, fun h₁ x h₂ hh hx => ?_, ⟨e, hrec, hs, hstep, ?_, ?_⟩, fun _ => ?_, ?_⟩
    · rw [htops]
      cases st'.task.outcome? <;> simp
    · rw [hrun.eq_nil_of_top hp hst hn hh hx]
      exact ⟨Nat.zero_le _, by simp⟩
    · exact hresults ▸ List.prefix_refl _
    · exact hresults ▸ List.prefix_append _ _
    · exact Passage.goes_on (hst.run hrun) (hrun.placed hp) a k _
    · rintro r ⟨⟩
  · -- the step is over, and the run winds up
    rw [(hst.run hrun).leaves_eq_nil ho] at hcourse
    obtain ⟨hw', -⟩ := hkeeps.run rfl hl hrun hw
    obtain ⟨rfl, hle, hall, m, p, w', rfl, hwinds⟩ := (hk _ _ hw').course hcourse
    -- what follows the step tells of none and asks nobody
    have htail : ∀ y ∈ Happening.moved [] (st'.task.around []) .silent none :: h₂,
        Happening.tops [y] = [] ∧ y.opens? = none := by
      intro y hy
      rcases List.mem_cons.mp hy with rfl | hy
      · exact ⟨rfl, rfl⟩
      · rw [hall y hy]
        exact ⟨rfl, rfl⟩
    obtain ⟨ms, hover, hms⟩ := hrun.tops hp hn
    have htops : Happening.tops (h₁ ++ .moved [] (st'.task.around []) .silent none :: h₂) =
        [⟨root, 0, o, ms⟩] := by
      rw [ho] at hover
      rw [Happening.tops_append, hover, Happening.tops_cons _ h₂, Happening.tops_of_silent hall]
      rfl
    have hkept : Ending.results [.ofTop root (o, st'.task.context)] =
        Ending.results [⟨root, 0, o, ms⟩] := by
      cases hc : o.isCancelled with
      | true => simp [Ending.results, Ending.result?, Ending.ofTop, hc]
      | false => rw [← hms o ho hc]; rfl
    obtain ⟨l, hl, hs⟩ := hwinds.holds
    obtain ⟨e, hrec, hcancelled⟩ := hs.record
    obtain ⟨hstep, hresults⟩ := hs.keeps e hrec
    refine ⟨rfl, ?_, fun g₁ x g₂ hh hx => ?_, ⟨e, hrec, hcancelled, hstep, ?_, ?_⟩, fun hn => ?_,
      fun r hr => ?_⟩
    · rw [htops]
      exact Nat.le_refl 1
    · obtain ⟨g, hg, rfl⟩ := Happening.eq_append_of_top hh hx fun y hy => (htail y hy).1
      rw [hrun.eq_nil_of_top hp hst hn hg hx]
      exact ⟨Nat.succ_le_succ hle, fun y hy => (htail y hy).2⟩
    · rw [hresults]
      exact List.prefix_append _ _
    · rw [htops, hresults, ← hkept]
      exact (List.prefix_append_right_inj _).mpr hl
    · exact ⟨[], .inl (hwinds.exists_move hn _)⟩
    · cases hwinds with
      | done _ h => cases hr; exact h
      | ask => cases hr

/-- **A run whose record says `CANCELLED` stops at the next boundary**, whoever has made it say so
while the run was waiting. No other step is begun at the top level. Once the step under way is over,
nobody is asked for anything, and after a few moves more the run ends as cancelled, unless a call of
the store fails. Its record keeps the step that it had come to and its results, and gets at most the
result of the step under way. Others may change the rest of the record meanwhile. -/
theorem cancelled_run_goes_no_further {w : World} {e₀ : Execution}
    {s s' : System (Except RunError Summary)} {h h' : List Happening} {begun : List Step}
    (hr : System.Run (.ofRun engine config id rule₀)
      (.ofProgram w (ExceptT.run (Orchestration.run engine id))) h s)
    (hs : s.IsPending) (hrec : w₀.record? id = some e₀) (hst : e₀.status = .cancelled)
    (hrule : ∀ e e', rule e e' →
      e'.status = e.status ∧ e'.currentStepId = e.currentStepId ∧ e'.stepResults = e.stepResults)
    (hr' : System.Course (.ofRun engine config id rule) { s with world := w₀ } h' begun s') :
    s'.GoesNoFurther (.ofConfig engine config) id w₀ e₀ h' begun := by
  have hsealed : World.Sealed id w₀ e₀.currentStepId e₀.stepResults w₀ := by
    refine ⟨⟨⟨e₀, hrec, hst⟩, ⟨[], (List.append_nil _).symm, by simp⟩, fun hf => hf⟩, ?_⟩
    intro e he
    cases hrec.symm.trans he
    exact ⟨rfl, rfl⟩
  -- the run is in the middle of a step
  have hreach := hr.reaches
  rcases hreach.eq_ofProgram_or_toSystem with ⟨w', p, rfl⟩ | ⟨st, a, k, rfl⟩
  · exact absurd hs (System.not_isPending_ofProgram p w')
  obtain ⟨rfl, totalSteps, k', hin, rfl⟩ := hreach.stepping_of_run
  obtain ⟨root, hplaced, hwinds⟩ := hin.winds
  exact Passage.goesNoFurther { st with world := w₀ } hplaced hin.sound hin.leavesAsk
    (hin.sound.outcome?_of_isPending hs) hsealed (fun x w hw => hwinds w₀ x w _ _ hw) hrule hr'

/-! ### Statuses that others set -/

/-- Only the status of a record changes. -/
def Execution.OnlyStatus (e e' : Execution) : Prop := e' = { e with status := e'.status }

namespace World

/-- Others give all records a status. -/
def setStatus (w : World) (st : Status) : World :=
  { w with store := { w.store with
      executions := w.store.executions.map fun e => { e with status := st } } }

theorem record?_setStatus (w : World) (st : Status) (i : Uuid) :
    (w.setStatus st).record? i = (w.record? i).map fun e => { e with status := st } :=
  w.record?_map (fun e => { e with status := st }) (fun _ => rfl) i

/-- Others may give the record of a run a status if they may change that. -/
theorem meanwhile_setStatus (w : World) (st : Status) (setting : Setting) (i : Uuid) :
    w.Meanwhile ⟨setting, i, Execution.OnlyStatus⟩ (w.setStatus st) where
  like := ⟨rfl, rfl, fun h => h⟩
  record e he := by
    refine ⟨{ e with status := st }, ?_, ?_⟩
    · rw [record?_setStatus, he]
      rfl
    · show _ = _
      rfl

end World

/-- The record of a run of two steps comes to say `CANCELLED` during the first one. The second one
is not begun. -/
theorem cancelled_run_goes_no_further_double : ∃ h s e₀ h' begun s' r,
    System.Run (.ofRun .null {} ⟨1⟩ Eq)
      (.ofProgram (.holding .double) (ExceptT.run (Orchestration.run .null ⟨1⟩))) h s ∧
    s.IsPending ∧ (s.world.setStatus .cancelled).record? ⟨1⟩ = some e₀ ∧ e₀.status = .cancelled ∧
    System.Course (.ofRun .null {} ⟨1⟩ Eq) { s with world := s.world.setStatus .cancelled }
      h' begun s' ∧
    s'.result? = some r ∧
    s'.GoesNoFurther (.ofConfig .null {}) ⟨1⟩ (s.world.setStatus .cancelled) e₀ h' begun := by
  have hplay : ((System.play (.ofRun .null {} ⟨1⟩ Eq) (.ofProgram (.holding .double)
      (ExceptT.run (Orchestration.run .null ⟨1⟩))) (System.moves 12)).any fun x =>
        x.2.isCalling &&
        ((x.2.world.setStatus .cancelled).record? ⟨1⟩).any (fun e => e.status = .cancelled) &&
        (System.play (.ofRun .null {} ⟨1⟩ Eq) { x.2 with world := x.2.world.setStatus .cancelled }
          (.respond [] true :: System.moves 12)).any fun y => y.2.result?.isSome) = true := by
    decide +kernel
  obtain ⟨⟨h, s⟩, hrun, hx⟩ := (Option.any_eq_true _ _).mp hplay
  obtain ⟨hx, hy⟩ := Bool.and_eq_true_iff.mp hx
  obtain ⟨hcalling, hrec⟩ := Bool.and_eq_true_iff.mp hx
  obtain ⟨e₀, he₀, hst⟩ := (Option.any_eq_true _ _).mp hrec
  obtain ⟨⟨h', s'⟩, hrun', hended⟩ := (Option.any_eq_true _ _).mp hy
  obtain ⟨r, hr⟩ := Option.isSome_iff_exists.mp hended
  obtain ⟨begun, hcourse⟩ := (System.Run.of_play hrun').exists_course
  have hpending := (System.isSuspended_of_isCalling hcalling (.ofConfig .null {})).1
  have hst := of_decide_eq_true hst
  exact ⟨h, s, e₀, h', begun, s', r, .of_play hrun, hpending, he₀, hst, hcourse, hr,
    cancelled_run_goes_no_further (.of_play hrun) hpending he₀ hst
      (fun e e' (he : e = e') => by rw [he]; exact ⟨rfl, rfl, rfl⟩) hcourse⟩

/-- **A run whose record says `COMPLETED` goes on.** Others set the status while the first of two
steps is being done, and change nothing else. When that step is over, the run begins the second one
and asks for it to be done; it writes both results and the second step into the record that says
that the run is over. Only its end is refused. -/
theorem completed_run_goes_on : ∃ h s h₁ s₁ b h₂ s₂ e₀ e₂,
    System.Run (.ofRun .null {} ⟨1⟩ Execution.OnlyStatus)
      (.ofProgram (.holding .double) (ExceptT.run (Orchestration.run .null ⟨1⟩))) h s ∧
    System.Step (.ofRun .null {} ⟨1⟩ Execution.OnlyStatus) s .outside
      { s with world := s.world.setStatus .completed } ∧
    (s.world.setStatus .completed).record? ⟨1⟩ = some e₀ ∧ e₀.status = .completed ∧
    System.Run (.ofRun .null {} ⟨1⟩ Execution.OnlyStatus)
      { s with world := s.world.setStatus .completed } h₁ s₁ ∧
    (Happening.tops h₁).map (fun x => x.step.id) = ["a"] ∧ s₁.begins? = some b ∧ b.id = "b" ∧
    System.Run (.ofRun .null {} ⟨1⟩ Execution.OnlyStatus) s₁ h₂ s₂ ∧
    (∃ y ∈ h₂, y.opens?.isSome = true) ∧ s₂.world.record? ⟨1⟩ = some e₂ ∧
    e₀.currentStepId = some "a" ∧ e₂.currentStepId = some "b" ∧
    e₀.stepResults.length = 0 ∧ e₂.stepResults.length = 2 ∧
    s₂.result? = some (.error (.alreadyFinished ⟨1⟩ .completed)) := by
  have hplay : ((System.play (.ofRun .null {} ⟨1⟩ Execution.OnlyStatus)
      (.ofProgram (.holding .double) (ExceptT.run (Orchestration.run .null ⟨1⟩)))
      (System.moves 12)).any fun x =>
        x.2.isCalling &&
        ((x.2.world.setStatus .completed).record? ⟨1⟩).any (fun e => e.status = .completed &&
          e.currentStepId = some "a" && e.stepResults.length = 0) &&
        (System.play (.ofRun .null {} ⟨1⟩ Execution.OnlyStatus)
          { x.2 with world := x.2.world.setStatus .completed }
          (.respond [] true :: System.moves 11)).any fun y =>
            decide ((Happening.tops y.1).map (fun z => z.step.id) = ["a"]) &&
            y.2.begins?.any (fun b => b.id = "b") &&
            (System.play (.ofRun .null {} ⟨1⟩ Execution.OnlyStatus) y.2
              (System.moves 3 ++ .respond [] true :: System.moves 11)).any fun z =>
                z.1.any (fun t => t.opens?.isSome) &&
                (z.2.world.record? ⟨1⟩).any (fun e => e.currentStepId = some "b" &&
                  e.stepResults.length = 2) &&
                z.2.result?.any fun
                  | .error (.alreadyFinished i st) => i = ⟨1⟩ && st = .completed
                  | _ => false) = true := by
    decide +kernel
  simp only [Option.any_eq_true, Bool.and_eq_true, List.any_eq_true, decide_eq_true_eq] at hplay
  obtain ⟨⟨h, s⟩, hrun, ⟨hcalling, e₀, he₀, ⟨hst, hstep⟩, hlen⟩, ⟨h₁, s₁⟩, hrun₁,
    ⟨htops, b, hb, hid⟩, ⟨h₂, s₂⟩, hrun₂, ⟨hopens, e₂, he₂, hstep₂, hlen₂⟩, r, hr, hend⟩ := hplay
  have hpending := (System.isSuspended_of_isCalling hcalling (.ofConfig .null {})).1
  have houtside := System.Step.outside hpending
    (s.world.meanwhile_setStatus .completed (.ofConfig .null {}) ⟨1⟩)
  refine ⟨h, s, h₁, s₁, b, h₂, s₂, e₀, e₂, .of_play hrun, houtside, he₀, hst, .of_play hrun₁, htops,
    hb, hid, .of_play hrun₂, hopens, he₂, hstep, hstep₂, hlen, hlen₂, ?_⟩
  rw [hr]
  split at hend
  · obtain ⟨rfl, rfl⟩ : _ ∧ _ := by simpa using hend
    rfl
  · cases hend

end WorkflowEngine
