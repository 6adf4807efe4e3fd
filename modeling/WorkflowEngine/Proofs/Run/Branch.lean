import WorkflowEngine.Proofs.Run.Boundary
import WorkflowEngine.Proofs.Run.Calls
import WorkflowEngine.Proofs.Run.Minding
import WorkflowEngine.Proofs.Run.Scope
import WorkflowEngine.Proofs.Task.Account

/-!
# The branch that steps see

Others may give the record of a run another branch while a step is being done. Whatever is run
within a step at the top level, however deep, still sees the branch that the record had when that
step was begun; the next step at the top level sees the branch that the record has by then. The run
itself never changes the branch, nor does whoever cancels it.

## Main definitions

* `Context.SeesBranch`: what expressions see of the branch
* `System.SeesBranch`: what a thread sees of the branch, and what it hands out

## Main results

* `Passage.Run.seesBranch`: all through a step the branch is the one of its first context
* `branch_is_read_at_top_level`: the branch that steps see
-/

namespace WorkflowEngine

namespace Context

variable {c c' : Context} {branch : Option String}

/-- **What expressions see of the branch**, by itself and in the run. -/
structure SeesBranch (c : Context) (branch : Option String) : Prop where
  own : c.toJson.get? "branchName" = some (.ofText? branch)
  ofRun : (c.toJson.get? "execution").bind (·.get? "branchName") = some (.ofText? branch)

/-- The loops around take no other place in what expressions see. -/
theorem get?_loopFields {key : String} (hloop : key ≠ "loop") (hloops : key ≠ "loops")
    (fields : List (String × Json)) (loops : List (String × Nat)) :
    (Json.ofFields (fields ++ loopFields loops)).get? key = (Json.ofFields fields).get? key := by
  cases loops with
  | nil =>
    rw [loopFields, Json.ofFields, Json.get?, Dict.ofList_append_singleton,
      Dict.find?_insert_of_ne _ _ hloops]
    rfl
  | cons l outer =>
    rw [loopFields, List.append_cons, Json.ofFields, Json.get?, Dict.ofList_append_singleton,
      Dict.find?_insert_of_ne _ _ hloops, Dict.ofList_append_singleton,
      Dict.find?_insert_of_ne _ _ hloop]
    rfl

/-- **Expressions see the branch of the run that the context belongs to.** -/
theorem seesBranch (c : Context) : c.SeesBranch c.identity.branchName := by
  have hfound {fields : List (String × Json)} (hnodup : (fields.map Prod.fst).Nodup)
      (key : String) : (Json.ofFields fields).get? key = fields.lookup key :=
    Dict.find?_ofList hnodup key
  constructor
  · rw [toJson, get?_loopFields (by decide) (by decide), hfound (by simp)]
    rfl
  · rw [toJson, get?_loopFields (by decide) (by decide), hfound (by simp)]
    exact hfound (by simp) "branchName"

end Context

/-! ### What threads see -/

namespace System

variable {α : Type}

/-- **What a thread sees of the branch, and what it hands out**: its context shows the branch, a
simple step is handed out with it, and what is handed out is made in that context. -/
structure SeesBranch (engine : Expr.Engine) (s : System α) (path : Path)
    (branch : Option String) : Prop where
  context : ∀ t, s.task? path = some t → t.context.SeesBranch branch
  execute : ∀ r caller secs, s.waitsFor? path = some (.execute r caller secs) →
    caller.branchName = branch ∧ ∃ t head leaf, s.task? path = some t ∧
      Leaf.request engine head leaf t.context.toJson = .ok r
  awaitApproval : ∀ i stepId secs prompt,
    s.waitsFor? path = some (.awaitApproval i stepId secs prompt) →
      ∃ t leaf, s.task? path = some t ∧ Leaf.promptText engine leaf t.context.toJson = .ok prompt

end System

namespace Passage

variable {S : Surroundings} {a : Assignment} {st st' : Passage} {x : Happening}
  {h : List Happening} {Q : Context → Prop}

theorem Step.contexts (hQ : ∀ c c', c.Becomes c' → Q c → Q c')
    (ht : Task.Throughout (fun u => Q u.context) st.task) (hs : Passage.Step S a st x st') :
    Task.Throughout (fun u => Q u.context) st'.task := by
  cases hs with
  | advance _ hm => exact ht.moves hQ hm
  | answer _ ha => exact ht.answers ha
  | _ => exact ht

/-- **What contexts keep when they change holds of all contexts of a step**, if it holds of the
first one. -/
theorem Run.contexts (hQ : ∀ c c', c.Becomes c' → Q c → Q c')
    (ht : Task.Throughout (fun u => Q u.context) st.task) (hr : Passage.Run S a st h st') :
    Task.Throughout (fun u => Q u.context) st'.task := by
  induction hr with
  | refl => exact ht
  | step hs _ ih => exact ih (hs.contexts hQ ht)

/-- **All through a step the branch is the one of its first context**, for every thread. -/
theorem Run.seesBranch {α : Type} {engine : Expr.Engine} {config : Config} {id : Uuid}
    {rule : Execution → Execution → Prop} {w : World} {s : WorkflowEngine.Step} {c : Context}
    {d : Nat} (hr : Passage.Run (.ofRun engine config id rule) a ⟨w, .start s c d, []⟩ h st)
    (next : Outcome × Context → Program α) (path : Path) :
    (st.toSystem a next).SeesBranch engine path c.identity.branchName := by
  have hidentity : Task.Throughout (fun u => u.context.identity = c.identity) st.task :=
    hr.contexts (fun _ _ hb hc => hb.identity_eq.trans hc)
      (Task.Throughout.start (Q := fun c' => c'.identity = c.identity) rfl s d)
  -- what a thread waits for is asked for by its simple step, in the context of its task
  have hcall : ∀ r, (st.toSystem a next).waitsFor? path = some r → ∃ head leaf d u,
      st.task.at? path = some u ∧ Request.OfCall engine config a head leaf d u.context r := by
    intro r hw
    obtain ⟨-, k, hk⟩ := System.exists_leaf?_of_waitsFor? hw
    obtain ⟨head, leaf, d, c', hc, hasks⟩ := hr.calls path _ hk
    obtain ⟨fs, hu⟩ := Task.exists_at?_of_callAt? hc
    exact ⟨head, leaf, d, _, hu, hasks.1⟩
  refine ⟨fun t ht => ?_, fun r caller secs hw => ?_, fun i stepId secs prompt hw => ?_⟩
  · rw [← hidentity path t ht]
    exact t.context.seesBranch
  · obtain ⟨head, leaf, d, u, hu, ⟨⟩⟩ := hcall _ hw
    exact ⟨congrArg Identity.branchName (hidentity path u hu), u, head, leaf, hu, ‹_›⟩
  · obtain ⟨head, leaf, d, u, hu, ⟨⟩⟩ := hcall _ hw
    exact ⟨u, leaf, hu, ‹_›⟩

end Passage

namespace System

variable {α : Type} {engine : Expr.Engine} {config : Config} {id : Uuid}
  {rule : Execution → Execution → Prop} {s s' : System α} {x : Happening} {h : List Happening}

/-- As long as a step is run, only what may happen to it does. -/
theorem RunWhile.of_toSystem {S : Surroundings} {st : Passage} {a : Assignment}
    {next : Outcome × Context → Program α}
    (hr : RunWhile S (fun s => (s.task? []).isSome = true) (st.toSystem a next) h s') :
    ∃ st', Passage.Run S a st h st' ∧ s' = st'.toSystem a next := by
  generalize hs : st.toSystem a next = s at hr
  induction hr generalizing st with
  | refl => exact ⟨st, .refl st, hs.symm⟩
  | step _ hx hr ih =>
    subst hs
    rcases hx.of_toSystem with ⟨st₁, hst, rfl⟩ | ⟨o, -, -, rfl⟩
    · obtain ⟨st', hr', he⟩ := ih rfl
      exact ⟨st', .step hst hr', he⟩
    · cases hr.first

/-- **A step at the top level begins with the branch of the record.** -/
theorem Minds.of_begins {step : WorkflowEngine.Step} (hs : s.Minds id)
    (hb : s.begins? = some step) :
    ∃ e a c k, s.world.record? id = some e ∧ c.identity.branchName = e.branchName ∧
      s = .ofProgram s.world (.ask (.runStep a step c) k) := by
  cases hs with
  | @program w p known post hp hknown =>
    unfold begins? at hb
    split at hb
    next a step' c k hmain =>
      cases hb
      cases hmain
      obtain ⟨e, he, hbranch⟩ := Option.map_eq_some_iff.mp (hknown _ hp.1.2)
      exact ⟨e, a, c, k, he, hbranch.symm, rfl⟩
    next => cases hb
  | stepping => cases hb

end System

/-! ### Branches that others create -/

/-- Others give all records a branch. -/
def World.setBranch (w : World) (branch : String) : World :=
  { w with store := { w.store with
      executions := w.store.executions.map fun e => { e with branchName := some branch } } }

/-- Others may give the record of a run a branch if they may do anything with it. -/
theorem World.meanwhile_setBranch (w : World) (branch : String) (setting : Setting) (i : Uuid) :
    w.Meanwhile ⟨setting, i, fun _ _ => True⟩ (w.setBranch branch) where
  like := ⟨rfl, rfl, fun h => h⟩
  record e he := by
    refine ⟨{ e with branchName := some branch }, ?_, trivial⟩
    refine (w.record?_map (fun e => { e with branchName := some branch }) (fun _ => rfl) i).trans ?_
    rw [he]
    rfl

/-! ### Runs -/

variable {engine : Expr.Engine} {config : Config} {id : Uuid}
  {rule : Execution → Execution → Prop} {w : World} {h : List Happening}
  {s : System (Except RunError Summary)}

/-- **The branch is read at the top level, and only there.** Wherever a run has come to and whatever
others have done to its record: as long as a step at the top level is run, every thread sees the
branch that the record had when the step was begun, and hands out simple steps with it; and nothing
but what others do ever changes the branch of the record. -/
theorem branch_is_read_at_top_level
    (hr : System.Run (.ofRun engine config id rule)
      (.ofProgram w (ExceptT.run (Orchestration.run engine id))) h s) :
    (∀ step, s.begins? = some step → ∃ e, s.world.record? id = some e ∧
      ∀ x s₁ h' s' path, System.Step (.ofRun engine config id rule) s x s₁ →
        s₁.RunWhile (.ofRun engine config id rule) (fun s => (s.task? []).isSome = true) h' s' →
        s'.SeesBranch engine path e.branchName) ∧
    ∀ x s', System.Step (.ofRun engine config id rule) s x s' → x ≠ .outside →
      s'.world.branch? id = s.world.branch? id := by
  have hminds := (System.minds_ofRun engine id w).run hr
  refine ⟨fun step hb => ?_, fun x s' hs => (hminds.step hs).2⟩
  obtain ⟨e, a, c, k, he, hbranch, hs⟩ := hminds.of_begins hb
  refine ⟨e, he, fun x s₁ h' s' path hstep hwhile => ?_⟩
  rw [hs] at hstep
  -- the step is what happens next
  obtain ⟨-, ⟨_, _, _, _, hask, hserve, -⟩ | ⟨_, _, _, _, hask, rfl⟩⟩ := hstep.of_program
  · cases hask
    cases hserve
  · cases hask
    obtain ⟨st, hst, rfl⟩ := hwhile.of_toSystem
    rw [← hbranch]
    exact hst.seesBranch k path

/-- Others create a branch while the first simple step of a loop at the top level is being done. The
second one is handed out without a branch all the same. -/
theorem branch_is_read_at_top_level_nested : ∃ h s step e x s₁ h₁ s₂ h₂ s' r caller secs,
    System.Run (.ofRun .null {} ⟨1⟩ fun _ _ => True) (.nestedLoops "l" "m") h s ∧
    s.begins? = some step ∧ s.world.record? ⟨1⟩ = some e ∧ e.branchName = none ∧
    System.Step (.ofRun .null {} ⟨1⟩ fun _ _ => True) s x s₁ ∧
    s₁.RunWhile (.ofRun .null {} ⟨1⟩ fun _ _ => True) (fun s => (s.task? []).isSome = true) h₁ s₂ ∧
    System.Step (.ofRun .null {} ⟨1⟩ fun _ _ => True) s₂ .outside
      { s₂ with world := s₂.world.setBranch "feature" } ∧
    System.RunWhile (.ofRun .null {} ⟨1⟩ fun _ _ => True) (fun s => (s.task? []).isSome = true)
      { s₂ with world := s₂.world.setBranch "feature" } h₂ s' ∧
    s'.world.branch? ⟨1⟩ = some (some "feature") ∧
    s'.waitsFor? [] = some (.execute r caller secs) ∧ r.stepId = "b" ∧
    caller.branchName = none := by
  obtain ⟨h, s, hplay, step, e, hb, he, hnone, x, s₁, hstep, h₁, s₂, hplay₁, r₂, hw₂, h₂, s',
    hplay₂, hbranch, r, caller, secs, hw, hid⟩ :
      ∃ h s, (System.nestedLoops "l" "m").play (.ofRun .null {} ⟨1⟩ fun _ _ => True)
          (System.moves 9) = some (h, s) ∧
        ∃ step e, s.begins? = some step ∧ s.world.record? ⟨1⟩ = some e ∧ e.branchName = none ∧
        ∃ x s₁, s.choose (.ofRun .null {} ⟨1⟩ fun _ _ => True) (.move []) = some (x, s₁) ∧
        ∃ h₁ s₂, s₁.playWhile (.ofRun .null {} ⟨1⟩ fun _ _ => True) (fun s => (s.task? []).isSome)
          (System.moves 8) = some (h₁, s₂) ∧
        ∃ r₂, s₂.waitsFor? [] = some r₂ ∧
        ∃ h₂ s', System.playWhile (.ofRun .null {} ⟨1⟩ fun _ _ => True)
          (fun s => (s.task? []).isSome) { s₂ with world := s₂.world.setBranch "feature" }
          (.respond [] true :: System.moves 9) = some (h₂, s') ∧
        s'.world.branch? ⟨1⟩ = some (some "feature") ∧
        ∃ r caller secs, s'.waitsFor? [] = some (.execute r caller secs) ∧ r.stepId = "b" :=
    ⟨_, _, rfl, _, _, rfl, rfl, rfl, _, _, rfl, _, _, rfl, _, rfl, _, _, rfl, rfl, _, _, _, rfl,
      rfl⟩
  have hrun := System.Run.of_play hplay
  have hstep := System.Step.of_choose hstep
  have hwhile₁ := System.RunWhile.of_playWhile hplay₁
  have hwhile₂ := System.RunWhile.of_playWhile hplay₂
  have houtside := System.Step.outside ⟨[], r₂, hw₂⟩
    (s₂.world.meanwhile_setBranch "feature" (.ofConfig .null {}) ⟨1⟩)
  obtain ⟨e', he', hsees⟩ := (branch_is_read_at_top_level hrun).1 step hb
  cases he'.symm.trans he
  have hwhile := hwhile₁.trans (.step hwhile₁.last houtside hwhile₂)
  have hcaller := ((hsees x s₁ _ s' [] hstep hwhile).execute r caller secs hw).1
  exact ⟨h, s, step, e, x, s₁, h₁, s₂, h₂, s', r, caller, secs, hrun, hb, he, hnone, hstep, hwhile₁,
    houtside, hwhile₂, hbranch, hw, hid, hcaller.trans hnone⟩

end WorkflowEngine
