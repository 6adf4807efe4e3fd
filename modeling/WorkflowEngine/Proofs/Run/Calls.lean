import WorkflowEngine.Proofs.Run.Attempts

/-!
# Simple steps as their tasks ask for them

A thread does a simple step by the program of that step: the program of the head, the simple step
and the context that its task waits with. What is asked for meanwhile is made from these, however
far the program has come and whatever other threads do.

## Main definitions

* `Request.OfCall`: what is asked for while a certain simple step is done
* `Passage.Calls`: something holds of each simple step that is being done and of its program

## Main results

* `Leaf.asks_call`: the program of a simple step asks for nothing else
* `Passage.Calls.step`, `Passage.Calls.run`: what programs keep when they go on holds all through a
  step
* `Passage.Run.calls`: what is asked for while a step is run
-/

namespace WorkflowEngine

/-- **What is asked for while a certain simple step is done**, in the context that its task waits
with. -/
inductive Request.OfCall (engine : Expr.Engine) (config : Config) (a : Assignment) (head : Head)
    (leaf : Leaf) (depth : Nat) (c : Context) : Request → Prop where
  | isCancelled : OfCall engine config a head leaf depth c (.isCancelled a.executionId)
  | paused {reason} : OfCall engine config a head leaf depth c
      (.emit a.executionId (.paused head.id reason))
  | resumed : OfCall engine config a head leaf depth c (.emit a.executionId (.resumed head.id))
  | execute {r} (hr : Leaf.request engine head leaf c.toJson = .ok r) :
      OfCall engine config a head leaf depth c
        (.execute r (a.caller c depth) (Leaf.timeout config head.policy))
  | awaitApproval {prompt} (hp : Leaf.promptText engine leaf c.toJson = .ok prompt) :
      OfCall engine config a head leaf depth c (.awaitApproval a.executionId head.id
        (Leaf.approvalTimeout config head.policy) prompt)

/-- **The program of a simple step asks for nothing else.** -/
theorem Leaf.asks_call (engine : Expr.Engine) (config : Config) (a : Assignment) (head : Head)
    (leaf : Leaf) (depth : Nat) (c : Context) :
    (Leaf.run engine config a head leaf depth c).Asks
      (Request.OfCall engine config a head leaf depth c) := by
  unfold Leaf.run
  split
  · rw [awaitApproval_eq]
    refine ⟨.isCancelled, fun cancelled => ?_⟩
    cases (cancelled : Bool) with
    | true => trivial
    | false =>
      simp only [Bool.false_eq_true, if_false]
      split
      · trivial
      next prompt hp =>
        refine ⟨.paused, fun _ => ⟨.awaitApproval hp, fun verdict => ?_⟩⟩
        dsimp only
        split
        · exact ⟨.resumed, fun _ => trivial⟩
        · trivial
  · unfold dispatch
    split
    · trivial
    next r hr => exact asks_attempt .isCancelled (.execute hr) _ _

namespace Passage

variable {engine : Expr.Engine} {config : Config} {id : Uuid}
  {rule : Execution → Execution → Prop} {a : Assignment} {st st' : Passage} {x : Happening}
  {h : List Happening} {Q : Head → Leaf → Nat → Context → LeafProgram → Prop}

/-- **Something holds of each simple step that is being done**, as its task waits for it, and of the
program that does it. -/
def Calls (Q : Head → Leaf → Nat → Context → LeafProgram → Prop) (st : Passage) : Prop :=
  ∀ path p, st.leaf? path = some p →
    ∃ head leaf d c, st.task.callAt? path = some (head, leaf, d, c) ∧ Q head leaf d c p

theorem Calls.setLeaf (hst : st.Calls Q) {path : Path} {head : Head} {leaf : Leaf} {d : Nat}
    {c : Context} {p : LeafProgram} (hc : st.task.callAt? path = some (head, leaf, d, c))
    (hp : Q head leaf d c p) : (st.setLeaf path p).Calls Q := by
  intro path' p' hp'
  rw [leaf?_setLeaf] at hp'
  split at hp'
  next he =>
    subst he
    cases hp'
    exact ⟨head, leaf, d, c, hc, hp⟩
  next => exact hst path' p' hp'

/-- **What programs of simple steps have at first and keep when they go on** holds of all. -/
theorem Calls.step
    (hrun : ∀ head leaf d c, Q head leaf d c (Leaf.run engine config a head leaf d c))
    (hnext : ∀ head leaf d c r k reply, Q head leaf d c (.ask r k) → Q head leaf d c (k reply))
    (hst : st.Calls Q) (h : Passage.Step (.ofRun engine config id rule) a st x st') :
    st'.Calls Q := by
  cases h with
  | advance _ hm =>
    intro path p hp
    obtain ⟨head, leaf, d, c, hc, hq⟩ := hst path p hp
    exact ⟨head, leaf, d, c, hm.callAt?_eq hc, hq⟩
  | call _ hc => exact hst.setLeaf hc (hrun _ _ _ _)
  | @serve path r k reply w' hl _ =>
    obtain ⟨head, leaf, d, c, hc, hq⟩ := hst path _ hl
    have hst' : Calls Q { st with world := w' } := hst
    exact hst'.setLeaf hc (hnext _ _ _ _ _ _ reply hq)
  | @answer path r t hl ha =>
    intro path' p hp
    have hp := (lookup_others st path path').symm.trans hp
    split at hp
    next => cases hp
    next hne =>
      obtain ⟨head, leaf, d, c, hc, hq⟩ := hst path' p hp
      exact ⟨head, leaf, d, c, ha.callAt?_eq hne hc, hq⟩
  | @release path r k reply hl _ =>
    obtain ⟨head, leaf, d, c, hc, hq⟩ := hst path _ hl
    exact hst.setLeaf hc (hnext _ _ _ _ _ _ reply hq)
  | @tell path r k reply hl _ =>
    obtain ⟨head, leaf, d, c, hc, hq⟩ := hst path _ hl
    exact hst.setLeaf hc (hnext _ _ _ _ _ _ reply hq)
  | cancel => exact hst
  | outside => exact hst

theorem Calls.run
    (hrun : ∀ head leaf d c, Q head leaf d c (Leaf.run engine config a head leaf d c))
    (hnext : ∀ head leaf d c r k reply, Q head leaf d c (.ask r k) → Q head leaf d c (k reply))
    (hst : st.Calls Q) (hr : Passage.Run (.ofRun engine config id rule) a st h st') :
    st'.Calls Q := by
  induction hr with
  | refl => exact hst
  | step hs _ ih => exact ih (hst.step hrun hnext hs)

/-- No simple step is being done at the beginning. -/
theorem Calls.start (w : World) (s : WorkflowEngine.Step) (c : Context) (d : Nat) :
    Calls Q ⟨w, .start s c d, []⟩ := by
  rintro path p ⟨⟩

/-- **What is asked for while a step is run** is asked for by its simple steps. -/
theorem Run.calls {w : World} {s : WorkflowEngine.Step} {c : Context} {d : Nat}
    (hr : Passage.Run (.ofRun engine config id rule) a ⟨w, .start s c d, []⟩ h st) :
    st.Calls fun head leaf d c p => p.Asks (Request.OfCall engine config a head leaf d c) :=
  (Calls.start w s c d).run (Leaf.asks_call engine config a)
    (fun _ _ _ _ _ _ reply hp => hp.2 reply) hr

end Passage

end WorkflowEngine
