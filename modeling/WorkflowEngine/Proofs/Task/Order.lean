import WorkflowEngine.Proofs.Task.Advance

/-!
# Steps in their lists

The frame of a list keeps what is left of it: the steps that come after the one that is run, in
their order. So what a list goes on with is the step that follows in the list itself.

## Main definitions

* `Task.Lined`, `Task.KeepsOrder`: what is left of each list is what follows the step that is run

## Main results

* `Task.isKept_keepsOrder`: lists are gone through in their order
-/

namespace WorkflowEngine

namespace Task

/-- **A step stands before what is left of its list**, and so do the steps around it. -/
inductive Lined : Step → List Frame → Prop where
  | root {s} : Lined s []
  | list {s f rest p d fs} (hf : Frame.rest? f = some rest) (h : p.EndsWith (s :: rest))
      (hp : Lined p fs) : Lined s (f :: .finish p d :: fs)

/-- **A task goes through each list in its order.** -/
inductive KeepsOrder : Task → Prop where
  | enter {c s d fs} (h : Lined s fs) : KeepsOrder (.mk c (.enter s d) fs)
  /-- A step is run. -/
  | step {c s d fs} {control : Control Task} (hc : control.isEntry = false) (h : Lined s fs) :
      KeepsOrder (.mk c control (.finish s d :: fs))
  /-- A list goes on. -/
  | list {c f rest p d fs} {control : Control Task} (hc : control.isEntry = false)
      (hf : Frame.rest? f = some rest) (h : p.EndsWith rest) (hp : Lined p fs) :
      KeepsOrder (.mk c control (f :: .finish p d :: fs))
  | over {c o} : KeepsOrder (.mk c (.settled o) [])

variable {p s : Step} {d : Nat} {c : Context} {f : Frame} {fs : List Frame} {rest : List Step}
  {control : Control Task} {o : Outcome}

namespace KeepsOrder

theorem settled (h : Lined s fs) : KeepsOrder (.mk c (.settled o) (.finish s d :: fs)) :=
  .step rfl h

theorem of_enter (h : KeepsOrder (.mk c (.enter s d) fs)) : Lined s fs := by
  cases h with
  | enter h => exact h
  | step hc => cases hc
  | list hc => cases hc

theorem of_step (h : KeepsOrder (.mk c control (.finish s d :: fs)))
    (hc : control.isEntry = false) : Lined s fs := by
  cases h with
  | enter => cases hc
  | step _ h => exact h
  | list _ hf => cases hf

theorem of_list (h : KeepsOrder (.mk c control (f :: .finish p d :: fs)))
    (hf : f.rest? = some rest) : p.EndsWith rest ∧ Lined p fs := by
  cases h with
  | enter h =>
    cases h with
    | list hf' h hp =>
      cases hf.symm.trans hf'
      exact ⟨h.tail, hp⟩
  | step => cases hf
  | list _ hf' h hp =>
    cases hf.symm.trans hf'
    exact ⟨h, hp⟩

/-- When a step is over, what is left of its list comes next. -/
theorem returned (h : Lined s fs) : KeepsOrder (.mk c (.settled o) fs) := by
  cases h with
  | root => exact .over
  | list hf h hp => exact .list rfl hf h.tail hp

end KeepsOrder

/-- **Lists are gone through in their order**: the list of a step that begins is whole, the first
step of what is left of a list begins, and a step that is over leaves its list as it is. -/
theorem isKept_keepsOrder (env : Env) : IsKept env KeepsOrder where
  start _ _ _ := .enter .root
  joining _ h := by
    cases h with
    | step _ h => exact .step rfl h
    | list _ hf h hp => exact .list rfl hf h hp
  advance _ hk h := by
    cases h with
    | enter hc => exact .step hc hk.of_enter
    | list hc hf h => exact .list (Control.isEntry_of_isList hc) hf h hk.of_enter
    | next hf hf' =>
      obtain ⟨hlist, hp⟩ := hk.of_list hf
      exact .enter (.list hf' hlist hp)
    | turn hc hf hf' h =>
      obtain ⟨hlist, hp⟩ := hk.of_list hf
      refine .list (Control.isEntry_of_isList hc) hf' ?_ hp
      rcases h with rfl | h
      · exact hlist
      · exact .of_mem h
    | leave hf => exact .settled (hk.of_list hf).2
    | join => exact .settled (hk.of_step rfl)
    | tell => exact .returned (hk.of_step rfl)
  answer _ ht h := by
    cases ht
    exact .settled (h.of_step rfl)

end Task

end WorkflowEngine
