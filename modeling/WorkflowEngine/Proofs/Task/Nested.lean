import WorkflowEngine.Proofs.Task.Place

/-!
# Trees of steps

What holds of a step and of all steps that it holds, at any depth, holds of whatever is run while
the step is run.

## Main definitions

* `Step.All`: every step of a tree has a property

## Main results

* `Task.Hosts.all`, `Task.Placed.all_of_callAt?`: what is run of a tree has the property
-/

namespace WorkflowEngine

/-- **Every step of a tree has a property.** -/
inductive Step.All (P : Step → Prop) : Step → Prop where
  | intro {s} (own : P s) (nested : ∀ x, s.Holds x → All P x) : All P s

namespace Step.All

variable {P : Step → Prop} {s x : Step}

theorem own (h : s.All P) : P s := by
  cases h with
  | intro own => exact own

theorem of_holds (h : s.All P) (hx : s.Holds x) : x.All P := by
  cases h with
  | intro _ nested => exact nested x hx

/-- The steps of a line of the tree have the property. -/
theorem of_lineage {l : List Step} (h : s.All P) (hl : s.Lineage (x :: l)) : x.All P := by
  generalize hx : x :: l = l' at hl
  induction hl generalizing x l with
  | root =>
    cases hx
    exact h
  | child _ hs ih =>
    cases hx
    exact (ih rfl).of_holds hs

end Step.All

namespace Task

variable {P : Step → Prop} {root : Step} {d₀ : Nat}

theorem Hosts.all {s : Step} {d : Nat} {fs : List Frame} (h : Hosts root d₀ s d fs)
    (hroot : root.All P) : s.All P := by
  induction h with
  | root => exact hroot
  | branch _ _ hs ih => exact ih.of_holds hs
  | loop _ _ hs ih => exact ih.of_holds hs

/-- A simple step that waits for its answer is one of the tree. -/
theorem Placed.all_of_callAt? {path : List Nat} {t : Task} {head : Head} {leaf : Leaf} {d : Nat}
    {c : Context} (ht : Placed root d₀ t) (hroot : root.All P)
    (h : t.callAt? path = some (head, leaf, d, c)) : (Step.simple head leaf).All P := by
  induction path generalizing root d₀ t with
  | nil =>
    cases ht with
    | calling hs =>
      cases h
      exact hs.all hroot
    | _ => cases h
  | cons i path ih =>
    cases ht with
    | joining hs _ hb hw =>
      rw [callAt?_cons_joining] at h
      split at h
      next hi =>
        obtain ⟨s, hx⟩ := hb _ _ _ hi
        refine ih (hw _ _ _ s hi hx) ((hs.all hroot).of_holds ?_) h
        exact ⟨_, List.mem_singleton_self _, List.mem_of_getElem? hx⟩
      next => cases h
    | _ => cases h

end Task

end WorkflowEngine
