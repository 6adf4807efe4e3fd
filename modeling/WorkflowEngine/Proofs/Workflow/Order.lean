import WorkflowEngine.Proofs.Workflow.Merge

/-!
# Merges that keep the order of both lists

A merge always keeps the order of the parent's steps. Where the child has the steps that it shares
with the parent in another order, the merge cannot keep the child's order too. Otherwise it does:
all steps of the child stand in the merge in the child's own order, those that replace a step of the
parent and the new ones.

The proof goes over the child from its end. What is known from some step on is that the steps stand
in the merge in their order; the step before them is put in front of the first shared one among
them, and of the new steps that stand next to it.

## Main definitions

* `SameOrder`: what two lists share has the same order in both

## Main results

* `ids_sublist_mergeSteps`: a merge keeps the order of the parent
* `sublist_mergeSteps_iff`: a merge keeps the order of the child if and only if the child has what
  it shares with the parent in the parent's order
* `mergeSteps_supersequence`: then the merge has what both lists have, in their order, and no more
-/

namespace WorkflowEngine

/-- **What two lists share has the same order in both.** -/
def SameOrder (l m : List String) : Prop :=
  ∀ a ∈ m, ∀ b ∈ m, [a, b].Sublist l → [a, b].Sublist m

instance (l m : List String) : Decidable (SameOrder l m) :=
  inferInstanceAs (Decidable (∀ a ∈ m, ∀ b ∈ m, [a, b].Sublist l → [a, b].Sublist m))

/-! ### Elements of lists -/

section Elements

variable {α : Type} {l m r : List α} {a b : α}

/-- A list in which something holds of an element is divided at the first one. -/
theorem exists_first {p : α → Prop} (h : ∃ x ∈ l, p x) :
    ∃ m a r, l = m ++ a :: r ∧ (∀ x ∈ m, ¬ p x) ∧ p a := by
  classical
  obtain ⟨x, hx, hp⟩ := h
  obtain ⟨a, ha⟩ := Option.isSome_iff_exists.mp
    (List.find?_isSome (p := (p ·)) |>.mpr ⟨x, hx, decide_eq_true hp⟩)
  obtain ⟨hpa, m, r, hl, hm⟩ := List.find?_eq_some_iff_append.mp ha
  exact ⟨m, a, r, hl, by simpa using hm, of_decide_eq_true hpa⟩

/-- What starts with an element is found from this element on. -/
theorem sublist_of_nodup (hn : (m ++ a :: r).Nodup) (h : (a :: l).Sublist (m ++ a :: r)) :
    l.Sublist r := by
  have hm : a ∉ m := fun hmem => (List.nodup_append.mp hn).2.2 a hmem a (List.mem_cons_self ..) rfl
  obtain ⟨l₁, l₂, hl, h₁, h₂⟩ := List.sublist_append_iff.mp h
  cases l₁ with
  | nil =>
    obtain rfl : a :: l = l₂ := hl
    exact List.cons_sublist_cons.mp h₂
  | cons x l₁ =>
    obtain ⟨rfl, -⟩ := List.cons.inj hl
    exact absurd (h₁.subset (List.mem_cons_self ..)) hm

/-- What stands before an element is in the part of the list in front of it. -/
theorem mem_of_pair_sublist (hn : (m ++ b :: r).Nodup) (h : [a, b].Sublist (m ++ b :: r)) :
    a ∈ m := by
  have hr : b ∉ r := (List.nodup_cons.mp (List.nodup_append.mp hn).2.1).1
  obtain ⟨l₁, l₂, hl, h₁, h₂⟩ := List.sublist_append_iff.mp h
  cases l₁ with
  | nil =>
    -- the element would stand behind itself
    obtain rfl : [a, b] = l₂ := hl
    exact absurd (h₂.tail.subset (List.mem_singleton_self b)) hr
  | cons x l₁ =>
    obtain ⟨rfl, -⟩ := List.cons.inj hl
    exact h₁.subset (List.mem_cons_self ..)

end Elements

/-! ### The order of a merge -/

section Order

variable {parent child l news r : List Step} {a b x : Step}

/-- **A merge keeps the order of the parent.** -/
theorem ids_sublist_mergeSteps (parent child : List Step) :
    (parent.map Step.id).Sublist ((mergeSteps parent child).map Step.id) := by
  have hsublist := List.filter_sublist (p := (· ∈ parent.map Step.id))
    (l := (mergeSteps parent child).map Step.id)
  rwa [filter_ids_mergeSteps] at hsublist

/-- Only a child with the parent's order keeps its order. -/
theorem sameOrder_of_sublist_mergeSteps (h : child.Sublist (mergeSteps parent child)) :
    SameOrder (child.map Step.id) (parent.map Step.id) := by
  intro a ha b hb hab
  have hmerged := (hab.trans (h.map Step.id)).filter (· ∈ parent.map Step.id)
  have hself : [a, b].filter (· ∈ parent.map Step.id) = [a, b] := by
    simp only [List.filter_cons, ha, hb, decide_true, if_true, List.filter_nil]
  rwa [filter_ids_mergeSteps, hself] at hmerged

variable (hc : (child.map Step.id).Nodup)

include hc

/-- New steps of the child up to a shared one stand in the merge side by side. -/
theorem infix_mergeSteps_of_shared (hl : child = l ++ (news ++ a :: r))
    (hnew : ∀ s ∈ news, s.id ∉ parent.map Step.id) (ha : a.id ∈ parent.map Step.id) :
    news ++ [a] <:+: mergeSteps parent child := by
  cases news with
  | nil =>
    have hmem : a ∈ mergeSteps parent child := (mem_mergeSteps_iff hc).mpr (.inl (by simp [hl]))
    obtain ⟨u, v, he⟩ := List.append_of_mem hmem
    exact ⟨u, v, by simp [he]⟩
  | cons x news =>
    subst hl
    exact before_mergeSteps hc hnew ha

variable (hp : (parent.map Step.id).Nodup)

include hp

/-- Steps of a merge stand in the order of their ids. -/
theorem pair_sublist_mergeSteps (ha : a ∈ mergeSteps parent child)
    (hb : b ∈ mergeSteps parent child)
    (hids : [a.id, b.id].Sublist ((mergeSteps parent child).map Step.id)) :
    [a, b].Sublist (mergeSteps parent child) := by
  obtain ⟨steps, hsteps, heq⟩ := List.sublist_map_iff.mp hids
  obtain ⟨x, rest, rfl, hx, hrest⟩ := List.map_eq_cons_iff.mp heq.symm
  obtain ⟨y, rfl, hy⟩ := List.map_eq_singleton_iff.mp hrest
  have hinj := List.inj_on_of_nodup_map (nodup_mergeSteps hp hc)
  obtain rfl := hinj (hsteps.subset (by simp)) ha hx
  obtain rfl := hinj (hsteps.subset (by simp)) hb hy
  exact hsteps

variable (ho : SameOrder (child.map Step.id) (parent.map Step.id))

include ho

/-- A step of the child stands in the merge before the next shared one, and before the new steps
that are between the two. -/
theorem mergeSteps_eq_of_shared (hl : child = l ++ (x :: news ++ a :: r))
    (hnew : ∀ s ∈ news, s.id ∉ parent.map Step.id) (ha : a.id ∈ parent.map Step.id) :
    ∃ u v, mergeSteps parent child = u ++ news ++ a :: v ∧ x ∈ u := by
  have hmem : ∀ s ∈ child, s ∈ mergeSteps parent child :=
    fun s hs => (mem_mergeSteps_iff hc).mpr (.inl hs)
  have hn : (mergeSteps parent child).Nodup := .of_map _ (nodup_mergeSteps hp hc)
  have hx : x ∉ news ∧ [x, a].Sublist (mergeSteps parent child) := by
    by_cases hx : x.id ∈ parent.map Step.id
    · -- two shared steps are in the parent's order
      have hxa : [x.id, a.id].Sublist (child.map Step.id) := by simp [hl]
      refine ⟨fun hmem => hnew x hmem hx, ?_⟩
      exact pair_sublist_mergeSteps hc hp (hmem x (by simp [hl])) (hmem a (by simp [hl]))
        ((ho _ hx _ ha hxa).trans (ids_sublist_mergeSteps parent child))
    · -- a new step stands side by side with those between
      have hinfix : x :: news ++ [a] <:+: mergeSteps parent child :=
        infix_mergeSteps_of_shared hc hl (List.forall_mem_cons.mpr ⟨hx, hnew⟩) ha
      have hnodup := hn.sublist hinfix.sublist
      exact ⟨(List.nodup_cons.mp (hnodup.sublist (List.sublist_append_left ..))).1,
        .trans (by simp) hinfix.sublist⟩
  obtain ⟨u, v, hm⟩ := infix_mergeSteps_of_shared (l := l ++ [x]) (r := r) hc (by simp [hl])
    hnew ha
  have hm : mergeSteps parent child = u ++ news ++ a :: v := by simp [← hm]
  rw [hm] at hn hx
  exact ⟨u, v, hm, (List.mem_append.mp (mem_of_pair_sublist hn hx.2)).resolve_right hx.1⟩

/-- The steps of the child from some step on stand in the merge in their order, if one of them is
shared. -/
theorem suffix_sublist_mergeSteps {steps : List Step} (hl : child = l ++ steps)
    (hs : ∃ s ∈ steps, s.id ∈ parent.map Step.id) : steps.Sublist (mergeSteps parent child) := by
  induction steps generalizing l with
  | nil =>
    obtain ⟨s, hs, -⟩ := hs
    cases hs
  | cons x steps ih =>
    by_cases hrest : ∃ s ∈ steps, s.id ∈ parent.map Step.id
    · have ih := ih (l := l ++ [x]) (by simp [hl]) hrest
      have hn : (mergeSteps parent child).Nodup := .of_map _ (nodup_mergeSteps hp hc)
      -- the new steps up to the next shared one stand in the merge as they do here
      obtain ⟨news, a, r, rfl, hnew, ha⟩ := exists_first hrest
      obtain ⟨u, v, hm, hx⟩ := mergeSteps_eq_of_shared hc hp ho hl hnew ha
      rw [hm] at hn ih ⊢
      have hr : r.Sublist v := sublist_of_nodup hn ((List.sublist_append_right news _).trans ih)
      rw [List.append_assoc]
      exact (List.singleton_sublist.mpr hx).append (.append_left (.cons_cons a hr) news)
    · -- the last shared step, with the new ones behind it
      obtain ⟨s, hs, hshared⟩ := hs
      rcases List.mem_cons.mp hs with rfl | hs
      · have hnew : ∀ t ∈ steps, t.id ∉ parent.map Step.id := fun t ht ht' => hrest ⟨t, ht, ht'⟩
        rcases List.eq_nil_or_concat' steps with rfl | ⟨between, y, rfl⟩
        · exact List.singleton_sublist.mpr ((mem_mergeSteps_iff hc).mpr (.inl (by simp [hl])))
        · subst hl
          exact (after_mergeSteps hc hshared hnew).sublist
      · exact absurd ⟨s, hs, hshared⟩ hrest

omit ho

/-- **A merge keeps the order of the child if and only if the child has what it shares with the
parent in the parent's order.** -/
theorem sublist_mergeSteps_iff : child.Sublist (mergeSteps parent child) ↔
    SameOrder (child.map Step.id) (parent.map Step.id) := by
  refine ⟨sameOrder_of_sublist_mergeSteps, fun ho => ?_⟩
  by_cases hs : ∃ s ∈ child, s.id ∈ parent.map Step.id
  · exact suffix_sublist_mergeSteps hc hp ho (List.nil_append child).symm hs
  · rw [mergeSteps_of_new fun s hs' hid => hs ⟨s, hs', hid⟩]
    exact List.sublist_append_right parent child

end Order

/-- **The merge of a child that does not reorder the parent's steps** has the ids of the parent and
those of the child in their order, and no other ones. The steps of the child stand in it in the
child's own order. -/
theorem mergeSteps_supersequence {parent child : List Step} (hp : (parent.map Step.id).Nodup)
    (hc : (child.map Step.id).Nodup)
    (ho : SameOrder (child.map Step.id) (parent.map Step.id)) :
    (parent.map Step.id).Sublist ((mergeSteps parent child).map Step.id) ∧
      (child.map Step.id).Sublist ((mergeSteps parent child).map Step.id) ∧
      (∀ id ∈ (mergeSteps parent child).map Step.id,
        id ∈ parent.map Step.id ∨ id ∈ child.map Step.id) ∧
      child.Sublist (mergeSteps parent child) := by
  have hchild := (sublist_mergeSteps_iff hc hp).mpr ho
  exact ⟨ids_sublist_mergeSteps parent child, hchild.map Step.id,
    fun id hid => (mem_ids_mergeSteps hp).mp hid, hchild⟩

/-- A child with new steps before, between and behind the ones that it shares. -/
theorem mergeSteps_supersequence_between :
    let parent : List Step := ["a", "b", "c"].map (.asking · "parent")
    let child : List Step := ["x", "a", "y", "c", "z"].map (.asking · "child")
    child.Sublist (mergeSteps parent child) ∧
      (mergeSteps parent child).map Step.id = ["x", "a", "b", "y", "c", "z"] :=
  ⟨(mergeSteps_supersequence (by decide) (by decide) (by decide)).2.2.2, by decide⟩

end WorkflowEngine
