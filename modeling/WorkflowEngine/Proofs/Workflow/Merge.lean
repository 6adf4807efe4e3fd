import Mathlib.Data.List.Nodup
import WorkflowEngine.Workflow.Merge

/-!
# Merges of steps

The merge of a child's steps onto those of its parent loses no step, doubles none, and puts each new
step where the child has it: next to the shared step that it stands before, or else after.

## Main definitions

* `IsMerge`: what a list of steps has to be to be the merge of two others

## Main results

* `mem_mergeSteps`: the steps of a merge
* `mergeSteps_perm`: a merge consists of the steps of the parent, replaced or not, and the new ones
* `mergeSteps_isMerge`: the merge of steps with distinct ids is one
-/

namespace WorkflowEngine

/-- **A list of steps is the merge of a child's steps onto its parent's.** -/
structure IsMerge (parent child merged : List Step) : Prop where
  /-- Ids stay distinct. -/
  nodup : (merged.map Step.id).Nodup
  /-- No id is lost, and none is added. -/
  mem_ids : ∀ id, id ∈ merged.map Step.id ↔ id ∈ parent.map Step.id ∨ id ∈ child.map Step.id
  /-- Under an id stands the child's step, or the parent's where the child has none. -/
  mem : ∀ s, s ∈ merged ↔ s ∈ child ∨ s ∈ parent ∧ s.id ∉ child.map Step.id
  /-- The ids of the parent keep their order. -/
  order : (merged.map Step.id).filter (· ∈ parent.map Step.id) = parent.map Step.id
  /-- From a new step to the next shared one, the steps stand as the child has them. -/
  before : ∀ l x between a r, child = l ++ (x :: between ++ a :: r) →
    (∀ s ∈ x :: between, s.id ∉ parent.map Step.id) → a.id ∈ parent.map Step.id →
    x :: between ++ [a] <:+: merged
  /-- From the last shared step to a new one, the steps stand as the child has them. -/
  after : ∀ l a between x r, child = l ++ (a :: between ++ x :: r) →
    a.id ∈ parent.map Step.id → (∀ s ∈ between ++ x :: r, s.id ∉ parent.map Step.id) →
    a :: between ++ [x] <:+: merged
  /-- Without a shared step, the new ones stand at the end. -/
  atEnd : (∀ s ∈ child, s.id ∉ parent.map Step.id) → merged = parent ++ child

namespace Merge

/-! ### Places of new steps -/

section Placed

variable {isShared : Step → Bool} {previous : Option String}

theorem placed_cons_of_shared {s : Step} {rest : List Step} (h : isShared s = true) :
    placed isShared previous (s :: rest) = placed isShared (some s.id) rest :=
  if_pos h

/-- The place of a new step between the shared steps that are nearest. -/
def placeOf : Option Step → Option String → Place
  | some next, _ => .before next.id
  | none, some id => .after id
  | none, none => .atEnd

theorem placed_cons_of_new {s : Step} {rest : List Step} (h : isShared s = false) :
    placed isShared previous (s :: rest) =
      (placeOf (rest.find? isShared) previous, s) :: placed isShared previous rest := by
  refine (if_neg (by simp [h])).trans ?_
  cases rest.find? isShared <;> cases previous <;> rfl

theorem map_snd_placed (child : List Step) :
    (placed isShared previous child).map Prod.snd = child.filter fun s => !isShared s := by
  induction child generalizing previous with
  | nil => rfl
  | cons s rest ih =>
    cases hs : isShared s with
    | true => rw [placed_cons_of_shared hs, ih, List.filter_cons_of_neg (by simp [hs])]
    | false =>
      rw [placed_cons_of_new hs, List.filter_cons_of_pos (by simp [hs])]
      exact congrArg (s :: ·) ih

/-- A new step goes before the next shared one. -/
theorem placed_append_of_new {between r : List Step} {a : Step}
    (hnew : ∀ s ∈ between, isShared s = false) (ha : isShared a = true) :
    placed isShared previous (between ++ a :: r) =
      between.map (Place.before a.id, ·) ++ placed isShared (some a.id) r := by
  induction between with
  | nil => exact placed_cons_of_shared ha
  | cons s between ih =>
    have hnew' : ∀ x ∈ between, isShared x = false := fun x hx => hnew x (List.mem_cons_of_mem s hx)
    -- the next shared step is found behind all new ones
    have hnone : between.find? isShared = none :=
      List.find?_eq_none.mpr fun x hx => by simp [hnew' x hx]
    have hnext : (between ++ a :: r).find? isShared = some a := by
      rw [List.find?_append, hnone, List.find?_cons_of_pos ha, Option.none_or]
    rw [List.cons_append, placed_cons_of_new (hnew s (List.mem_cons_self ..)), hnext, ih hnew']
    rfl

/-- Behind the last shared step, new steps go after it. -/
theorem placed_of_new {child : List Step} (hnew : ∀ s ∈ child, isShared s = false) :
    placed isShared previous child =
      child.map (previous.elim Place.atEnd Place.after, ·) := by
  induction child with
  | nil => rfl
  | cons s rest ih =>
    have hnew' : ∀ x ∈ rest, isShared x = false := fun x hx => hnew x (List.mem_cons_of_mem s hx)
    have hnone : rest.find? isShared = none :=
      List.find?_eq_none.mpr fun x hx => by simp [hnew' x hx]
    rw [placed_cons_of_new (hnew s (List.mem_cons_self ..)), hnone, ih hnew']
    cases previous <;> rfl

/-- The places of later steps do not depend on new steps before. -/
theorem exists_placed_append (isShared : Step → Bool) (previous : Option String) (l m : List Step) :
    ∃ L previous', placed isShared previous (l ++ m) = L ++ placed isShared previous' m := by
  induction l generalizing previous with
  | nil => exact ⟨[], previous, rfl⟩
  | cons s l ih =>
    cases hs : isShared s with
    | true =>
      obtain ⟨L, previous', h⟩ := ih (some s.id)
      exact ⟨L, previous', by rw [List.cons_append, placed_cons_of_shared hs, h]⟩
    | false =>
      obtain ⟨L, previous', h⟩ := ih previous
      exact ⟨_ :: L, previous', by rw [List.cons_append, placed_cons_of_new hs, h]; rfl⟩

/-- Where new steps go: next to a shared step of the child, or to the end. -/
theorem mem_placed {child : List Step} {x : Place × Step}
    (h : x ∈ placed isShared previous child) :
    (∃ a ∈ child, isShared a = true ∧ x.1 = .before a.id) ∨
      (∃ id, x.1 = .after id ∧
        (previous = some id ∨ ∃ a ∈ child, isShared a = true ∧ a.id = id)) ∨
      x.1 = .atEnd ∧ previous = none := by
  induction child generalizing previous with
  | nil => cases h
  | cons s rest ih =>
    cases hs : isShared s with
    | true =>
      rw [placed_cons_of_shared hs] at h
      rcases ih h with ⟨a, ha, hx⟩ | ⟨id, hx, hid | ⟨a, ha, hid⟩⟩ | ⟨-, hp⟩
      · exact .inl ⟨a, List.mem_cons_of_mem s ha, hx⟩
      · exact .inr (.inl ⟨id, hx, .inr ⟨s, List.mem_cons_self .., hs, Option.some.inj hid⟩⟩)
      · exact .inr (.inl ⟨id, hx, .inr ⟨a, List.mem_cons_of_mem s ha, hid⟩⟩)
      · cases hp
    | false =>
      rw [placed_cons_of_new hs] at h
      rcases List.mem_cons.mp h with rfl | h
      · -- the step itself: before the next shared one, else after the one before
        cases hn : rest.find? isShared with
        | some a =>
          exact .inl ⟨a, List.mem_cons_of_mem s (List.mem_of_find?_eq_some hn),
            List.find?_some hn, rfl⟩
        | none =>
          cases previous with
          | some id => exact .inr (.inl ⟨id, rfl, .inl rfl⟩)
          | none => exact .inr (.inr ⟨rfl, rfl⟩)
      · rcases ih h with ⟨a, ha, hx⟩ | ⟨id, hx, hid | ⟨a, ha, hid⟩⟩ | hx
        · exact .inl ⟨a, List.mem_cons_of_mem s ha, hx⟩
        · exact .inr (.inl ⟨id, hx, .inl hid⟩)
        · exact .inr (.inl ⟨id, hx, .inr ⟨a, List.mem_cons_of_mem s ha, hid⟩⟩)
        · exact .inr (.inr hx)

/-- Steps that a shared one follows go before shared steps. -/
theorem exists_placed_append_cons (isShared : Step → Bool) (previous : Option String)
    (l r : List Step) {a : Step} (ha : isShared a = true) :
    ∃ L, (∀ x ∈ L, ∃ id, x.1 = .before id) ∧
      placed isShared previous (l ++ a :: r) = L ++ placed isShared (some a.id) r := by
  induction l generalizing previous with
  | nil => exact ⟨[], nofun, placed_cons_of_shared ha⟩
  | cons s l ih =>
    cases hs : isShared s with
    | true =>
      obtain ⟨L, hL, h⟩ := ih (some s.id)
      exact ⟨L, hL, by rw [List.cons_append, placed_cons_of_shared hs, h]⟩
    | false =>
      obtain ⟨L, hL, h⟩ := ih previous
      obtain ⟨b, hb⟩ : ∃ b, (l ++ a :: r).find? isShared = some b :=
        Option.isSome_iff_exists.mp (List.find?_isSome.mpr ⟨a, by simp, ha⟩)
      rw [List.cons_append, placed_cons_of_new hs, hb, h]
      exact ⟨(.before b.id, s) :: L, List.forall_mem_cons.mpr ⟨⟨_, rfl⟩, hL⟩, rfl⟩

end Placed

/-! ### The steps at a place -/

@[simp] theorem standing_append (p : Place) (L M : List (Place × Step)) :
    standing p (L ++ M) = standing p L ++ standing p M := by
  simp [standing]

@[simp] theorem standing_map_self (p : Place) (steps : List Step) :
    standing p (steps.map (p, ·)) = steps := by
  induction steps with
  | nil => rfl
  | cons s steps ih =>
    rw [standing, List.map_cons, List.filter_cons_of_pos (by simp)]
    exact congrArg (s :: ·) ih

theorem standing_eq_nil {p : Place} {L : List (Place × Step)} (h : ∀ x ∈ L, x.1 ≠ p) :
    standing p L = [] := by
  rw [standing, List.filter_eq_nil_iff.mpr fun x hx => by simpa using h x hx, List.map_nil]

theorem mem_standing {p : Place} {L : List (Place × Step)} {s : Step} :
    s ∈ standing p L ↔ (p, s) ∈ L := by
  simp [standing]

/-- **Steps are at one place each.** -/
theorem flatMap_standing_perm {ps : List Place} {L : List (Place × Step)} (hps : ps.Nodup)
    (h : ∀ x ∈ L, x.1 ∈ ps) : (ps.flatMap (standing · L)).Perm (L.map Prod.snd) := by
  -- Induction on the places: the steps at the first one are apart from those elsewhere.
  induction ps generalizing L with
  | nil =>
    cases L with
    | nil => exact .nil
    | cons x L => exact absurd (h x (List.mem_cons_self ..)) List.not_mem_nil
  | cons p ps ih =>
    obtain ⟨hp, hps⟩ := List.nodup_cons.mp hps
    have hrest : ps.flatMap (standing · L) =
        ps.flatMap (standing · (L.filter fun x => !decide (x.1 = p))) := by
      refine List.flatMap_congr fun q hq => ?_
      have hqp : q ≠ p := fun he => hp (he ▸ hq)
      rw [standing, standing, List.filter_filter]
      refine congrArg (List.map Prod.snd) (List.filter_congr fun x _ => ?_)
      by_cases hx : x.1 = q
      · simp [hx, hqp]
      · simp [hx]
    rw [List.flatMap_cons, hrest]
    have hL := ih hps (L := L.filter fun x => !decide (x.1 = p)) fun x hx => by
      obtain ⟨hx, hne⟩ := List.mem_filter.mp hx
      exact (List.mem_cons.mp (h x hx)).resolve_left (by simpa using hne)
    refine (hL.append_left _).trans ?_
    rw [standing, ← List.map_append]
    exact (List.filter_append_perm _ L).map _

/-! ### Replacements -/

/-- Where ids are distinct, no step further down has the id of a step. -/
theorem not_mem_ids_of_nodup {l r : List Step} {s : Step} (h : ((l ++ s :: r).map Step.id).Nodup) :
    s.id ∉ r.map Step.id := by
  rw [List.map_append, List.map_cons, List.nodup_append, List.nodup_cons] at h
  exact h.2.1.1

/-- Of the child's steps with an id, the last one replaces the parent's. -/
theorem replacement_append_cons {l r : List Step} {c s : Step} (hc : c.id = s.id)
    (hr : s.id ∉ r.map Step.id) : replacement (l ++ c :: r) s = c := by
  have hnone : (r.reverse.find? fun x => x.id == s.id) = none := by
    refine List.find?_eq_none.mpr fun x hx he => hr ?_
    exact List.mem_map.mpr ⟨x, List.mem_reverse.mp hx, by simpa using he⟩
  rw [replacement, List.reverse_append, List.reverse_cons, List.append_assoc, List.find?_append,
    hnone, Option.none_or, List.singleton_append, List.find?_cons_of_pos (by simpa using hc)]
  rfl

/-- A step of the parent is replaced by one of the child with its id, if there is one. -/
theorem replacement_cases (child : List Step) (s : Step) :
    (replacement child s ∈ child ∧ (replacement child s).id = s.id) ∨
      replacement child s = s ∧ s.id ∉ child.map Step.id := by
  unfold replacement
  cases h : child.reverse.find? fun c => c.id == s.id with
  | some c =>
    exact .inl ⟨List.mem_reverse.mp (List.mem_of_find?_eq_some h), by simpa using List.find?_some h⟩
  | none =>
    refine .inr ⟨rfl, fun hs => ?_⟩
    obtain ⟨c, hc, hid⟩ := List.mem_map.mp hs
    exact List.find?_eq_none.mp h c (List.mem_reverse.mpr hc) (by simpa using hid)

@[simp] theorem id_replacement (child : List Step) (s : Step) :
    (replacement child s).id = s.id := by
  rcases replacement_cases child s with ⟨-, h⟩ | ⟨h, -⟩
  · exact h
  · rw [h]

theorem replacement_of_mem {child : List Step} (hc : (child.map Step.id).Nodup) {c s : Step}
    (h : c ∈ child) (hid : c.id = s.id) : replacement child s = c := by
  obtain ⟨l, r, rfl⟩ := List.append_of_mem h
  exact replacement_append_cons hid (hid ▸ not_mem_ids_of_nodup hc)

end Merge

open Merge

variable {parent child : List Step}

/-! ### The steps of a merge -/

/-- The new steps of a child with their places. -/
def newSteps (parent child : List Step) : List (Place × Step) :=
  placed (fun s => parent.any fun p => p.id == s.id) none child

theorem any_id_eq_iff {s : Step} :
    (parent.any fun p => p.id == s.id) = true ↔ s.id ∈ parent.map Step.id := by
  simp

theorem any_id_eq_false_iff {s : Step} :
    (parent.any fun p => p.id == s.id) = false ↔ s.id ∉ parent.map Step.id := by
  rw [← any_id_eq_iff, Bool.not_eq_true]

theorem mergeSteps_eq (parent child : List Step) :
    mergeSteps parent child =
      (parent.flatMap fun s => standing (.before s.id) (newSteps parent child) ++
        replacement child s :: standing (.after s.id) (newSteps parent child)) ++
      standing .atEnd (newSteps parent child) := rfl

/-- The places of new steps are at the end or next to steps of the parent. -/
theorem mem_newSteps {x : Place × Step} (h : x ∈ newSteps parent child) :
    (∃ p ∈ parent, x.1 = .before p.id ∨ x.1 = .after p.id) ∨ x.1 = .atEnd := by
  rcases mem_placed h with ⟨a, -, ha, hx⟩ | ⟨id, hx, ⟨⟨⟩⟩ | ⟨a, -, ha, rfl⟩⟩ | ⟨hx, -⟩
  · obtain ⟨p, hp, hid⟩ := List.mem_map.mp (any_id_eq_iff.mp ha)
    exact .inl ⟨p, hp, .inl (hid ▸ hx)⟩
  · obtain ⟨p, hp, hid⟩ := List.mem_map.mp (any_id_eq_iff.mp ha)
    exact .inl ⟨p, hp, .inr (hid ▸ hx)⟩
  · exact .inr hx

theorem exists_mem_newSteps_iff {s : Step} :
    (∃ p, (p, s) ∈ newSteps parent child) ↔ s ∈ child ∧ s.id ∉ parent.map Step.id := by
  have h : s ∈ (newSteps parent child).map Prod.snd ↔ s ∈ child ∧ s.id ∉ parent.map Step.id := by
    rw [newSteps, map_snd_placed, List.mem_filter, Bool.not_eq_true', any_id_eq_false_iff]
  simpa using h

/-- **The steps of a merge**: the new ones, and those of the parent or what replaces them. -/
theorem mem_mergeSteps {s : Step} :
    s ∈ mergeSteps parent child ↔
      (s ∈ child ∧ s.id ∉ parent.map Step.id) ∨ ∃ p ∈ parent, s = replacement child p := by
  rw [mergeSteps_eq, ← exists_mem_newSteps_iff]
  simp only [List.mem_append, List.mem_flatMap, List.mem_cons, mem_standing]
  constructor
  · rintro (⟨p, hp, h | rfl | h⟩ | h)
    · exact .inl ⟨_, h⟩
    · exact .inr ⟨p, hp, rfl⟩
    · exact .inl ⟨_, h⟩
    · exact .inl ⟨_, h⟩
  · rintro (⟨place, h⟩ | ⟨p, hp, rfl⟩)
    · rcases mem_newSteps h with ⟨p, hp, rfl | rfl⟩ | rfl
      · exact .inl ⟨p, hp, .inl h⟩
      · exact .inl ⟨p, hp, .inr (.inr h)⟩
      · exact .inr h
    · exact .inl ⟨p, hp, .inr (.inl rfl)⟩

/-- What stands around one element of a list can be moved out. -/
theorem flatMap_append_cons_perm {α β : Type} (l : List α) (f h : α → List β) (g : α → β) :
    (l.flatMap fun x => f x ++ g x :: h x).Perm (l.map g ++ (l.flatMap f ++ l.flatMap h)) := by
  induction l with
  | nil => exact .nil
  | cons x l ih =>
    simp only [List.flatMap_cons, List.map_cons]
    calc (f x ++ g x :: h x ++ l.flatMap fun x => f x ++ g x :: h x).Perm
          (f x ++ g x :: h x ++ (l.map g ++ (l.flatMap f ++ l.flatMap h))) := ih.append_left _
      _ |>.Perm (g x :: l.map g ++ (f x ++ l.flatMap f ++ (h x ++ l.flatMap h))) := by
        classical
        rw [List.perm_iff_count]
        intro y
        simp only [List.count_append, List.count_cons]
        omega

/-- **A merge consists of the parent's steps**, replaced or not, **and of the new ones.** -/
theorem mergeSteps_perm (hp : (parent.map Step.id).Nodup) :
    (mergeSteps parent child).Perm
      (parent.map (replacement child) ++
        child.filter fun s => !parent.any fun p => p.id == s.id) := by
  -- all places where a new step may stand
  let places :=
    parent.map (Place.before ∘ Step.id) ++ parent.map (Place.after ∘ Step.id) ++ [.atEnd]
  have hplaces : places.Nodup := by
    have hb : (parent.map (Place.before ∘ Step.id)).Nodup := by
      rw [← List.map_map]
      exact hp.map fun a b h => Place.before.inj h
    have ha : (parent.map (Place.after ∘ Step.id)).Nodup := by
      rw [← List.map_map]
      exact hp.map fun a b h => Place.after.inj h
    have hba := List.nodup_append.mpr ⟨hb, ha, by simp⟩
    refine List.nodup_append.mpr ⟨hba, List.nodup_singleton _, ?_⟩
    rintro _ hp _ hq rfl
    rw [List.mem_singleton.mp hq] at hp
    simp at hp
  have hmem : ∀ x ∈ newSteps parent child, x.1 ∈ places := by
    intro x hx
    rcases mem_newSteps hx with ⟨p, hp, h | h⟩ | h
    · exact List.mem_append_left _ (List.mem_append_left _ (List.mem_map.mpr ⟨p, hp, h.symm⟩))
    · exact List.mem_append_left _ (List.mem_append_right _ (List.mem_map.mpr ⟨p, hp, h.symm⟩))
    · exact List.mem_append_right _ (List.mem_singleton.mpr h)
  have hnew := flatMap_standing_perm hplaces hmem
  rw [newSteps, map_snd_placed, ← newSteps] at hnew
  rw [mergeSteps_eq]
  refine ((flatMap_append_cons_perm parent _ _ _).append_right _).trans ?_
  rw [List.append_assoc]
  refine List.Perm.append_left _ ?_
  simpa [places, List.flatMap_append, List.flatMap_map, Function.comp_def] using hnew

theorem map_id_replacement (parent child : List Step) :
    (parent.map (replacement child)).map Step.id = parent.map Step.id := by
  rw [List.map_map]
  exact List.map_congr_left fun s _ => id_replacement child s

/-- Ids stay distinct in a merge. -/
theorem nodup_mergeSteps (hp : (parent.map Step.id).Nodup) (hc : (child.map Step.id).Nodup) :
    ((mergeSteps parent child).map Step.id).Nodup := by
  rw [((mergeSteps_perm hp).map Step.id).nodup_iff, List.map_append, map_id_replacement]
  refine List.nodup_append.mpr ⟨hp, hc.sublist (List.filter_sublist.map Step.id), ?_⟩
  rintro id hid _ hid' rfl
  obtain ⟨s, hs, rfl⟩ := List.mem_map.mp hid'
  exact any_id_eq_false_iff.mp (by simpa using (List.mem_filter.mp hs).2) hid

/-- No id is lost, and none is added. -/
theorem mem_ids_mergeSteps (hp : (parent.map Step.id).Nodup) {id : String} :
    id ∈ (mergeSteps parent child).map Step.id ↔
      id ∈ parent.map Step.id ∨ id ∈ child.map Step.id := by
  rw [((mergeSteps_perm hp).map Step.id).mem_iff, List.map_append, map_id_replacement,
    List.mem_append]
  refine or_congr_right' fun hid => ?_
  constructor
  · intro h
    obtain ⟨s, hs, rfl⟩ := List.mem_map.mp h
    exact List.mem_map_of_mem (List.mem_filter.mp hs).1
  · intro h
    obtain ⟨s, hs, rfl⟩ := List.mem_map.mp h
    have hnew : (!parent.any fun p => p.id == s.id) = true := by
      simpa using any_id_eq_false_iff.mpr hid
    exact List.mem_map_of_mem (List.mem_filter.mpr ⟨hs, hnew⟩)

/-- Under an id stands the child's step, or the parent's where the child has none. -/
theorem mem_mergeSteps_iff (hc : (child.map Step.id).Nodup) {s : Step} :
    s ∈ mergeSteps parent child ↔ s ∈ child ∨ s ∈ parent ∧ s.id ∉ child.map Step.id := by
  rw [mem_mergeSteps]
  constructor
  · rintro (⟨hs, -⟩ | ⟨p, hp, rfl⟩)
    · exact .inl hs
    · rcases replacement_cases child p with ⟨h, -⟩ | ⟨h, hid⟩
      · exact .inl h
      · exact .inr (h.symm ▸ ⟨hp, hid⟩)
  · rintro (hs | ⟨hs, hid⟩)
    · by_cases hid : s.id ∈ parent.map Step.id
      · obtain ⟨p, hp, hid⟩ := List.mem_map.mp hid
        exact .inr ⟨p, hp, (replacement_of_mem hc hs hid.symm).symm⟩
      · exact .inl ⟨hs, hid⟩
    · rcases replacement_cases child s with ⟨h, hid'⟩ | ⟨h, -⟩
      · exact absurd (hid' ▸ List.mem_map_of_mem h) hid
      · exact .inr ⟨s, hs, h.symm⟩

/-! ### The order of a merge -/

/-- What stands around a step of the parent. -/
theorem infix_mergeSteps (child : List Step) {p : Step} (hp : p ∈ parent) :
    standing (.before p.id) (newSteps parent child) ++
      replacement child p :: standing (.after p.id) (newSteps parent child) <:+:
        mergeSteps parent child := by
  obtain ⟨l, r, rfl⟩ := List.append_of_mem hp
  rw [mergeSteps_eq, List.flatMap_append, List.flatMap_cons]
  exact ⟨_, _, by simp only [List.append_assoc]; rfl⟩

/-- The ids of the parent keep their order. -/
theorem filter_ids_mergeSteps (parent child : List Step) :
    ((mergeSteps parent child).map Step.id).filter (· ∈ parent.map Step.id) =
      parent.map Step.id := by
  -- New steps are left out, and so one step remains of what stands around each of the parent's.
  have hnew : ∀ place, ((standing place (newSteps parent child)).map Step.id).filter
      (· ∈ parent.map Step.id) = [] := by
    intro place
    refine List.filter_eq_nil_iff.mpr fun id hid => ?_
    obtain ⟨s, hs, rfl⟩ := List.mem_map.mp hid
    have hs := (exists_mem_newSteps_iff.mp ⟨place, mem_standing.mp hs⟩).2
    simpa using hs
  have hone : ∀ p ∈ parent, ((standing (.before p.id) (newSteps parent child) ++
      replacement child p :: standing (.after p.id) (newSteps parent child)).map Step.id).filter
        (· ∈ parent.map Step.id) = [p.id] := by
    intro p hp
    rw [List.map_append, List.filter_append, hnew, List.map_cons, id_replacement,
      List.filter_cons_of_pos (by simpa using ⟨p, hp, rfl⟩), hnew, List.nil_append]
  rw [mergeSteps_eq, List.map_append, List.filter_append, hnew, List.append_nil, List.map_flatMap,
    List.filter_flatMap, List.flatMap_congr hone, List.map_eq_flatMap]

/-- Ids that are distinct in a merge are so in the parent, and among the new steps of the child. -/
theorem nodup_of_nodup_mergeSteps (h : ((mergeSteps parent child).map Step.id).Nodup) :
    (parent.map Step.id).Nodup ∧
      ((child.filter fun s => !parent.any fun p => p.id == s.id).map Step.id).Nodup := by
  have hp : (parent.map Step.id).Nodup := filter_ids_mergeSteps parent child ▸ h.filter _
  refine ⟨hp, ?_⟩
  rw [((mergeSteps_perm hp).map Step.id).nodup_iff, List.map_append] at h
  exact (List.nodup_append.mp h).2.1

/-- Where ids are distinct in a merge, no step of the child further down has the id of a new one. -/
theorem not_mem_of_nodup_mergeSteps {l r : List Step} {s : Step}
    (h : ((mergeSteps parent (l ++ s :: r)).map Step.id).Nodup)
    (hs : s.id ∉ parent.map Step.id) : s.id ∉ r.map Step.id := by
  have hnew := (nodup_of_nodup_mergeSteps h).2
  have hpos : (!parent.any fun p => p.id == s.id) = true := by
    rw [any_id_eq_false_iff.mpr hs]
    rfl
  rw [List.filter_append, List.filter_cons, if_pos hpos] at hnew
  intro hid
  obtain ⟨x, hx, hxid⟩ := List.mem_map.mp hid
  refine not_mem_ids_of_nodup hnew (List.mem_map.mpr ⟨x, List.mem_filter.mpr ⟨hx, ?_⟩, hxid⟩)
  rw [any_id_eq_false_iff.mpr (hxid ▸ hs)]
  rfl

/-- From a new step to the next shared one, the steps stand as the child has them. -/
theorem before_mergeSteps {l between r : List Step} {x a : Step}
    (hc : ((l ++ (x :: between ++ a :: r)).map Step.id).Nodup)
    (hnew : ∀ s ∈ x :: between, s.id ∉ parent.map Step.id) (ha : a.id ∈ parent.map Step.id) :
    x :: between ++ [a] <:+: mergeSteps parent (l ++ (x :: between ++ a :: r)) := by
  obtain ⟨p, hp, hid⟩ := List.mem_map.mp ha
  have hinfix := infix_mergeSteps (l ++ (x :: between ++ a :: r)) hp
  rw [replacement_of_mem hc (by simp) hid.symm, hid] at hinfix
  -- what stands before the shared step ends with the new steps in front of it
  obtain ⟨L, previous, hL⟩ := exists_placed_append
    (fun s => parent.any fun p => p.id == s.id) none l (x :: between ++ a :: r)
  have hrest : ∀ y ∈ placed (fun s => parent.any fun p => p.id == s.id) (some a.id) r,
      y.1 ≠ .before a.id := by
    intro y hy he
    rcases mem_placed hy with ⟨b, hb, -, hy⟩ | ⟨id, hy, -⟩ | ⟨hy, -⟩
    · have hba : b.id = a.id := Place.before.inj (hy.symm.trans he)
      rw [← List.append_assoc] at hc
      exact not_mem_ids_of_nodup hc (hba ▸ List.mem_map_of_mem hb)
    · cases hy.symm.trans he
    · cases hy.symm.trans he
  have hstanding : standing (.before a.id) (newSteps parent (l ++ (x :: between ++ a :: r))) =
      standing (.before a.id) L ++ (x :: between) := by
    rw [newSteps, hL, standing_append, placed_append_of_new
      (fun s hs => any_id_eq_false_iff.mpr (hnew s hs)) (any_id_eq_iff.mpr ha), standing_append,
      standing_map_self, standing_eq_nil hrest, List.append_nil]
  rw [hstanding] at hinfix
  refine List.IsInfix.trans ?_ hinfix
  exact ⟨standing (.before a.id) L, _, by simp only [List.append_assoc]; rfl⟩

/-- From the last shared step to a new one, the steps stand as the child has them. -/
theorem after_mergeSteps {l between r : List Step} {a x : Step}
    (hc : ((l ++ (a :: between ++ x :: r)).map Step.id).Nodup) (ha : a.id ∈ parent.map Step.id)
    (hnew : ∀ s ∈ between ++ x :: r, s.id ∉ parent.map Step.id) :
    a :: between ++ [x] <:+: mergeSteps parent (l ++ (a :: between ++ x :: r)) := by
  obtain ⟨p, hp, hid⟩ := List.mem_map.mp ha
  have hinfix := infix_mergeSteps (l ++ (a :: between ++ x :: r)) hp
  rw [replacement_of_mem hc (by simp) hid.symm, hid] at hinfix
  -- what stands after the shared step are the new steps behind it, and no other ones
  obtain ⟨L, hL, hplaced⟩ := exists_placed_append_cons
    (fun s => parent.any fun p => p.id == s.id) none l (between ++ x :: r) (any_id_eq_iff.mpr ha)
  have hbefore : ∀ y ∈ L, y.1 ≠ .after a.id := by
    intro y hy he
    obtain ⟨id, hid⟩ := hL y hy
    cases hid.symm.trans he
  have hstanding : standing (.after a.id) (newSteps parent (l ++ (a :: between ++ x :: r))) =
      between ++ x :: r := by
    rw [newSteps, List.cons_append, hplaced, standing_append, standing_eq_nil hbefore,
      placed_of_new fun s hs => any_id_eq_false_iff.mpr (hnew s hs), List.nil_append]
    exact standing_map_self ..
  rw [hstanding] at hinfix
  refine List.IsInfix.trans ?_ hinfix
  exact ⟨_, r, by simp only [List.append_assoc, List.cons_append]; rfl⟩

/-- Without a shared step, the new ones stand at the end. -/
theorem mergeSteps_of_new (hnew : ∀ s ∈ child, s.id ∉ parent.map Step.id) :
    mergeSteps parent child = parent ++ child := by
  have hplaced : newSteps parent child = child.map (Place.atEnd, ·) :=
    placed_of_new fun s hs => any_id_eq_false_iff.mpr (hnew s hs)
  have hnil : ∀ place ≠ Place.atEnd, standing place (newSteps parent child) = [] := by
    intro place hne
    refine standing_eq_nil fun y hy he => hne ?_
    rw [hplaced] at hy
    obtain ⟨s, -, rfl⟩ := List.mem_map.mp hy
    exact he.symm
  have hone : ∀ p ∈ parent, standing (.before p.id) (newSteps parent child) ++
      replacement child p :: standing (.after p.id) (newSteps parent child) = [p] := by
    intro p hp
    rw [hnil _ (by simp), hnil _ (by simp)]
    rcases replacement_cases child p with ⟨hc, hid⟩ | ⟨h, -⟩
    · exact absurd (hid ▸ List.mem_map_of_mem hp) (hnew _ hc)
    · rw [h]
      rfl
  rw [mergeSteps_eq, List.flatMap_congr hone, List.flatMap_singleton', hplaced]
  exact congrArg (parent ++ ·) (standing_map_self ..)

/-- **The merge of steps with distinct ids.** No step is lost or doubled; a step of the child stands
in the place of the parent's with its id; and each new one stands where the child has it, before the
next shared step, else after the one before, else at the end. -/
theorem mergeSteps_isMerge (hp : (parent.map Step.id).Nodup) (hc : (child.map Step.id).Nodup) :
    IsMerge parent child (mergeSteps parent child) where
  nodup := nodup_mergeSteps hp hc
  mem_ids id := mem_ids_mergeSteps hp
  mem s := mem_mergeSteps_iff hc
  order := filter_ids_mergeSteps parent child
  before l x between a r h hnew ha := by
    subst h
    exact before_mergeSteps hc hnew ha
  after l a between x r h ha hnew := by
    subst h
    exact after_mergeSteps hc ha hnew
  atEnd := mergeSteps_of_new

/-- A simple step that asks for an action. -/
def Step.asking (id action : String) : Step :=
  .simple ⟨id, none, default⟩ ⟨.command, action, [], none, none⟩

/-- A child that has the shared steps in another order, and new ones between them. -/
theorem mergeSteps_isMerge_reordered :
    let parent : List Step := ["a", "b", "c"].map (.asking · "parent")
    let child : List Step := ["x", "c", "y", "b", "z"].map (.asking · "child")
    (parent.map Step.id).Nodup ∧ (child.map Step.id).Nodup ∧
      IsMerge parent child (mergeSteps parent child) ∧
      (mergeSteps parent child).map Step.id = ["a", "y", "b", "z", "x", "c"] :=
  ⟨by decide, by decide, mergeSteps_isMerge (by decide) (by decide), by decide⟩

end WorkflowEngine
