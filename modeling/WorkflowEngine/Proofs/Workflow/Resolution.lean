import WorkflowEngine.Proofs.Run.World
import WorkflowEngine.Proofs.Workflow.Validity

/-!
# Resolved workflows

A resolved workflow is the merge of a workflow onto what it extends, which is resolved in turn. If
all the workflows of the walk are valid, so is the result. A step of the workflow is still there in
the result, unless it shares its id both with a later one beside it and with a step that is
extended.

## Main definitions

* `Catalog.Extends`: a workflow extends another one, over any number of workflows

## Main results

* `Catalog.resolve_cases`: what a resolved workflow is
* `Catalog.resolve_isValid`: valid workflows are resolved, and the result is valid
* `Catalog.resolve_keeps_steps`: which steps of a workflow are in the result
-/

namespace WorkflowEngine

namespace Catalog

/-- **The workflow under an id extends the one under another id**, over any number of workflows. -/
inductive Extends (catalog : Catalog) (id : String) : String → Prop where
  | refl : Extends catalog id id
  | parent {i w p} (h : Extends catalog id i) (hw : Dict.find? catalog i = some w)
      (hp : w.parent = some p) : Extends catalog id p

variable {catalog : Catalog} {id : String}

/-- What the parent of a workflow extends, that workflow extends too. -/
theorem Extends.head {w : Workflow} {p i : String} (hw : Dict.find? catalog id = some w)
    (hp : w.parent = some p) (h : catalog.Extends p i) : catalog.Extends id i := by
  induction h with
  | refl => exact .parent .refl hw hp
  | parent _ hw hp ih => exact .parent ih hw hp

/-! ### Walks -/

/-- **A walk ends well** if the workflow is there and the walk from its parent, which has not been
met before, ends well. -/
theorem checkFrom_succ_iff {n : Nat} {seen : List String} :
    catalog.checkFrom (n + 1) seen id = .ok () ↔
      ∃ w, Dict.find? catalog id = some w ∧ ∀ p, w.parent = some p →
        p ∉ id :: seen ∧ catalog.checkFrom n (id :: seen) p = .ok () := by
  rw [checkFrom.eq_def]
  cases hw : Dict.find? catalog id with
  | none => cases seen <;> simp
  | some w =>
    simp only [Option.some.injEq, exists_eq_left']
    cases hp : w.parent with
    | none => simp
    | some p =>
      simp only [Option.some.injEq, forall_eq', List.contains_iff_mem]
      by_cases hseen : p ∈ id :: seen
      · rw [if_pos hseen]
        exact ⟨nofun, fun h => absurd hseen h.1⟩
      · rw [if_neg hseen]
        exact (and_iff_right hseen).symm

/-- A walk that ends well does so with more steps and after fewer ids, too. -/
theorem checkFrom_mono {n m : Nat} {seen seen' : List String} (hnm : n ≤ m) (hs : seen' ⊆ seen)
    (h : catalog.checkFrom n seen id = .ok ()) : catalog.checkFrom m seen' id = .ok () := by
  induction n generalizing m seen seen' id with
  | zero => cases h
  | succ n ih =>
    obtain ⟨m, rfl⟩ := Nat.exists_eq_succ_of_ne_zero (Nat.ne_zero_of_lt hnm)
    obtain ⟨w, hw, h⟩ := checkFrom_succ_iff.mp h
    refine checkFrom_succ_iff.mpr ⟨w, hw, fun p hp => ?_⟩
    obtain ⟨hseen, h⟩ := h p hp
    have hs : id :: seen' ⊆ id :: seen := List.cons_subset_cons id hs
    exact ⟨fun hp => hseen (hs hp), ih (Nat.le_of_succ_le_succ hnm) hs h⟩

/-! ### Merges along a walk -/

theorem compose_of_root {n : Nat} {w : Workflow} (hp : w.parent = none) :
    catalog.compose n w = .ok w := by
  rw [compose, hp]

theorem compose_of_parent {n : Nat} {w v u : Workflow} {p : String} (hp : w.parent = some p)
    (hv : Dict.find? catalog p = some v) (hu : catalog.compose n v = .ok u) :
    catalog.compose (n + 1) w = .ok (u.merge w) := by
  rw [compose, hp]
  simp only [hv, hu]
  rfl

/-- A workflow is merged onto what its parent is resolved to, if it has one. -/
theorem compose_cases {n : Nat} {w x : Workflow} (h : catalog.compose n w = .ok x) :
    w.parent = none ∧ x = w ∨ ∃ k p v u, n = k + 1 ∧ w.parent = some p ∧
      Dict.find? catalog p = some v ∧ catalog.compose k v = .ok u ∧ x = u.merge w := by
  rw [compose] at h
  cases hp : w.parent with
  | none =>
    rw [hp] at h
    exact .inl ⟨rfl, (Except.ok.inj h).symm⟩
  | some p =>
    simp only [hp] at h
    split at h
    next v k hv =>
      cases hu : catalog.compose k v with
      | error e =>
        rw [hu] at h
        cases h
      | ok u =>
        rw [hu] at h
        exact .inr ⟨k, p, v, u, rfl, rfl, hv, hu, (Except.ok.inj h).symm⟩
    next => cases h

theorem compose_mono {n m : Nat} {w x : Workflow} (hnm : n ≤ m)
    (h : catalog.compose n w = .ok x) : catalog.compose m w = .ok x := by
  induction n generalizing m w x with
  | zero =>
    rcases compose_cases h with ⟨hp, rfl⟩ | ⟨k, -, -, -, hk, -⟩
    · exact compose_of_root hp
    · cases hk
  | succ n ih =>
    rcases compose_cases h with ⟨hp, rfl⟩ | ⟨k, p, v, u, hk, hp, hv, hu, rfl⟩
    · exact compose_of_root hp
    · obtain rfl := Nat.succ.inj hk
      obtain ⟨m, rfl⟩ := Nat.exists_eq_succ_of_ne_zero (Nat.ne_zero_of_lt hnm)
      exact compose_of_parent hp hv (ih (Nat.le_of_succ_le_succ hnm) hu)

theorem resolve_eq_ok_iff {x : Workflow} :
    catalog.resolve id = .ok x ↔ catalog.checkLineage id = .ok () ∧
      ∃ w, Dict.find? catalog id = some w ∧ catalog.compose catalog.length w = .ok x := by
  unfold resolve
  cases catalog.checkLineage id with
  | error e => exact ⟨nofun, fun h => nomatch h.1⟩
  | ok u =>
    cases Dict.find? catalog id with
    | none => exact ⟨nofun, fun ⟨_, _, hw, _⟩ => nomatch hw⟩
    | some w =>
      refine ⟨fun h => ⟨rfl, w, rfl, h⟩, ?_⟩
      rintro ⟨-, _, ⟨⟩, h⟩
      exact h

/-- **What a resolved workflow is**: the workflow itself if it extends nothing, or else its merge
onto its parent, which is resolved. -/
theorem resolve_cases {v w : Workflow} (hv : Dict.find? catalog id = some v)
    (h : catalog.resolve id = .ok w) :
    v.parent = none ∧ w = v ∨
      ∃ p u, v.parent = some p ∧ catalog.resolve p = .ok u ∧ w = u.merge v := by
  obtain ⟨hc, v', hv', h⟩ := resolve_eq_ok_iff.mp h
  obtain rfl : v = v' := Option.some.inj (hv.symm.trans hv')
  refine (compose_cases h).imp_right ?_
  rintro ⟨k, p, v', u, hk, hp, hv', hu, rfl⟩
  refine ⟨p, u, hp, resolve_eq_ok_iff.mpr ⟨?_, v', hv', compose_mono (by omega) hu⟩, rfl⟩
  -- the walk from the parent is the rest of the walk
  obtain ⟨v'', hv'', hwalk⟩ := checkFrom_succ_iff.mp hc
  obtain rfl : v = v'' := Option.some.inj (hv.symm.trans hv'')
  exact checkFrom_mono (Nat.le_succ _) (List.nil_subset _) (hwalk p hp).2

/-! ### Validity -/

/-- Valid workflows on a walk that ends well are merged, and the merge is valid. -/
theorem exists_compose_isValid {n : Nat} {seen : List String} {w : Workflow}
    (hc : catalog.checkFrom (n + 1) seen id = .ok ()) (hw : Dict.find? catalog id = some w)
    (hv : ∀ i v, catalog.Extends id i → Dict.find? catalog i = some v → v.IsValid) :
    ∃ u, catalog.compose n w = .ok u ∧ u.IsValid := by
  -- Induction on the walk from the workflow to the one that extends nothing.
  induction n generalizing seen id w with
  | zero =>
    obtain ⟨w', hw', hwalk⟩ := checkFrom_succ_iff.mp hc
    obtain rfl : w = w' := Option.some.inj (hw.symm.trans hw')
    cases hp : w.parent with
    | none => exact ⟨w, compose_of_root hp, hv id w .refl hw⟩
    | some p => cases (hwalk p hp).2
  | succ n ih =>
    obtain ⟨w', hw', hwalk⟩ := checkFrom_succ_iff.mp hc
    obtain rfl : w = w' := Option.some.inj (hw.symm.trans hw')
    cases hp : w.parent with
    | none => exact ⟨w, compose_of_root hp, hv id w .refl hw⟩
    | some p =>
      have hcp := (hwalk p hp).2
      obtain ⟨x, hx, -⟩ := checkFrom_succ_iff.mp hcp
      obtain ⟨u, hu, hvalid⟩ := ih hcp hx fun i v hi => hv i v (hi.head hw hp)
      exact ⟨u.merge w, compose_of_parent hp hx hu, hvalid.merge (hv id w .refl hw)⟩

/-- **Valid workflows are resolved, and the result is valid.** The walk from the id has to end well,
and every workflow on it has to be valid by itself. -/
theorem resolve_isValid (hc : catalog.checkLineage id = .ok ())
    (hv : ∀ i v, catalog.Extends id i → Dict.find? catalog i = some v →
      v.validate.isValid = true) :
    ∃ u, catalog.resolve id = .ok u ∧ u.validate.errors = [] ∧
      ∀ world : World, world.faults = [] → world.store.catalog = catalog →
        world.Ends (Orchestration.resolve id) fun r world' => r = .ok u ∧ world' = world := by
  obtain ⟨w, hw, -⟩ := checkFrom_succ_iff.mp hc
  obtain ⟨u, hu, hvalid⟩ := exists_compose_isValid hc hw fun i v hi hiv =>
    Workflow.isValid_validate_iff.mp (hv i v hi hiv)
  have hr : catalog.resolve id = .ok u := resolve_eq_ok_iff.mpr ⟨hc, w, hw, hu⟩
  refine ⟨u, hr, Workflow.errors_validate_eq_nil_iff.mpr hvalid, fun world hf hcatalog => ?_⟩
  have hresolved : world.store.resolved id = .ok u := by
    rw [Store.resolved, hcatalog, hr]
    exact if_pos (Workflow.isValid_validate_iff.mpr hvalid)
  have hends := (world.ends_resolve id).of_faults hf
  rw [hresolved] at hends
  exact hends

end Catalog

/-- A workflow of some steps, which may extend another one. -/
def Workflow.extending (parent : Option String) (id : String) (steps : List Step) : Workflow :=
  { (default : Workflow) with id, name := id, parent, isAbstract := false, steps }

/-- Three workflows, each but the first of which extends the one before. -/
def Catalog.threeLevels : Catalog :=
  [("base", .extending none "base" [.asking "a" "base", .asking "b" "base"]),
    ("leaf", .extending (some "middle") "leaf" [.asking "y" "leaf", .asking "x" "leaf"]),
    ("middle", .extending (some "base") "middle" [.asking "x" "middle", .asking "b" "middle"])]

namespace Catalog

/-- Three workflows that are merged into one. -/
theorem resolve_isValid_threeLevels :
    (World.ofStore { workflows := threeLevels }).Ends (Orchestration.resolve "leaf") fun r _ =>
      ∃ u, r = .ok u ∧ u.validate.errors = [] ∧ u.steps.map Step.id = ["a", "y", "x", "b"] := by
  have hv : ∀ i v, threeLevels.Extends "leaf" i → Dict.find? threeLevels i = some v →
      v.validate.isValid = true := by
    intro i v _ hv
    have hall : ∀ x ∈ threeLevels, x.2.validate.isValid = true := by decide +kernel
    obtain ⟨l, r, hlr, -⟩ := List.lookup_eq_some_iff.mp hv
    exact hall (i, v) (by rw [hlr]; simp)
  obtain ⟨u, hu, hvalid, hends⟩ := resolve_isValid (by decide +kernel) hv
  refine (hends (.ofStore { workflows := threeLevels }) rfl rfl).mono ?_
  rintro r w' ⟨rfl, -⟩
  refine ⟨u, rfl, hvalid, ?_⟩
  have hids : (threeLevels.resolve "leaf").map (fun u => u.steps.map Step.id) =
      .ok ["a", "y", "x", "b"] := by rfl
  rw [hu] at hids
  exact Except.ok.inj hids

/-! ### Steps that are kept -/

variable {catalog : Catalog} {id : String}

/-- **Which steps of a workflow are in the result.** If the resolved workflow is valid, each step is
there as the workflow has it, unless one further down has its id. Then a step with the id has to be
inherited; otherwise the result would have the id twice. -/
theorem resolve_keeps_steps {v w : Workflow} (hv : Dict.find? catalog id = some v)
    (hr : catalog.resolve id = .ok w) (hw : w.validate.isValid = true) :
    ∀ l s r, v.steps = l ++ s :: r →
      (s.id ∉ r.map Step.id → s ∈ w.steps) ∧
      (s.id ∈ r.map Step.id → ∃ p u, v.parent = some p ∧ catalog.resolve p = .ok u ∧
        s.id ∈ u.steps.map Step.id) := by
  intro l s r hs
  have hdistinct := (Workflow.isValid_validate_iff.mp hw).steps.distinct
  rcases resolve_cases hv hr with ⟨-, rfl⟩ | ⟨p, u, hp, hu, rfl⟩
  · -- a workflow that extends nothing is the result itself
    refine ⟨fun _ => hs ▸ by simp, fun hid => ?_⟩
    exact absurd hid (Merge.not_mem_ids_of_nodup (hs ▸ hdistinct))
  · by_cases hinherited : s.id ∈ u.steps.map Step.id
    · refine ⟨fun hid => ?_, fun _ => ⟨p, u, hp, hu, hinherited⟩⟩
      -- the last step with an id that is inherited takes the place of what is inherited
      obtain ⟨q, hq, hqid⟩ := List.mem_map.mp hinherited
      refine mem_mergeSteps.mpr (.inr ⟨q, hq, ?_⟩)
      rw [hs]
      exact (Merge.replacement_append_cons hqid.symm (hqid ▸ hid)).symm
    · refine ⟨fun _ => mem_mergeSteps.mpr (.inl ⟨hs ▸ by simp, hinherited⟩), fun hid => ?_⟩
      -- all new steps are in the result, where ids are distinct
      have hsteps : (u.merge v).steps = mergeSteps u.steps (l ++ s :: r) := hs ▸ rfl
      exact absurd hid (not_mem_of_nodup_mergeSteps (hsteps ▸ hdistinct) hinherited)

/-- A step that stands in the place of an inherited one, beside a new step. -/
theorem resolve_keeps_steps_leaf : ∃ v w,
    Dict.find? threeLevels "leaf" = some v ∧ threeLevels.resolve "leaf" = .ok w ∧
      w.validate.isValid = true ∧ ∀ s ∈ v.steps, s ∈ w.steps := by
  have hv : Dict.find? threeLevels "leaf" = some _ := rfl
  have hr : threeLevels.resolve "leaf" = .ok _ := rfl
  have hkeeps := resolve_keeps_steps hv hr (by decide +kernel)
  refine ⟨_, _, hv, hr, by decide +kernel, fun s hs => ?_⟩
  obtain ⟨l, r, hlr⟩ := List.append_of_mem hs
  refine (hkeeps l s r hlr).1 ?_
  -- its ids are distinct
  have hdistinct : ([Step.asking "y" "leaf", Step.asking "x" "leaf"].map Step.id).Nodup := by decide
  rw [show [Step.asking "y" "leaf", Step.asking "x" "leaf"] = l ++ s :: r from hlr] at hdistinct
  exact Merge.not_mem_ids_of_nodup hdistinct

/-- A workflow in which two steps have an id that is inherited. -/
def withTwins : Catalog :=
  [("child", .extending (some "parent") "child" [.asking "a" "first", .asking "a" "second"]),
    ("parent", .extending none "parent" [.asking "a" "parent"])]

/-- The first of two steps with an inherited id is dropped, and the result is valid. -/
theorem resolve_drops_twin : ∃ v w,
    Dict.find? withTwins "child" = some v ∧ withTwins.resolve "child" = .ok w ∧
      w.validate.isValid = true ∧ ∃ s ∈ v.steps, s ∉ w.steps := by
  refine ⟨_, _, rfl, rfl, by decide +kernel, .asking "a" "first", List.mem_cons_self .., ?_⟩
  show Step.asking "a" "first" ∉ [Step.asking "a" "second"]
  simp [Step.asking]

end Catalog

end WorkflowEngine
