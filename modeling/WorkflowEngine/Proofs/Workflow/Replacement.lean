import WorkflowEngine.Proofs.Workflow.Resolution

/-!
# Resolving workflows in place

A catalog may hold a resolved workflow in the place of the one that it was resolved from. No other
workflow notices: what is resolved through the entry comes out the same, and so does every error,
as a walk that ends badly does not come by the entry at all.

A walk takes at most as many steps as there are workflows, which may be more after the replacement
than before. That is no matter, since a walk that does not meet a workflow twice has steps left.

## Main definitions

* `Catalog.Resolves`: the resolved workflow of an id, without a bound on the walk

## Main results

* `Catalog.checkFrom_eq`: a walk with steps enough does not depend on how many there are
* `Catalog.resolve_eq_ok_iff_resolves`: `Catalog.resolve` finds what `Catalog.Resolves` says
* `Catalog.resolve_congr`: resolution reads nothing but what the workflow extends
* `Catalog.resolve_insert`: resolving a workflow in place changes no resolution
-/

namespace WorkflowEngine

namespace Catalog

variable {catalog catalog' : Catalog} {id : String} {w x : Workflow}

/-! ### Walks with steps enough -/

/-- A walk goes on to the parent, unless it has been met before. -/
theorem checkFrom_of_parent {n : Nat} {seen : List String} {p : String}
    (hw : Dict.find? catalog id = some w) (hp : w.parent = some p) :
    catalog.checkFrom (n + 1) seen id =
      if p ∈ id :: seen then .error (.circular (p :: id :: seen).reverse)
      else catalog.checkFrom n (id :: seen) p := by
  rw [checkFrom.eq_def]
  simp only [hw, hp, List.contains_iff_mem]

/-- A walk that cannot go on from a workflow depends on nothing else. -/
theorem checkFrom_of_no_parent {n m : Nat} {seen : List String}
    (hfind : Dict.find? catalog' id = Dict.find? catalog id)
    (hp : (Dict.find? catalog id).bind Workflow.parent = none) :
    catalog'.checkFrom (n + 1) seen id = catalog.checkFrom (m + 1) seen id := by
  rw [checkFrom.eq_def, checkFrom.eq_def, hfind]
  cases hw : Dict.find? catalog id with
  | none => rfl
  | some w =>
    rw [hw, Option.bind_some] at hp
    simp only [hp]

/-- Ids that are met are keys of the catalog, each once, and so there are no more of them than there
are workflows. -/
theorem length_le_of_nodup {seen : List String} (hseen : seen.Nodup) (hkeys : seen ⊆ catalog.keys) :
    seen.length ≤ catalog.length := by
  have h := hseen.length_le_of_subset hkeys
  rwa [Dict.keys, List.length_map] at h

/-- **A walk with steps enough does not depend on how many there are.** No id is met twice, and so
there are at most as many steps to take as there are workflows that have not been met. -/
theorem checkFrom_eq {n m : Nat} {seen : List String} (hseen : (id :: seen).Nodup)
    (hkeys : seen ⊆ catalog.keys) (hn : catalog.length < n + seen.length)
    (hm : catalog.length < m + seen.length) :
    catalog.checkFrom n seen id = catalog.checkFrom m seen id := by
  have hlength := length_le_of_nodup hseen.of_cons hkeys
  induction n generalizing m seen id with
  | zero => omega
  | succ n ih =>
    obtain ⟨m, rfl⟩ : ∃ k, m = k + 1 := Nat.exists_eq_succ_of_ne_zero (by omega)
    cases hparent : (Dict.find? catalog id).bind Workflow.parent with
    | none => exact checkFrom_of_no_parent rfl hparent
    | some p =>
      obtain ⟨w, hw, hp⟩ := Option.bind_eq_some_iff.mp hparent
      rw [checkFrom_of_parent hw hp, checkFrom_of_parent hw hp]
      by_cases hmem : p ∈ id :: seen
      · rw [if_pos hmem, if_pos hmem]
      · rw [if_neg hmem, if_neg hmem]
        -- one step fewer is left, and one workflow fewer is to be met
        have hkeys : id :: seen ⊆ catalog.keys :=
          List.cons_subset.mpr ⟨Dict.mem_keys_of_find? hw, hkeys⟩
        apply ih (List.nodup_cons.mpr ⟨hmem, hseen⟩) hkeys
        · rw [List.length_cons]
          omega
        · rw [List.length_cons]
          omega
        · exact length_le_of_nodup hseen hkeys

/-- A walk from an id that takes at least as many steps as there are workflows and one more. -/
theorem checkFrom_eq_checkLineage {n : Nat} (hn : catalog.length ≤ n) :
    catalog.checkFrom (n + 1) [] id = catalog.checkLineage id := by
  apply checkFrom_eq (List.nodup_singleton id) (List.nil_subset _)
  · rw [List.length_nil]
    omega
  · exact Nat.lt_succ_self _

/-- A walk reads nothing but what the workflow extends. -/
theorem checkFrom_congr {n : Nat} {seen : List String}
    (h : ∀ i, catalog.Extends id i → Dict.find? catalog' i = Dict.find? catalog i) :
    catalog'.checkFrom n seen id = catalog.checkFrom n seen id := by
  induction n generalizing seen id with
  | zero => rfl
  | succ n ih =>
    have hid := h id .refl
    cases hparent : (Dict.find? catalog id).bind Workflow.parent with
    | none => exact checkFrom_of_no_parent hid hparent
    | some p =>
      obtain ⟨w, hw, hp⟩ := Option.bind_eq_some_iff.mp hparent
      rw [checkFrom_of_parent (hid.trans hw) hp, checkFrom_of_parent hw hp,
        ih fun i hi => h i (hi.head hw hp)]

/-! ### Resolution without a bound -/

/-- **The resolved workflow of an id**, over a number of workflows that it extends: the workflow
itself if it extends nothing, or else its merge onto its resolved parent. -/
inductive Resolves (catalog : Catalog) : Nat → String → Workflow → Prop where
  | root {id : String} {w : Workflow} (hw : Dict.find? catalog id = some w)
      (hp : w.parent = none) : Resolves catalog 0 id w
  | child {n : Nat} {id p : String} {w u : Workflow} (hw : Dict.find? catalog id = some w)
      (hp : w.parent = some p) (hu : Resolves catalog n p u) :
      Resolves catalog (n + 1) id (u.merge w)

namespace Resolves

variable {n m : Nat} {y : Workflow}

theorem extends_nothing (h : catalog.Resolves n id x) : x.parent = none := by
  cases h with
  | root _ hp => exact hp
  | child => rfl

/-- There is one resolved workflow, over one number of workflows. -/
theorem unique (hx : catalog.Resolves n id x) (hy : catalog.Resolves m id y) : n = m ∧ x = y := by
  induction hx generalizing m y with
  | root hw hp =>
    cases hy with
    | root hw' _ =>
      rw [hw] at hw'
      exact ⟨rfl, Option.some.inj hw'⟩
    | child hw' hp' =>
      obtain rfl := Option.some.inj (hw.symm.trans hw')
      cases hp.symm.trans hp'
  | child hw hp _ ih =>
    cases hy with
    | root hw' hp' =>
      obtain rfl := Option.some.inj (hw.symm.trans hw')
      cases hp.symm.trans hp'
    | child hw' hp' hu' =>
      obtain rfl := Option.some.inj (hw.symm.trans hw')
      obtain rfl := Option.some.inj (hp.symm.trans hp')
      obtain ⟨rfl, rfl⟩ := ih hu'
      exact ⟨rfl, rfl⟩

/-- What a resolved workflow extends is resolved, over no more workflows. -/
theorem of_extends {i : String} (hi : catalog.Extends id i) (h : catalog.Resolves n id x) :
    ∃ m ≤ n, ∃ y, catalog.Resolves m i y := by
  induction hi with
  | refl => exact ⟨n, Nat.le_refl _, x, h⟩
  | parent _ hw hp ih =>
    obtain ⟨m, hm, y, hy⟩ := ih
    cases hy with
    | root hw' hp' =>
      obtain rfl := Option.some.inj (hw.symm.trans hw')
      cases hp.symm.trans hp'
    | child hw' hp' hu =>
      obtain rfl := Option.some.inj (hw.symm.trans hw')
      obtain rfl := Option.some.inj (hp.symm.trans hp')
      exact ⟨_, Nat.le_of_succ_le hm, _, hu⟩

/-- **A walk over what a resolved workflow extends ends well**, as long as it does not come back to
an id that has been met before. -/
theorem checkFrom (h : catalog.Resolves n id x) {seen : List String}
    (hseen : ∀ i ∈ seen, ¬ catalog.Extends id i) :
    catalog.checkFrom (n + 1) seen id = .ok () := by
  induction h generalizing seen with
  | root hw hp => exact checkFrom_succ_iff.mpr ⟨_, hw, fun p hp' => nomatch hp.symm.trans hp'⟩
  | @child n id p w u hw hp hu ih =>
    -- the parent extends none of the ids that have been met, nor the workflow itself
    have hseen : ∀ i ∈ id :: seen, ¬ catalog.Extends p i := by
      intro i hi hext
      rcases List.mem_cons.mp hi with rfl | hi
      · obtain ⟨m, hm, y, hy⟩ := hu.of_extends hext
        have hnm := (hy.unique (.child hw hp hu)).1
        omega
      · exact hseen i hi (hext.head hw hp)
    refine checkFrom_succ_iff.mpr ⟨w, hw, fun p' hp' => ?_⟩
    obtain rfl := Option.some.inj (hp.symm.trans hp')
    exact ⟨fun hmem => hseen p hmem .refl, ih hseen⟩

theorem compose (h : catalog.Resolves n id x) (hw : Dict.find? catalog id = some w) :
    catalog.compose n w = .ok x := by
  induction h generalizing w with
  | root hw' hp =>
    obtain rfl := Option.some.inj (hw.symm.trans hw')
    exact compose_of_root hp
  | child hw' hp hu ih =>
    obtain rfl := Option.some.inj (hw.symm.trans hw')
    cases hu with
    | root hv _ => exact compose_of_parent hp hv (ih hv)
    | child hv _ _ => exact compose_of_parent hp hv (ih hv)

/-- A walk that ends well is over workflows that are resolved. -/
theorem of_checkFrom {seen : List String} (h : catalog.checkFrom (n + 1) seen id = .ok ()) :
    ∃ m ≤ n, ∃ x, catalog.Resolves m id x := by
  induction n generalizing seen id with
  | zero =>
    obtain ⟨w, hw, hwalk⟩ := checkFrom_succ_iff.mp h
    cases hp : w.parent with
    | none => exact ⟨0, Nat.le_refl _, w, .root hw hp⟩
    | some p => cases (hwalk p hp).2
  | succ n ih =>
    obtain ⟨w, hw, hwalk⟩ := checkFrom_succ_iff.mp h
    cases hp : w.parent with
    | none => exact ⟨0, Nat.zero_le _, w, .root hw hp⟩
    | some p =>
      obtain ⟨m, hm, u, hu⟩ := ih (hwalk p hp).2
      exact ⟨m + 1, Nat.succ_le_succ hm, u.merge w, .child hw hp hu⟩

/-- Resolution reads nothing but what the workflow extends. -/
theorem congr (h : catalog.Resolves n id x)
    (hfind : ∀ i, catalog.Extends id i → Dict.find? catalog' i = Dict.find? catalog i) :
    catalog'.Resolves n id x := by
  induction h with
  | root hw hp => exact .root ((hfind _ .refl).trans hw) hp
  | child hw hp _ ih =>
    exact .child ((hfind _ .refl).trans hw) hp (ih fun i hi => hfind i (hi.head hw hp))

end Resolves

/-- **`Catalog.resolve` finds what `Catalog.Resolves` says.** -/
theorem resolve_eq_ok_iff_resolves : catalog.resolve id = .ok x ↔ ∃ n, catalog.Resolves n id x := by
  have hresolve : ∀ {n y}, n ≤ catalog.length → catalog.Resolves n id y →
      catalog.checkLineage id = .ok () → catalog.resolve id = .ok y := by
    intro n y hn hy hc
    obtain ⟨w, hw, -⟩ := checkFrom_succ_iff.mp hc
    exact resolve_eq_ok_iff.mpr ⟨hc, w, hw, compose_mono hn (hy.compose hw)⟩
  constructor
  · intro h
    have hc := (resolve_eq_ok_iff.mp h).1
    obtain ⟨n, hn, y, hy⟩ := Resolves.of_checkFrom hc
    obtain rfl := Except.ok.inj (h.symm.trans (hresolve hn hy hc))
    exact ⟨n, hy⟩
  · rintro ⟨n, hx⟩
    -- the walk ends well with steps enough, and so it does within the bound
    have hwalk : catalog.checkFrom (n + 1) [] id = .ok () := hx.checkFrom fun _ => nofun
    have hwalk := checkFrom_mono (Nat.succ_le_succ (Nat.le_max_left n catalog.length))
      (List.Subset.refl []) hwalk
    have hc : catalog.checkLineage id = .ok () :=
      (checkFrom_eq_checkLineage (Nat.le_max_right n catalog.length)).symm.trans hwalk
    obtain ⟨m, hm, y, hy⟩ := Resolves.of_checkFrom hc
    obtain ⟨rfl, rfl⟩ := hx.unique hy
    exact hresolve hm hx hc

/-- An id whose walk does not end well is not resolved, for the same reason. -/
theorem resolve_of_error {e : LineageError} (h : catalog.checkLineage id = .error e) :
    catalog.resolve id = .error e := by
  rw [resolve, h]
  rfl

/-! ### Replacing an entry -/

/-- **Resolution reads nothing but what the workflow extends**: with the same entries there, another
catalog gives the same workflow or the same error. -/
theorem resolve_congr (hlength : catalog.length ≤ catalog'.length)
    (h : ∀ i, catalog.Extends id i → Dict.find? catalog' i = Dict.find? catalog i) :
    catalog'.resolve id = catalog.resolve id := by
  have hcheck : catalog'.checkLineage id = catalog.checkLineage id :=
    (checkFrom_congr h).trans (checkFrom_eq_checkLineage hlength)
  cases hc : catalog.checkLineage id with
  | error e => rw [resolve_of_error hc, resolve_of_error (hcheck.trans hc)]
  | ok =>
    obtain ⟨n, -, x, hx⟩ := Resolves.of_checkFrom hc
    rw [resolve_eq_ok_iff_resolves.mpr ⟨n, hx⟩, resolve_eq_ok_iff_resolves.mpr ⟨n, hx.congr h⟩]

/-- What extends an id that two catalogs resolve alike is resolved alike, if the catalogs agree but
for this id. -/
theorem Extends.exists_resolves {i t : String} (h : catalog.Extends i t)
    (hfind : ∀ k, k ≠ id → Dict.find? catalog' k = Dict.find? catalog k)
    (hid : ∃ n m x, catalog.Resolves n id x ∧ catalog'.Resolves m id x)
    (ht : ∃ n m x, catalog.Resolves n t x ∧ catalog'.Resolves m t x) :
    ∃ n m x, catalog.Resolves n i x ∧ catalog'.Resolves m i x := by
  induction h with
  | refl => exact ht
  | @parent k w p _ hw hp ih =>
    apply ih
    by_cases hk : k = id
    · exact hk ▸ hid
    · obtain ⟨n, m, u, hu, hu'⟩ := ht
      exact ⟨n + 1, m + 1, u.merge w, .child hw hp hu, .child ((hfind k hk).trans hw) hp hu'⟩

/-- **Resolving a workflow in place changes no resolution.** With the resolved workflow stored under
its id, each id is resolved to the same workflow as before, or is not resolved for the same
reason. -/
theorem resolve_insert {r : Workflow} (h : catalog.resolve id = .ok r) :
    ∀ i, Catalog.resolve (Dict.insert catalog id r) i = catalog.resolve i := by
  intro i
  have hfind : ∀ k, k ≠ id → Dict.find? (Dict.insert catalog id r) k = Dict.find? catalog k :=
    fun k hk => Dict.find?_insert_of_ne catalog r hk
  obtain ⟨n, hr⟩ := resolve_eq_ok_iff_resolves.mp h
  by_cases hext : catalog.Extends i id
  · -- what extends the entry comes to the same workflow through it
    have hid : ∃ n m x, catalog.Resolves n id x ∧
        Catalog.Resolves (Dict.insert catalog id r) m id x :=
      ⟨n, 0, r, hr, .root (Dict.find?_insert_self catalog id r) hr.extends_nothing⟩
    obtain ⟨n, m, x, hx, hx'⟩ := hext.exists_resolves hfind hid hid
    rw [resolve_eq_ok_iff_resolves.mpr ⟨n, hx⟩, resolve_eq_ok_iff_resolves.mpr ⟨m, hx'⟩]
  · -- what does not extend it does not come by it
    apply resolve_congr (Dict.length_le_length_insert catalog id r)
    intro k hk
    apply hfind
    rintro rfl
    exact hext hk

/-- The middle one of three workflows, resolved in place. -/
theorem resolve_insert_middle : ∃ r, threeLevels.resolve "middle" = .ok r ∧
    r.steps.map Step.id = ["a", "x", "b"] ∧
    Catalog.resolve (Dict.insert threeLevels "middle" r) "leaf" = threeLevels.resolve "leaf" := by
  have hr : threeLevels.resolve "middle" = .ok _ := rfl
  exact ⟨_, hr, rfl, resolve_insert hr "leaf"⟩

end Catalog

end WorkflowEngine
