import WorkflowEngine.Proofs.Workflow.Replacement

/-!
# The chain behind a resolved workflow

Three walks go over what a workflow extends: the check, which stops at an id that it has met before,
the listing of the ids and the merge, which both go on for as long as there is a parent. They go
over the same chain of workflows. If the check fails, then so do the others, with its error. If it
passes, the others come to an end, and the resolved workflow is the merge of the chain, from the
workflow that extends nothing down to the one that is resolved.

A key or a field of the resolved workflow comes from the nearest workflow of the chain that has it,
however long the chain is. For keys this takes dictionaries in order: where a key stands twice, a
merge takes the last entry and a search the first.

## Main definitions

* `Workflow.IsSorted`: the dictionaries of a workflow are in order
* `Workflow.Inherits`: the fields of a workflow come from the nearest one of a chain that has them
* `Catalog.Chain`: workflows each of which extends the next one, up to one that extends nothing

## Main results

* `Workflow.inherits_foldl`: where the fields of merged workflows come from
* `Catalog.Chain.resolves`: what resolution makes of a chain
* `Catalog.resolve_eq_foldl_chain`: resolution agrees with the check and with the listing
-/

namespace WorkflowEngine

namespace Workflow

/-- The dictionaries of a workflow are in order, each key once. -/
structure IsSorted (w : Workflow) : Prop where
  parameters : Dict.Sorted w.parameters
  vars : Dict.Sorted w.vars
  metadata : Dict.Sorted w.metadata

/-- **The fields of a workflow come from the nearest one of a chain that has them**, and keys do so
one by one. Only the first of the chain says whether the workflow is abstract. -/
structure Inherits (u : Workflow) (chain : List Workflow) : Prop where
  extends_nothing : u.parent = none
  isAbstract : chain.head?.map Workflow.isAbstract = some u.isAbstract
  description : u.description = chain.findSome? Workflow.description
  version : u.version = chain.findSome? Workflow.version
  reusable : u.reusable = chain.findSome? Workflow.reusable
  parameters : ∀ key, Dict.find? u.parameters key =
    chain.findSome? fun w => Dict.find? w.parameters key
  vars : ∀ key, Dict.find? u.vars key = chain.findSome? fun w => Dict.find? w.vars key
  metadata : ∀ key, Dict.find? u.metadata key =
    chain.findSome? fun w => Dict.find? w.metadata key

/-- A workflow that extends nothing has its own fields. -/
theorem inherits_root {w : Workflow} (hp : w.parent = none) : w.Inherits [w] where
  extends_nothing := hp
  isAbstract := rfl
  description := by simp
  version := by simp
  reusable := by simp
  parameters := by simp
  vars := by simp
  metadata := by simp

/-- A field that is looked for in the first workflow of a chain and then in the others. -/
theorem findSome?_cons_eq_orElse {α β : Type} (f : α → Option β) (a : α) (l : List α) :
    (a :: l).findSome? f = (f a <|> l.findSome? f) := by
  rw [List.findSome?_cons]
  cases f a with
  | none => rfl
  | some b => rfl

/-- A child has its own fields and for the rest those of its parent. -/
theorem Inherits.merge {u w : Workflow} {chain : List Workflow} (h : u.Inherits chain)
    (hw : w.IsSorted) : (u.merge w).Inherits (w :: chain) where
  extends_nothing := rfl
  isAbstract := rfl
  description := by
    rw [findSome?_cons_eq_orElse, ← h.description]
    rfl
  version := by
    rw [findSome?_cons_eq_orElse, ← h.version]
    rfl
  reusable := by
    rw [findSome?_cons_eq_orElse, ← h.reusable]
    rfl
  parameters key := by
    rw [findSome?_cons_eq_orElse, ← h.parameters]
    exact Dict.find?_extend hw.parameters _ _
  vars key := by
    rw [findSome?_cons_eq_orElse, ← h.vars]
    exact Dict.find?_extend hw.vars _ _
  metadata key := by
    rw [findSome?_cons_eq_orElse, ← h.metadata]
    exact Dict.find?_extend hw.metadata _ _

/-- **Where the fields of merged workflows come from**, if each is merged onto those behind it. -/
theorem inherits_foldl {root : Workflow} (hroot : root.parent = none) {children : List Workflow}
    (hsorted : ∀ w ∈ children, w.IsSorted) :
    (children.reverse.foldl Workflow.merge root).Inherits (children ++ [root]) := by
  induction children with
  | nil => exact inherits_root hroot
  | cons w children ih =>
    rw [List.reverse_cons, List.foldl_append, List.cons_append]
    have ih := ih fun x hx => hsorted x (List.mem_cons_of_mem _ hx)
    exact ih.merge (hsorted w (List.mem_cons_self ..))

end Workflow

namespace Catalog

/-- **Ids and their workflows**, each of which extends the next one, up to one that extends
nothing. -/
inductive Chain (catalog : Catalog) : List String → List Workflow → Prop where
  | root {id : String} {w : Workflow} (hw : Dict.find? catalog id = some w)
      (hp : w.parent = none) : Chain catalog [id] [w]
  | child {id p : String} {w : Workflow} {ids : List String} {chain : List Workflow}
      (hw : Dict.find? catalog id = some w) (hp : w.parent = some p)
      (h : Chain catalog (p :: ids) chain) : Chain catalog (id :: p :: ids) (w :: chain)

variable {catalog : Catalog} {id : String} {ids : List String} {chain : List Workflow}
  {u : Workflow} {n : Nat}

/-- There is a chain behind a resolved workflow. -/
theorem Resolves.exists_chain (h : catalog.Resolves n id u) :
    ∃ ids chain, catalog.Chain (id :: ids) chain := by
  induction h with
  | root hw hp => exact ⟨[], _, .root hw hp⟩
  | child hw hp _ ih =>
    obtain ⟨ids, chain, h⟩ := ih
    exact ⟨_ :: ids, _ :: chain, .child hw hp h⟩

namespace Chain

/-- The workflows of a chain are those under its ids. -/
theorem map_find? (h : catalog.Chain ids chain) :
    ids.map (Dict.find? catalog) = chain.map some := by
  induction h with
  | root hw _ => rw [List.map_singleton, List.map_singleton, hw]
  | child hw _ _ ih => simp [hw, ← ih]

/-- **What resolution makes of a chain**: the last workflow with the others merged onto it, one
after the other, the first one last. -/
theorem resolves (h : catalog.Chain (id :: ids) chain) :
    ∃ children root, chain = children ++ [root] ∧ root.parent = none ∧
      catalog.Resolves ids.length id (children.reverse.foldl Workflow.merge root) := by
  generalize hids : id :: ids = all at h
  induction h generalizing id ids with
  | @root i w hw hp =>
    obtain ⟨rfl, rfl⟩ := List.cons.inj hids
    exact ⟨[], w, rfl, hp, .root hw hp⟩
  | @child i p w rest chain hw hp _ ih =>
    obtain ⟨rfl, rfl⟩ := List.cons.inj hids
    obtain ⟨children, root, rfl, hroot, hr⟩ := ih rfl
    refine ⟨w :: children, root, rfl, hroot, ?_⟩
    rw [List.reverse_cons, List.foldl_append]
    exact .child hw hp hr

/-- The first workflow extends all those behind it. -/
theorem extends_of_mem (h : catalog.Chain (id :: ids) chain) :
    ∀ i ∈ id :: ids, catalog.Extends id i := by
  generalize hids : id :: ids = all at h
  induction h generalizing id ids with
  | root _ _ =>
    obtain ⟨rfl, rfl⟩ := List.cons.inj hids
    intro i hi
    rw [List.mem_singleton.mp hi]
    exact .refl
  | child hw hp _ ih =>
    obtain ⟨rfl, rfl⟩ := List.cons.inj hids
    intro i hi
    rcases List.mem_cons.mp hi with rfl | hi
    · exact .refl
    · exact (ih rfl i hi).head hw hp

/-- No id stands twice in a chain. A workflow that extended itself would be resolved over two
numbers of workflows. -/
theorem nodup (h : catalog.Chain ids chain) : ids.Nodup := by
  induction h with
  | root _ _ => exact List.nodup_singleton _
  | @child id p w ids chain hw hp h ih =>
    refine List.nodup_cons.mpr ⟨fun hmem => ?_, ih⟩
    obtain ⟨_, _, -, -, hr⟩ := h.resolves
    obtain ⟨m, hm, y, hy⟩ := hr.of_extends (h.extends_of_mem id hmem)
    have hlength := (hy.unique (.child hw hp hr)).1
    omega

/-- The listing gives the ids of the chain, once it may take steps enough. -/
theorem ancestors_eq (h : catalog.Chain (id :: ids) chain) (hn : ids.length ≤ n) :
    catalog.ancestors n id = ids := by
  generalize hids : id :: ids = all at h
  induction h generalizing id ids n with
  | root hw hp =>
    obtain ⟨rfl, rfl⟩ := List.cons.inj hids
    cases n with
    | zero => rfl
    | succ n => simp [ancestors, hw, hp]
  | child hw hp _ ih =>
    obtain ⟨rfl, rfl⟩ := List.cons.inj hids
    obtain ⟨n, rfl⟩ := Nat.exists_eq_succ_of_ne_zero (Nat.ne_zero_of_lt hn)
    have hrest := ih (Nat.le_of_succ_le_succ hn) rfl
    simp [ancestors, hw, hp, hrest]

/-- All ids of a chain are keys, so that there are no more of them than there are workflows. -/
theorem length_le (h : catalog.Chain ids chain) : ids.length ≤ catalog.length := by
  refine length_le_of_nodup h.nodup ?_
  induction h with
  | root hw _ => exact List.cons_subset.mpr ⟨Dict.mem_keys_of_find? hw, List.nil_subset _⟩
  | child hw _ _ ih => exact List.cons_subset.mpr ⟨Dict.mem_keys_of_find? hw, ih⟩

end Chain

/-- The listing fails where the check does, with its error. -/
theorem lineage_eq_error_iff {e : LineageError} :
    catalog.lineage id = .error e ↔ catalog.checkLineage id = .error e := by
  unfold lineage
  cases catalog.checkLineage id with
  | error e' => simp [bind, Except.bind]
  | ok _ => exact ⟨nofun, nofun⟩

/-- Resolution fails where the check does, with its error. -/
theorem resolve_eq_error_iff {e : LineageError} :
    catalog.resolve id = .error e ↔ catalog.checkLineage id = .error e := by
  cases hc : catalog.checkLineage id with
  | error e' => simp [resolve_of_error hc]
  | ok _ =>
    obtain ⟨n, -, u, hu⟩ := Resolves.of_checkFrom hc
    rw [resolve_eq_ok_iff_resolves.mpr ⟨n, hu⟩]
    exact ⟨nofun, nofun⟩

/-- **Resolution agrees with the check and with the listing.** It fails where the check does, with
its error, and so does the listing. Otherwise the ids that are listed are those of a chain, each
once; the walk that lists them and the merges go on to its end and no further, whatever more they
may take; and the resolved workflow is the merge of the chain, with fields from the nearest
workflow that has them. -/
theorem resolve_eq_foldl_chain (catalog : Catalog) (id : String) :
    (∀ e, catalog.resolve id = .error e ↔ catalog.checkLineage id = .error e) ∧
    (∀ e, catalog.lineage id = .error e ↔ catalog.checkLineage id = .error e) ∧
    ∀ u, catalog.resolve id = .ok u → ∃ ids children root,
      catalog.lineage id = .ok (id :: ids) ∧ (id :: ids).Nodup ∧
      catalog.Chain (id :: ids) (children ++ [root]) ∧
      (∀ n w, ids.length ≤ n → Dict.find? catalog id = some w →
        catalog.ancestors n id = ids ∧ catalog.compose n w = .ok u) ∧
      u = children.reverse.foldl Workflow.merge root ∧
      ((∀ w ∈ children, w.IsSorted) → u.Inherits (children ++ [root])) := by
  refine ⟨fun e => resolve_eq_error_iff, fun e => lineage_eq_error_iff, fun u hu => ?_⟩
  obtain ⟨n, hn⟩ := resolve_eq_ok_iff_resolves.mp hu
  obtain ⟨ids, chain, hchain⟩ := hn.exists_chain
  obtain ⟨children, root, rfl, hroot, hr⟩ := hchain.resolves
  obtain ⟨rfl, rfl⟩ := hn.unique hr
  have hlength := hchain.length_le
  have hlist : catalog.lineage id = .ok (id :: ids) := by
    unfold lineage
    rw [(resolve_eq_ok_iff.mp hu).1, hchain.ancestors_eq (Nat.le_of_succ_le hlength)]
    rfl
  refine ⟨ids, children, root, hlist, hchain.nodup, hchain, ?_, rfl,
    Workflow.inherits_foldl hroot⟩
  intro m w hm hw
  exact ⟨hchain.ancestors_eq hm, compose_mono hm (hr.compose hw)⟩

/-- A chain of three workflows, the last two of which set variables. -/
def withDefaults : Catalog :=
  [("base", { Workflow.extending none "base" [.asking "a" "base"] with
      vars := [("branch", .str "main"), ("region", .str "north")] }),
    ("leaf", .extending (some "middle") "leaf" [.asking "b" "leaf"]),
    ("middle", { Workflow.extending (some "base") "middle" [] with
      description := some "in the south", vars := [("region", .str "south")] })]

/-- One variable comes from the middle of the chain and one from its end. -/
theorem resolve_eq_foldl_chain_withDefaults : ∃ u,
    withDefaults.resolve "leaf" = .ok u ∧
      withDefaults.lineage "leaf" = .ok ["leaf", "middle", "base"] ∧
      u.description = some "in the south" ∧
      Dict.find? u.vars "region" = some (.str "south") ∧
      Dict.find? u.vars "branch" = some (.str "main") := by
  have hu : withDefaults.resolve "leaf" = .ok _ := rfl
  obtain ⟨ids, children, root, hlist, -, hchain, -, -, hfields⟩ :=
    (resolve_eq_foldl_chain withDefaults "leaf").2.2 _ hu
  -- the ids that are listed determine the chain
  obtain rfl : ids = ["middle", "base"] := (List.cons.inj (Except.ok.inj hlist)).2.symm
  have hworkflows := hchain.map_find?
  obtain ⟨rfl, hroot⟩ := List.append_inj' (List.map_injective_iff.mpr (Option.some_injective _)
    (hworkflows.symm.trans (rfl : _ = [_, _, _].map some)) : children ++ [root] = [_, _] ++ [_]) rfl
  obtain rfl := List.singleton_inj.mp hroot
  have hinherits := hfields ?_
  · exact ⟨_, hu, rfl, hinherits.description, hinherits.vars "region", hinherits.vars "branch"⟩
  · intro w hw
    rcases List.mem_cons.mp hw with rfl | hw
    · exact ⟨.nil, .nil, .nil⟩
    · rw [List.mem_singleton.mp hw]
      exact ⟨.nil, List.pairwise_singleton _ _, .nil⟩

end Catalog

end WorkflowEngine
