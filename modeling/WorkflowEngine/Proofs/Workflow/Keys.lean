import WorkflowEngine.Document.Reading
import WorkflowEngine.Proofs.Data.Values
import WorkflowEngine.Proofs.Workflow.Outline

/-!
# Distinct keys

The cases of a switch are a record, so that no key stands there twice. This is how documents are
read, and compilation keeps it: of a step in a workflow that was compiled, each list is told by the
part of the step that it is, and the lists of the cases are told by their keys.

## Main definitions

* `Step.branches`: the lists that a step holds, each with the part of the step that it is
* `Outline.IsKeyed`: no step has two lists in the same part of it
* `Document.IsKeyed`: the keys of each switch of a document are distinct

## Main results

* `Step.outline_eq`: the outline of a step has the lists that the step holds
* `Document.isKeyed_of_ofDatum?`: documents that were read have distinct keys
* `Document.IsKeyed.of_compile`: compilation keeps the keys distinct
* `Step.eq_of_mem_branches`: lists of a step are told by the parts that they are
-/

namespace WorkflowEngine

/-! ### The lists of a step -/

namespace Step

/-- The lists of steps that a step holds, each with the part of the step that it is. -/
def branches : Step → List (Branch × List Step)
  | .simple .. => []
  | .conditional _ _ ifSteps elseSteps cases defaultSteps =>
    ifSteps.toList.map (.whenTrue, ·) ++ elseSteps.toList.map (.whenFalse, ·) ++
      (cases.getD []).map (fun x => (.case x.1, x.2)) ++ defaultSteps.toList.map (.otherwise, ·)
  | .loop _ _ body => [(.body, body)]
  | .parallel _ _ body => [(.body, body)]

theorem outlineList_eq_map (steps : List Step) : outlineList steps = steps.map outline := by
  induction steps with
  | nil => rfl
  | cons s steps ih => rw [outlineList, ih, List.map_cons]

/-- The outline of a step has the lists that the step holds. -/
theorem outline_eq (s : Step) :
    s.outline = .node (s.id, s.typeName) (s.branches.map fun x => (x.1, x.2.map outline)) := by
  have hoption (branch : Branch) (steps : Option (List Step)) :
      outlineOption branch steps = (steps.toList.map (branch, ·)).map fun x =>
        (x.1, x.2.map outline) := by
    cases steps with
    | none => rfl
    | some steps => exact congrArg (fun l => [(branch, l)]) (outlineList_eq_map steps)
  have hcases (cases : List (String × List Step)) :
      outlineCaseList cases = (cases.map fun x => (Branch.case x.1, x.2)).map fun x =>
        (x.1, x.2.map outline) := by
    induction cases with
    | nil => rfl
    | cons x cases ih => rw [outlineCaseList, ih, outlineList_eq_map, List.map_cons, List.map_cons]
  cases s with
  | simple head leaf => rfl
  | conditional head condition ifSteps elseSteps cases defaultSteps =>
    simp only [outline, branches, List.map_append, hoption]
    cases cases with
    | none => rfl
    | some cases =>
      rw [outlineCases, hcases]
      rfl
  | loop head rule body =>
    rw [outline, outlineList_eq_map]
    rfl
  | parallel head rule body =>
    rw [outline, outlineList_eq_map]
    rfl

end Step

/-! ### Keyed outlines -/

/-- **No step has two lists in the same part of it**, at any depth. As the other parts are one list
each, this says that the keys of a switch are distinct. -/
inductive Outline.IsKeyed {α : Type} : Outline α → Prop where
  | node {label branches} (distinct : (branches.map Prod.fst).Nodup)
      (nested : ∀ x ∈ branches, ∀ t ∈ x.2, IsKeyed t) : IsKeyed (.node label branches)

namespace Outline

variable {α β : Type}

theorem mapList_eq_map (f : α → β) (trees : List (Outline α)) :
    mapList f trees = trees.map (map f) := by
  induction trees with
  | nil => rfl
  | cons t trees ih => rw [mapList, ih, List.map_cons]

theorem mapBranches_eq_map (f : α → β) (branches : List (Branch × List (Outline α))) :
    mapBranches f branches = branches.map fun x => (x.1, x.2.map (map f)) := by
  induction branches with
  | nil => rfl
  | cons x branches ih => rw [mapBranches, ih, mapList_eq_map, List.map_cons]

/-- Other labels make no difference. -/
theorem IsKeyed.map {t : Outline α} (h : t.IsKeyed) (f : α → β) : (t.map f).IsKeyed := by
  induction h with
  | node distinct nested ih =>
    rw [Outline.map, mapBranches_eq_map]
    refine .node ?_ ?_
    · rwa [List.map_map]
    · intro y hy t ht
      obtain ⟨x, hx, rfl⟩ := List.mem_map.mp hy
      obtain ⟨u, hu, rfl⟩ := List.mem_map.mp ht
      exact ih x hx u hu

end Outline

namespace Step

variable {s : Step} {branch : Branch}

/-- The lists of a step whose keys are distinct are told apart by the parts that they are. -/
theorem eq_of_mem_branches (hs : s.outline.IsKeyed) {l l' : List Step}
    (hl : (branch, l) ∈ s.branches) (hl' : (branch, l') ∈ s.branches) : l = l' := by
  rw [outline_eq] at hs
  obtain ⟨hdistinct, -⟩ := hs
  rw [List.map_map] at hdistinct
  exact congrArg Prod.snd (List.inj_on_of_nodup_map hdistinct hl hl' rfl)

theorem isKeyed_of_mem_branches (hs : s.outline.IsKeyed) {l : List Step}
    (hl : (branch, l) ∈ s.branches) {t : Step} (ht : t ∈ l) : t.outline.IsKeyed := by
  rw [outline_eq] at hs
  obtain ⟨-, hnested⟩ := hs
  exact hnested _ (List.mem_map_of_mem hl) _ (List.mem_map_of_mem ht)

end Step

/-! ### Documents -/

/-- **The keys of each switch of a document are distinct**, at whatever depth. -/
def Document.IsKeyed (d : Document) : Prop := ∀ n ∈ d.steps, n.outline.IsKeyed

theorem StepNode.outlineList_eq_map (nodes : List StepNode) :
    outlineList nodes = nodes.map outline := by
  induction nodes with
  | nil => rfl
  | cons n nodes ih => rw [outlineList, ih, List.map_cons]

/-- **Compilation keeps the keys distinct.** -/
theorem Document.IsKeyed.of_compile {d : Document} {w : Workflow} (hd : d.IsKeyed)
    (hw : d.compile = .ok w) : ∀ s ∈ w.steps, s.outline.IsKeyed := by
  have hfinds : Finds _ (fun w : Workflow => Step.outlineList w.steps =
      Outline.mapList StepFields.headline (StepNode.outlineList d.steps)) d.compile :=
    (StepNode.finds_compileList d.steps).map fun _ h => h
  rw [hw] at hfinds
  obtain ⟨-, hkept⟩ := hfinds
  rw [Step.outlineList_eq_map, StepNode.outlineList_eq_map, Outline.mapList_eq_map,
    List.map_map] at hkept
  intro s hs
  have hmem : s.outline ∈ w.steps.map Step.outline := List.mem_map_of_mem hs
  rw [hkept] at hmem
  obtain ⟨n, hn, he⟩ := List.mem_map.mp hmem
  exact he ▸ (hd n hn).map _

/-- What is read of a field that may be absent is read of something. -/
theorem Data.Fields.exists_of_optional {α : Type} {f : Fields} {name : String}
    {read : Datum → Option α} {a : Option α} (h : f.optional name read = some a) :
    ∀ x ∈ a, ∃ e, read e = some x := by
  unfold Fields.optional at h
  split at h
  · cases h
    nofun
  next d hd =>
    obtain ⟨present, -, h⟩ := Option.bind_eq_some_iff.mp h
    split at h
    · obtain ⟨x, hx, h⟩ := Option.bind_eq_some_iff.mp h
      cases h
      rintro _ ⟨⟩
      exact ⟨d, hx⟩
    · cases h
      nofun

namespace StepNode

/-- The outline of a list is keyed if those of its steps are. -/
theorem isKeyed_of_readList {read : Datum → Option StepNode}
    (hread : ∀ d n, read d = some n → n.outline.IsKeyed) {d : Datum} {nodes : List StepNode}
    (h : Data.readList read d = some nodes) : ∀ t ∈ outlineList nodes, t.IsKeyed := by
  obtain ⟨items, -, h⟩ := Option.bind_eq_some_iff.mp h
  rw [outlineList_eq_map]
  intro t ht
  obtain ⟨n, hn, rfl⟩ := List.mem_map.mp ht
  obtain ⟨e, -, he⟩ := Data.exists_of_mem_mapM h n hn
  exact hread e n he

theorem outlineCaseList_eq_map (cases : List (String × List StepNode)) :
    outlineCaseList cases = cases.map fun x => (.case x.1, outlineList x.2) := by
  induction cases with
  | nil => rfl
  | cons x cases ih => rw [outlineCaseList, ih, List.map_cons]

/-- The parts that the lists of a conditional are have distinct names if its cases have distinct
keys. -/
theorem nodup_parts (ifSteps elseSteps defaultSteps : Option (List StepNode))
    {cases : Option (List (String × List StepNode))} (h : ∀ l ∈ cases, (l.map Prod.fst).Nodup) :
    ((outlineOption .whenTrue ifSteps ++ outlineOption .whenFalse elseSteps ++
      outlineCases cases ++ outlineOption .otherwise defaultSteps).map Prod.fst).Nodup := by
  -- the keys are the only parts of which there may be many
  have hcases : ∃ keys : List String, keys.Nodup ∧
      (outlineCases cases).map Prod.fst = keys.map Branch.case := by
    cases cases with
    | none => exact ⟨[], List.nodup_nil, rfl⟩
    | some l => exact ⟨l.map Prod.fst, h l rfl, by simp [outlineCases, outlineCaseList_eq_map]⟩
  obtain ⟨keys, hkeys, hcases⟩ := hcases
  have hkeys : (keys.map Branch.case).Nodup := hkeys.map fun _ _ he => Branch.case.inj he
  simp only [List.map_append, hcases]
  cases ifSteps <;> cases elseSteps <;> cases defaultSteps <;>
    simp [outlineOption, List.nodup_append, hkeys]

/-- A step is keyed if the steps that it holds are and its cases have distinct keys. -/
theorem isKeyed_outline {f : StepFields}
    {ifSteps elseSteps defaultSteps steps : Option (List StepNode)}
    {cases : Option (List (String × List StepNode))}
    (hif : ∀ l ∈ ifSteps, ∀ t ∈ outlineList l, t.IsKeyed)
    (helse : ∀ l ∈ elseSteps, ∀ t ∈ outlineList l, t.IsKeyed)
    (hdistinct : ∀ l ∈ cases, (l.map Prod.fst).Nodup)
    (hcases : ∀ l ∈ cases, ∀ x ∈ l, ∀ t ∈ outlineList x.2, t.IsKeyed)
    (hdefault : ∀ l ∈ defaultSteps, ∀ t ∈ outlineList l, t.IsKeyed)
    (hsteps : ∀ l ∈ steps, ∀ t ∈ outlineList l, t.IsKeyed) :
    (mk f ifSteps elseSteps cases defaultSteps steps).outline.IsKeyed := by
  have hoption {branch : Branch} {l : Option (List StepNode)}
      (h : ∀ l' ∈ l, ∀ t ∈ outlineList l', t.IsKeyed) :
      ∀ x ∈ outlineOption branch l, ∀ t ∈ x.2, t.IsKeyed := by
    cases l with
    | none => exact List.forall_mem_nil _
    | some l => exact List.forall_mem_singleton.mpr (h l rfl)
  have hbody : (Outline.node f [(.body, outlineBody steps)]).IsKeyed := by
    refine .node (List.nodup_singleton _) (List.forall_mem_singleton.mpr ?_)
    cases steps with
    | none => exact List.forall_mem_nil _
    | some l => exact hsteps l rfl
  rw [outline]
  split
  · refine .node (nodup_parts ifSteps elseSteps defaultSteps hdistinct) ?_
    simp only [List.forall_mem_append]
    refine ⟨⟨⟨hoption hif, hoption helse⟩, ?_⟩, hoption hdefault⟩
    cases cases with
    | none => exact List.forall_mem_nil _
    | some l =>
      rw [outlineCases, outlineCaseList_eq_map]
      exact List.forall_mem_map.mpr (hcases l rfl)
  · exact hbody
  · exact hbody
  · exact .node List.nodup_nil (List.forall_mem_nil _)

/-- A step that was read is keyed: its cases were read into a record. -/
theorem isKeyed_of_ofDatumWithin? {depth : Nat} {d : Datum} {n : StepNode}
    (h : ofDatumWithin? depth d = some n) : n.outline.IsKeyed := by
  induction depth generalizing d n with
  | zero => cases h
  | succ depth ih =>
    simp only [ofDatumWithin?, Option.bind_eq_bind, Option.bind_eq_some_iff] at h
    obtain ⟨f, -, fields, -, ifSteps, hif, elseSteps, helse, cases, hcases, defaultSteps, hdefault,
      steps, hsteps, h⟩ := h
    cases h
    have hread : ∀ d n, ofDatumWithin? depth d = some n → n.outline.IsKeyed := fun _ _ => ih
    have hlist {name : String} {a : Option (List StepNode)}
        (h : f.optional name (Data.readList (ofDatumWithin? depth)) = some a) :
        ∀ l ∈ a, ∀ t ∈ outlineList l, t.IsKeyed := by
      intro l hl
      obtain ⟨e, he⟩ := Data.Fields.exists_of_optional h l hl
      exact isKeyed_of_readList hread he
    -- a record is sorted by its keys, whatever order the cases are written in
    have hdict : ∀ l ∈ cases, (l.map Prod.fst).Nodup ∧
        ∀ x ∈ l, ∀ t ∈ outlineList x.2, t.IsKeyed := by
      intro l hl
      obtain ⟨e, he⟩ := Data.Fields.exists_of_optional hcases l hl
      obtain ⟨entries, -, he⟩ := Option.bind_eq_some_iff.mp he
      obtain ⟨ys, hys, he⟩ := Option.bind_eq_some_iff.mp he
      cases he
      refine ⟨(Dict.sorted_ofList ys).nodup_keys, fun x hx => ?_⟩
      obtain ⟨y, -, hy⟩ := Data.exists_of_mem_mapM hys x (Dict.mem_ofList hx)
      obtain ⟨l, hl, rfl⟩ := Option.map_eq_some_iff.mp hy
      exact isKeyed_of_readList hread hl
    exact isKeyed_outline (hlist hif) (hlist helse) (fun l hl => (hdict l hl).1)
      (fun l hl => (hdict l hl).2) (hlist hdefault) (hlist hsteps)

end StepNode

/-- **The keys of each switch of a document that was read are distinct.** -/
theorem Document.isKeyed_of_ofDatum? {x : Datum} {d : Document}
    (h : Document.ofDatum? x = some d) : d.IsKeyed := by
  obtain ⟨f, -, h⟩ := Option.bind_eq_some_iff.mp h
  -- the steps are the tenth of the thirteen fields
  iterate 9 obtain ⟨_, -, h⟩ := Option.bind_eq_some_iff.mp h
  obtain ⟨steps, hsteps, h⟩ := Option.bind_eq_some_iff.mp h
  iterate 3 obtain ⟨_, -, h⟩ := Option.bind_eq_some_iff.mp h
  cases h
  unfold Data.Fields.withDefault at hsteps
  split at hsteps
  · cases hsteps
    nofun
  · have hkeyed := StepNode.isKeyed_of_readList
      (fun _ _ => StepNode.isKeyed_of_ofDatumWithin?) hsteps
    rw [StepNode.outlineList_eq_map] at hkeyed
    exact List.forall_mem_map.mp hkeyed

end WorkflowEngine
