import WorkflowEngine.Folder
import WorkflowEngine.Proofs.Dict
import WorkflowEngine.Proofs.Run.World

/-!
# Folders of workflows

Each file of a folder either gives the folder a workflow or is a failure: it has no workflow, or a
file before it has one with the same id. So no id stands twice in a folder, and it does not matter
whether the workflows are looked up in the folder or in a store that was filled from it.

## Main definitions

* `Folder.firstWith?`: the file in which a workflow with an id was read first
* `Folder.fate`, `Folder.fates`: what becomes of a file, and of several ones

## Main results

* `Folder.entries_ofLoads`, `Folder.failures_ofLoads`: each file is an entry or a failure
* `Folder.pathOf?_ofLoads`: the file of a workflow
* `Folder.catalog_store`: the workflows of the store are those of the folder
* `Folder.resolves_as_stored`: a workflow is resolved the same way in the folder and in the store
-/

namespace WorkflowEngine

namespace Folder

/-- A file and what was read from it. -/
abbrev Load := String × Except WorkflowError Workflow

/-- A file, if a workflow with an id was read from it. -/
def Load.with? (id : String) (x : Load) : Option String :=
  match x.2 with
  | .ok w => if w.id = id then some x.1 else none
  | .error _ => none

/-- The file in which a workflow with an id was read first. -/
def firstWith? (loads : List Load) (id : String) : Option String := loads.findSome? (Load.with? id)

/-- What becomes of a file that is read after others: it gives the folder its workflow, or it is a
failure, with the reason. -/
def fate (before : List Load) (x : Load) : (String × Workflow) ⊕ (String × String) :=
  match x.2 with
  | .error e => .inr (x.1, e.message)
  | .ok w =>
    match firstWith? before w.id with
    | some first => .inr (x.1, duplicateMessage w.id first)
    | none => .inl (x.1, w)

variable {before : List Load} {path first : String} {w : Workflow} {e : WorkflowError}

theorem fate_error : fate before (path, .error e) = .inr (path, e.message) := rfl

/-- A file whose id is taken is a failure. -/
theorem fate_of_taken (h : firstWith? before w.id = some first) :
    fate before (path, .ok w) = .inr (path, duplicateMessage w.id first) := by
  simp only [fate, h]

/-- The first file with an id gives the folder its workflow. -/
theorem fate_of_free (h : firstWith? before w.id = none) :
    fate before (path, .ok w) = .inl (path, w) := by
  simp only [fate, h]

/-- What becomes of the files that are read after others. -/
def fates (before : List Load) : List Load → List ((String × Workflow) ⊕ (String × String))
  | [] => []
  | x :: loads => fate before x :: fates (before ++ [x]) loads

theorem fates_append (before loads loads' : List Load) :
    fates before (loads ++ loads') = fates before loads ++ fates (before ++ loads) loads' := by
  induction loads generalizing before with
  | nil => simp [fates]
  | cons x loads ih => simp [fates, ih]

@[simp] theorem length_fates (before loads : List Load) :
    (fates before loads).length = loads.length := by
  induction loads generalizing before with
  | nil => rfl
  | cons x loads ih => simp [fates, ih]

/-- What becomes of a file depends on the files before it. -/
theorem getElem?_fates (before x after : List Load) (y : Load) :
    (fates before (x ++ y :: after))[x.length]? = some (fate (before ++ x) y) := by
  rw [fates_append, List.getElem?_append_right (by simp)]
  simp [fates]

theorem firstWith?_append_singleton (loads : List Load) (x : Load) (id : String) :
    firstWith? (loads ++ [x]) id = (firstWith? loads id).or (x.with? id) := by
  rw [firstWith?, firstWith?, List.findSome?_append]
  congr 1
  cases hx : x.with? id <;> simp [hx]

/-! ### One file after the other -/

theorem ofLoads_append_singleton (root : String) (loads : List Load) (x : Load) :
    ofLoads root (loads ++ [x]) = (ofLoads root loads).add x.1 x.2 := by
  rw [ofLoads, List.foldl_append]
  rfl

section

variable {f : Folder} {before : List Load} (h : ∀ id, f.pathOf? id = firstWith? before id)

include h

/-- A file that is read gives the folder its workflow, unless it is a failure. -/
theorem entries_add (x : Load) :
    (f.add x.1 x.2).entries = f.entries ++ (fate before x).getLeft?.toList := by
  obtain ⟨path, e | w⟩ := x
  · simp [add, fate]
  · simp only [add, fate, h]
    cases firstWith? before w.id <;> simp

/-- A file that is read is a failure, unless it gives the folder its workflow. -/
theorem failures_add (x : Load) :
    (f.add x.1 x.2).failures = f.failures ++ (fate before x).getRight?.toList := by
  obtain ⟨path, e | w⟩ := x
  · simp [add, fate]
  · simp only [add, fate, h]
    cases firstWith? before w.id <;> simp

/-- The file of a workflow that is found stays the file of that workflow. -/
theorem pathOf?_add (x : Load) (id : String) :
    (f.add x.1 x.2).pathOf? id = firstWith? (before ++ [x]) id := by
  have hfind : (f.add x.1 x.2).pathOf? id =
      (f.pathOf? id).or (((fate before x).getLeft?.toList.find? fun e => e.2.id == id).map
        Prod.fst) := by
    rw [pathOf?, pathOf?, entries_add h x, List.find?_append, Option.map_or]
  rw [hfind, firstWith?_append_singleton, h id]
  obtain ⟨path, e | w⟩ := x
  · rfl
  cases hw : firstWith? before w.id with
  | none =>
    rw [fate_of_free hw]
    by_cases hid : w.id = id <;> simp [Load.with?, hid]
  | some first =>
    rw [fate_of_taken hw]
    -- the id of the workflow is taken
    by_cases hid : w.id = id
    · rw [← hid, hw]
      rfl
    · simp [Load.with?, hid]

end

/-- **The file of a workflow** is the first one in which a workflow with its id was read. -/
theorem pathOf?_ofLoads (root : String) (loads : List Load) (id : String) :
    (ofLoads root loads).pathOf? id = firstWith? loads id := by
  -- Induction on the files, the last one first.
  induction loads using List.reverseRecOn generalizing id with
  | nil => rfl
  | append_singleton loads x ih => rw [ofLoads_append_singleton, pathOf?_add ih]

/-- **The entries of a folder** are the files that give it a workflow, in order. -/
theorem entries_ofLoads (root : String) (loads : List Load) :
    (ofLoads root loads).entries = (fates [] loads).filterMap Sum.getLeft? := by
  induction loads using List.reverseRecOn with
  | nil => rfl
  | append_singleton loads x ih =>
    rw [ofLoads_append_singleton, entries_add (pathOf?_ofLoads root loads), ih, fates_append,
      List.filterMap_append]
    cases hx : fate loads x <;> simp [fates, hx]

/-- **The failures of a folder** are all other files, in order. -/
theorem failures_ofLoads (root : String) (loads : List Load) :
    (ofLoads root loads).failures = (fates [] loads).filterMap Sum.getRight? := by
  induction loads using List.reverseRecOn with
  | nil => rfl
  | append_singleton loads x ih =>
    rw [ofLoads_append_singleton, failures_add (pathOf?_ofLoads root loads), ih, fates_append,
      List.filterMap_append]
    cases hx : fate loads x <;> simp [fates, hx]

theorem pathOf?_eq_none_iff {f : Folder} {id : String} :
    f.pathOf? id = none ↔ id ∉ f.entries.map fun e => e.2.id := by
  simp [pathOf?]

/-- No id stands twice in a folder. -/
theorem nodup_ids_ofLoads (root : String) (loads : List Load) :
    ((ofLoads root loads).entries.map fun e => e.2.id).Nodup := by
  induction loads using List.reverseRecOn with
  | nil => exact List.nodup_nil
  | append_singleton loads x ih =>
    have hpath := pathOf?_ofLoads root loads
    rw [ofLoads_append_singleton, entries_add hpath, List.map_append]
    obtain ⟨path, e | w⟩ := x
    · simpa [fate_error] using ih
    cases hw : firstWith? loads w.id with
    | some first => simpa [fate_of_taken hw] using ih
    | none =>
      have hnew := pathOf?_eq_none_iff.mp ((hpath w.id).trans hw)
      rw [fate_of_free hw]
      exact (List.perm_append_singleton _ _).nodup_iff.mpr (List.nodup_cons.mpr ⟨hnew, ih⟩)

/-! ### The workflows of the store -/

/-- The entries of a catalog that was filled with workflows stand under their ids. -/
theorem ofList_values (ws : List Workflow) :
    Dict.ofList (((Dict.ofList (ws.map fun w => (w.id, w))).map Prod.snd).map fun w => (w.id, w)) =
      Dict.ofList (ws.map fun w => (w.id, w)) := by
  have hkey : ∀ x ∈ Dict.ofList (ws.map fun w => (w.id, w)), (x.2.id, x.2) = x := by
    intro x hx
    obtain ⟨w, -, rfl⟩ := List.mem_map.mp (Dict.mem_ofList hx)
    rfl
  rw [List.map_map]
  refine (congrArg Dict.ofList ((List.map_congr_left hkey).trans (List.map_id _))).trans ?_
  exact Dict.ofList_of_sorted (Dict.sorted_ofList _)

theorem workflows_foldl_saveWorkflow (ws : List Workflow) (s : Store) :
    (ws.foldl Store.saveWorkflow s).workflows =
      Dict.extend s.workflows (ws.map fun w => (w.id, w)) := by
  induction ws generalizing s with
  | nil => rfl
  | cons w ws ih => exact ih (s.saveWorkflow w)

/-- **The workflows of the store are those of the folder**, under the same ids. -/
theorem catalog_store (f : Folder) : f.store.catalog = f.catalog := by
  have hstore : f.store.workflows = f.catalog := workflows_foldl_saveWorkflow f.workflows {}
  rw [Store.catalog, Store.getWorkflows, hstore]
  exact ofList_values f.workflows

/-- The folder of a directory is that of its files in the order of their paths. -/
theorem exists_loads {files : Files} {root : String} {f : Folder} (h : load files root = .ok f) :
    ∃ paths, workflowFiles files root = .ok paths ∧
      f = ofLoads root (paths.map fun path => (path, Workflow.loadUnchecked files path)) := by
  unfold load at h
  split at h
  · split at h
    next paths hpaths => exact ⟨paths, hpaths, (Except.ok.inj h).symm⟩
    next => cases h
  · cases h

/-- **A workflow is resolved the same way in a folder and in a store that was filled from it.**
Whatever was read from the files, each of them gives the folder its workflow or is a failure, both
in the order of the files. Ids are distinct; the workflow of an id is that of the first file that
has one, and each later file is a failure that names the first one. The workflows that a run asks
the store for resolve each id as the folder does, or fail as the folder does. -/
theorem resolves_as_stored (root : String) (loads : List Load) :
    (∀ files f, load files root = .ok f → ∃ paths, workflowFiles files root = .ok paths ∧
      f = ofLoads root (paths.map fun path => (path, Workflow.loadUnchecked files path))) ∧
    (fates [] loads).length = loads.length ∧
    (∀ before x after, loads = before ++ x :: after →
      (fates [] loads)[before.length]? = some (fate before x)) ∧
    (ofLoads root loads).entries = (fates [] loads).filterMap Sum.getLeft? ∧
    (ofLoads root loads).failures = (fates [] loads).filterMap Sum.getRight? ∧
    ((ofLoads root loads).entries.map fun e => e.2.id).Nodup ∧
    (∀ id, (ofLoads root loads).pathOf? id = firstWith? loads id) ∧
    ∀ world : World, world.faults = [] →
      world.store.workflows = (ofLoads root loads).store.workflows →
      (world.Ends Orchestration.catalog fun r w' => w' = world ∧
        ∃ c, r = .ok c ∧ ∀ id, c.resolve id = (ofLoads root loads).catalog.resolve id) ∧
      ∀ id, world.Ends (Orchestration.resolve id) fun r w' => w' = world ∧
        r = match (ofLoads root loads).catalog.resolve id with
          | .ok w => w.checked.mapError .workflow
          | .error e => .error (.workflow (.lineage e)) := by
  refine ⟨fun files f => exists_loads, length_fates [] loads, ?_, entries_ofLoads root loads,
    failures_ofLoads root loads, nodup_ids_ofLoads root loads, pathOf?_ofLoads root loads,
    fun world hf hworkflows => ?_⟩
  · rintro before x after rfl
    exact getElem?_fates [] before after x
  have hcatalog : world.store.catalog = (ofLoads root loads).catalog := by
    rw [← catalog_store, Store.catalog, Store.getWorkflows, hworkflows]
    rfl
  refine ⟨(world.ends_catalog.of_faults hf).mono ?_, fun id =>
    ((world.ends_resolve id).of_faults hf).mono ?_⟩
  · rintro r w' ⟨rfl, rfl⟩
    exact ⟨rfl, _, rfl, fun id => by rw [hcatalog]⟩
  · rintro r w' ⟨rfl, rfl⟩
    refine ⟨rfl, ?_⟩
    rw [Store.resolved, hcatalog]
    cases (ofLoads root loads).catalog.resolve id <;> rfl

/-- Three files: a workflow, something else, and another workflow with the id of the first. -/
def threeLoads : List Load :=
  [("a.yaml", .ok { (default : Workflow) with id := "w", name := "first" }),
    ("b.yaml", .error .unreadable),
    ("c.yaml", .ok { (default : Workflow) with id := "w", name := "second" })]

/-- The third of three files is a failure that names the first, whose workflow is run. -/
theorem resolves_as_stored_threeLoads :
    (fates [] threeLoads)[2]? =
      some (.inr ("c.yaml", "duplicate workflow id 'w' (already defined in a.yaml)")) ∧
    (ofLoads "wf" threeLoads).failures.map Prod.fst = ["b.yaml", "c.yaml"] ∧
    (World.ofStore (ofLoads "wf" threeLoads).store).Ends Orchestration.catalog fun r _ =>
      ∃ c, r = .ok c ∧ (c.resolve "w").map Workflow.name = .ok "first" := by
  obtain ⟨-, -, hfates, -, hfailures, -, -, hworld⟩ := resolves_as_stored "wf" threeLoads
  refine ⟨(hfates (threeLoads.take 2) _ [] rfl).trans rfl, hfailures ▸ rfl,
    ((hworld (World.ofStore _) rfl rfl).1).mono ?_⟩
  rintro r w' ⟨-, c, rfl, hc⟩
  exact ⟨c, rfl, (congrArg (Except.map Workflow.name) (hc "w")).trans rfl⟩

end Folder

end WorkflowEngine
