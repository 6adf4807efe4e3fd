import WorkflowEngine.Proofs.Store.Listing

/-!
# Sequences of operations of the store

A store that begins empty is told by the operations that were served: under an id there is what was
written last, a write that fails changes nothing, and listings depend on nothing else.

## Main definitions

* `Store.Operation`, `Store.serve`: the operations, and what serving one answers and leaves
* `Store.history`, `Store.after`: the operations served one after the other, and what they leave
* `Store.lastWorkflow?`, `Store.lastExecution?`, `Store.lastWorkItem?`: what was written last under
  an id
* `Store.IsMapOf`, `Store.ListsItsContents`: what is found in a store, and what it lists

## Main results

* `Store.HasOwnIds.serve`, `Store.hasOwnIds_after`: each record keeps an id of its own
* `Store.getWorkflow?_after`, `Store.getExecution?_after`, `Store.getWorkItem?_after`: what is found
  is what was written last
* `Store.serve_createExecution`, `Store.serve_updateExecution`: when writes of records fail
* `Store.is_map_with_listings`: the store is a map, with listings that depend on its records alone
-/

namespace WorkflowEngine.Store

/-- An operation of the store. -/
inductive Operation where
  | saveWorkflow (w : Workflow)
  | createExecution (e : Execution)
  | updateExecution (e : Execution)
  | insertWorkItem (item : WorkItem)
  | getWorkflows
  | getWorkflow (id : String)
  | getExecution (id : Uuid)
  | listExecutions (workflow : Option String)
  | getWorkItem (id : String)

/-- What an operation answers with. -/
@[reducible]
def Operation.Answer : Operation → Type
  | .saveWorkflow _ | .insertWorkItem _ => Unit
  | .createExecution _ | .updateExecution _ => Except StoreError Unit
  | .getWorkflows => List Workflow
  | .getWorkflow _ => Option Workflow
  | .getExecution _ => Option Execution
  | .listExecutions _ => List Execution
  | .getWorkItem _ => Option WorkItem

/-- What is kept after a write that may fail. -/
def settle (s : Store) : Except StoreError Store → Except StoreError Unit × Store
  | .ok s' => (.ok (), s')
  | .error err => (.error err, s)

/-- The answer to an operation, and what is kept after it. -/
def serve (s : Store) : (op : Operation) → op.Answer × Store
  | .saveWorkflow w => ((), s.saveWorkflow w)
  | .createExecution e => s.settle (s.createExecution e)
  | .updateExecution e => s.settle (s.updateExecution e)
  | .insertWorkItem item => ((), s.insertWorkItem item)
  | .getWorkflows => (s.getWorkflows, s)
  | .getWorkflow id => (s.getWorkflow? id, s)
  | .getExecution id => (s.getExecution? id, s)
  | .listExecutions workflow => (s.listExecutions workflow, s)
  | .getWorkItem id => (s.getWorkItem? id, s)

/-- An operation that was served, with its answer. -/
abbrev Served := Σ op : Operation, op.Answer

/-- The operations served one after the other, with their answers. -/
def history (s : Store) : List Operation → List Served
  | [] => []
  | op :: ops => ⟨op, (s.serve op).1⟩ :: history (s.serve op).2 ops

/-- What is kept after operations. -/
def after (s : Store) : List Operation → Store
  | [] => s
  | op :: ops => after (s.serve op).2 ops

/-- The workflow that was written. -/
def Served.workflow? : Served → Option Workflow
  | ⟨.saveWorkflow w, _⟩ => some w
  | _ => none

/-- The record that was written, if the write did not fail. -/
def Served.execution? : Served → Option Execution
  | ⟨.createExecution e, .ok _⟩ => some e
  | ⟨.updateExecution e, .ok _⟩ => some e
  | _ => none

/-- The work item that was written. -/
def Served.workItem? : Served → Option WorkItem
  | ⟨.insertWorkItem item, _⟩ => some item
  | _ => none

/-- The workflow that was written last under an id. -/
def lastWorkflow? (h : List Served) (id : String) : Option Workflow :=
  h.reverse.findSome? fun x => x.workflow?.filter (·.id == id)

/-- The record that was written last under an id. -/
def lastExecution? (h : List Served) (id : Uuid) : Option Execution :=
  h.reverse.findSome? fun x => x.execution?.filter (·.id == id)

/-- The work item that was written last under an id. -/
def lastWorkItem? (h : List Served) (id : String) : Option WorkItem :=
  h.reverse.findSome? fun x => x.workItem?.filter (·.id == id)

/-! ### One operation -/

/-- **A new record fails if its id is there, and nothing is changed**; else it is kept. -/
theorem serve_createExecution (s : Store) (e : Execution) :
    s.serve (.createExecution e) =
      if (s.getExecution? e.id).isSome then
        (.error (.conflict ("execution " ++ e.id.text ++ " already exists")), s)
      else (.ok (), { s with executions := s.executions ++ [e] }) := by
  change s.settle (s.createExecution e) = _
  unfold createExecution
  split <;> rfl

/-- **A new version of a record fails if there is none, and nothing is changed**; else it is kept
in place of the old one. -/
theorem serve_updateExecution (s : Store) (e : Execution) :
    s.serve (.updateExecution e) =
      if (s.getExecution? e.id).isSome then
        (.ok (), { s with
          executions := s.executions.map fun old => if old.id == e.id then e else old })
      else (.error .notFound, s) := by
  change s.settle (s.updateExecution e) = _
  unfold updateExecution
  split <;> rfl

theorem find?_insert_own {α : Type} (own : α → String) (d : Dict α) (a : α) (id : String) :
    Dict.find? (d.insert (own a) a) id = ((some a).filter (own · == id)).or (d.find? id) := by
  by_cases hid : id = own a
  · subst hid
    rw [Dict.find?_insert_self]
    simp [Option.filter_some]
  · rw [Dict.find?_insert_of_ne _ _ hid]
    simp [Ne.symm hid, Option.filter_some]

theorem getExecution?_append_singleton {s : Store} {e : Execution}
    (hnone : s.getExecution? e.id = none) (id : Uuid) :
    getExecution? { s with executions := s.executions ++ [e] } id =
      ((some e).filter (·.id == id)).or (s.getExecution? id) := by
  unfold getExecution? at hnone ⊢
  rw [List.find?_append]
  by_cases hid : e.id = id
  · subst hid
    simp [hnone, Option.filter_some]
  · simp [hid, Option.filter_some]

theorem getExecution?_map_replace {s : Store} {e : Execution}
    (hsome : (s.getExecution? e.id).isSome) (id : Uuid) :
    getExecution? { s with
        executions := s.executions.map fun old => if old.id == e.id then e else old } id =
      ((some e).filter (·.id == id)).or (s.getExecution? id) := by
  have hkey : ∀ old : Execution, (if old.id == e.id then e else old).id = old.id := fun old => by
    split
    next hid => exact (beq_iff_eq.mp hid).symm
    next => rfl
  have hfind : getExecution? { s with
      executions := s.executions.map fun old => if old.id == e.id then e else old } id =
      (s.getExecution? id).map fun old => if old.id == e.id then e else old := by
    unfold getExecution?
    rw [List.find?_map]
    simp only [Function.comp_def, hkey]
  rw [hfind]
  by_cases hid : e.id = id
  · subst hid
    obtain ⟨old, hold⟩ := Option.isSome_iff_exists.mp hsome
    have hold' : old.id = e.id := by simpa using List.find?_some hold
    simp [hold, hold', Option.filter_some]
  · cases hold : s.getExecution? id with
    | none => simp [hid, Option.filter_some]
    | some old =>
      have hold' : old.id = id := by simpa using List.find?_some hold
      simp [hid, hold', Ne.symm hid, Option.filter_some]

variable {s : Store}

/-- **Each record keeps an id of its own**, whatever operation is served. -/
theorem HasOwnIds.serve (h : s.HasOwnIds) (op : Operation) : (s.serve op).2.HasOwnIds := by
  cases op with
  | saveWorkflow w =>
    refine ⟨h.executions, h.workflows.insert w.id w, fun x hx => ?_⟩
    rcases Dict.mem_insert hx with rfl | hx
    · rfl
    · exact h.keys x hx
  | createExecution e =>
    rw [serve_createExecution]
    split
    next => exact h
    next hnew =>
      refine ⟨?_, h.workflows, h.keys⟩
      have hnone : ∀ old ∈ s.executions, old.id ≠ e.id := by
        simpa [getExecution?] using hnew
      rw [List.map_append, List.map_singleton]
      refine List.nodup_append.mpr ⟨h.executions, List.nodup_singleton _, ?_⟩
      rintro id hid id' hid'
      obtain ⟨old, hold, rfl⟩ := List.mem_map.mp hid
      rw [List.mem_singleton.mp hid']
      exact hnone old hold
  | updateExecution e =>
    rw [serve_updateExecution]
    split
    next =>
      refine ⟨?_, h.workflows, h.keys⟩
      have hids : (s.executions.map fun old => if old.id == e.id then e else old).map Execution.id =
          s.executions.map Execution.id := by
        rw [List.map_map]
        refine List.map_congr_left fun old _ => ?_
        rw [Function.comp_apply]
        split
        next hid => exact (beq_iff_eq.mp hid).symm
        next => rfl
      rw [hids]
      exact h.executions
    next => exact h
  | insertWorkItem item => exact ⟨h.executions, h.workflows, h.keys⟩
  | _ => exact h

/-- What is found under an id after an operation: what it wrote there, or else what was there. -/
theorem getWorkflow?_serve (s : Store) (op : Operation) (id : String) :
    (s.serve op).2.getWorkflow? id =
      ((Served.workflow? ⟨op, (s.serve op).1⟩).filter (·.id == id)).or (s.getWorkflow? id) := by
  cases op with
  | saveWorkflow w => exact find?_insert_own Workflow.id s.workflows w id
  | createExecution e =>
    rw [serve_createExecution]
    split <;> rfl
  | updateExecution e =>
    rw [serve_updateExecution]
    split <;> rfl
  | _ => rfl

/-- What is found under an id after an operation: what it wrote there, or else what was there. -/
theorem getExecution?_serve (s : Store) (op : Operation) (id : Uuid) :
    (s.serve op).2.getExecution? id =
      ((Served.execution? ⟨op, (s.serve op).1⟩).filter (·.id == id)).or (s.getExecution? id) := by
  cases op with
  | createExecution e =>
    rw [serve_createExecution]
    split
    next => rfl
    next hnew => exact getExecution?_append_singleton (by simpa using hnew) id
  | updateExecution e =>
    rw [serve_updateExecution]
    split
    next hold => exact getExecution?_map_replace hold id
    next => rfl
  | _ => rfl

/-- What is found under an id after an operation: what it wrote there, or else what was there. -/
theorem getWorkItem?_serve (s : Store) (op : Operation) (id : String) :
    (s.serve op).2.getWorkItem? id =
      ((Served.workItem? ⟨op, (s.serve op).1⟩).filter (·.id == id)).or (s.getWorkItem? id) := by
  cases op with
  | insertWorkItem item => exact find?_insert_own WorkItem.id s.workItems item id
  | createExecution e =>
    rw [serve_createExecution]
    split <;> rfl
  | updateExecution e =>
    rw [serve_updateExecution]
    split <;> rfl
  | _ => rfl

/-! ### Sequences of operations -/

theorem HasOwnIds.after (h : s.HasOwnIds) (ops : List Operation) : (s.after ops).HasOwnIds := by
  induction ops generalizing s with
  | nil => exact h
  | cons op ops ih => exact ih (h.serve op)

/-- What is found after operations is what was written last, if one operation leaves what it writes
or else what was there. -/
theorem found_after {β : Type} (found : Store → Option β) {written : Served → Option β}
    (hserve : ∀ (s : Store) (op : Operation),
      found (s.serve op).2 = (written ⟨op, (s.serve op).1⟩).or (found s))
    (s : Store) (ops : List Operation) :
    found (s.after ops) = ((s.history ops).reverse.findSome? written).or (found s) := by
  induction ops generalizing s with
  | nil => rfl
  | cons op ops ih =>
    rw [after, ih, hserve, history, List.reverse_cons, List.findSome?_append, Option.or_assoc]
    simp

/-- **What is found under an id is the workflow that was written last there.** -/
theorem getWorkflow?_after (s : Store) (ops : List Operation) (id : String) :
    (s.after ops).getWorkflow? id = (lastWorkflow? (s.history ops) id).or (s.getWorkflow? id) :=
  found_after (fun s => s.getWorkflow? id) (fun s op => getWorkflow?_serve s op id) s ops

/-- **What is found under an id is the record that was written last there.** -/
theorem getExecution?_after (s : Store) (ops : List Operation) (id : Uuid) :
    (s.after ops).getExecution? id = (lastExecution? (s.history ops) id).or (s.getExecution? id) :=
  found_after (fun s => s.getExecution? id) (fun s op => getExecution?_serve s op id) s ops

/-- **What is found under an id is the work item that was written last there.** -/
theorem getWorkItem?_after (s : Store) (ops : List Operation) (id : String) :
    (s.after ops).getWorkItem? id = (lastWorkItem? (s.history ops) id).or (s.getWorkItem? id) :=
  found_after (fun s => s.getWorkItem? id) (fun s op => getWorkItem?_serve s op id) s ops

/-- A store that begins empty has an id for each record. -/
theorem hasOwnIds_after (ops : List Operation) : (after {} ops).HasOwnIds := by
  have hempty : HasOwnIds {} :=
    ⟨List.nodup_nil, List.Pairwise.nil, fun x hx => absurd hx List.not_mem_nil⟩
  exact hempty.after ops

/-- **A store is the map that was written.** Under each id there is what was written last. A new
record is refused if its id is there, and a new version of a record if it is not, and then nothing
is changed. -/
structure IsMapOf (s : Store) (h : List Served) : Prop where
  workflow : ∀ id, s.getWorkflow? id = lastWorkflow? h id
  execution : ∀ id, s.getExecution? id = lastExecution? h id
  workItem : ∀ id, s.getWorkItem? id = lastWorkItem? h id
  create : ∀ e, s.serve (.createExecution e) =
    if (lastExecution? h e.id).isSome then
      (.error (.conflict ("execution " ++ e.id.text ++ " already exists")), s)
    else (.ok (), { s with executions := s.executions ++ [e] })
  update : ∀ e, s.serve (.updateExecution e) =
    if (lastExecution? h e.id).isSome then
      (.ok (), { s with
        executions := s.executions.map fun old => if old.id == e.id then e else old })
    else (.error .notFound, s)

/-- **A store lists what it keeps.** A listing has the records of its workflow, each once, the later
ones first and of those that began at one time the ones with greater ids, in whatever order the
records are kept. The workflows are told likewise, by their ids. -/
structure ListsItsContents (s : Store) : Prop where
  mem : ∀ workflow e, e ∈ s.listExecutions workflow ↔
    s.getExecution? e.id = some e ∧ ∀ id, workflow = some id → e.workflowId = id
  sorted : ∀ workflow, (s.listExecutions workflow).Pairwise fun a b => comesBefore a b = true
  ids : ∀ workflow, ((s.listExecutions workflow).map Execution.id).Nodup
  perm : ∀ workflow (kept : List Execution), kept.Perm s.executions →
    listExecutions { s with executions := kept } workflow = s.listExecutions workflow
  mem_workflows : ∀ w, w ∈ s.getWorkflows ↔ s.getWorkflow? w.id = some w
  sorted_workflows : s.getWorkflows.Pairwise fun a b => a.id < b.id
  perm_workflows : ∀ kept : List Workflow, kept.Perm s.getWorkflows →
    kept.mergeSort (fun a b => decide (a.id ≤ b.id)) = s.getWorkflows

theorem isMapOf_after (ops : List Operation) : IsMapOf (after {} ops) (history {} ops) := by
  have hexecution : ∀ id, (after {} ops).getExecution? id = lastExecution? (history {} ops) id :=
    fun id => (getExecution?_after {} ops id).trans (Option.or_none ..)
  refine ⟨fun id => ?_, hexecution, fun id => ?_, fun e => ?_, fun e => ?_⟩
  · exact (getWorkflow?_after {} ops id).trans (Option.or_none ..)
  · exact (getWorkItem?_after {} ops id).trans (Option.or_none ..)
  · rw [serve_createExecution, hexecution]
  · rw [serve_updateExecution, hexecution]

theorem HasOwnIds.listsItsContents (h : s.HasOwnIds) : ListsItsContents s where
  mem _ _ := mem_listExecutions h
  sorted := pairwise_listExecutions h
  ids workflow := nodup_listExecutions h workflow
  perm workflow _ hkept := listExecutions_perm h hkept workflow
  mem_workflows _ := mem_getWorkflows h
  sorted_workflows := pairwise_getWorkflows h
  perm_workflows _ hkept := getWorkflows_perm h hkept

/-- **The store is a map with listings that depend on its contents alone.** After any operations on
an empty store it is the map that was written, and lists what it keeps; and operations that leave
the same records lead to the same listings, and likewise those that leave the same workflows. -/
theorem is_map_with_listings (ops : List Operation) :
    IsMapOf (after {} ops) (history {} ops) ∧ ListsItsContents (after {} ops) ∧
    (∀ others, (∀ id, (after {} others).getExecution? id = (after {} ops).getExecution? id) →
      ∀ workflow, (after {} others).listExecutions workflow =
        (after {} ops).listExecutions workflow) ∧
    ∀ others, (∀ id, (after {} others).getWorkflow? id = (after {} ops).getWorkflow? id) →
      (after {} others).getWorkflows = (after {} ops).getWorkflows :=
  ⟨isMapOf_after ops, (hasOwnIds_after ops).listsItsContents,
    fun others hsame workflow =>
      listExecutions_congr (hasOwnIds_after ops) (hasOwnIds_after others) hsame workflow,
    fun others hsame => getWorkflows_congr (hasOwnIds_after ops) (hasOwnIds_after others) hsame⟩

end WorkflowEngine.Store
