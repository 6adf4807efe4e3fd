import Mathlib.Data.List.Sort
import Mathlib.Data.Prod.Lex
import WorkflowEngine.Proofs.Dict
import WorkflowEngine.Store

/-!
# Listings of what is kept

Listings are in an order of their own. Where each record has its own id, the order leaves nothing
open: what is listed depends on which records there are, and not on how they came to be kept.

## Main definitions

* `Execution.rank`: when a record began, and its id
* `Store.HasOwnIds`: each record has its own id, and so has each workflow

## Main results

* `Store.comesBefore_iff_rank`: listings are by rank, the highest first
* `Store.mem_listExecutions`, `Store.pairwise_listExecutions`: which records are listed, and how
* `Store.listExecutions_congr`, `Store.listExecutions_perm`: the same records have the same listing
* `Store.mem_getWorkflows`, `Store.pairwise_getWorkflows`, `Store.getWorkflows_congr`,
  `Store.getWorkflows_perm`: the same of workflows
-/

namespace WorkflowEngine

/-- When a record began, and its id. -/
def Execution.rank (e : Execution) : Int ×ₗ Nat ×ₗ Nat :=
  toLex (e.startedAt.seconds, toLex (e.startedAt.nanos, e.id.value))

theorem Execution.id_eq_of_rank_eq {a b : Execution} (h : a.rank = b.rank) : a.id = b.id := by
  have hid : a.id.value = b.id.value := congrArg (fun x => (ofLex (ofLex x).2).2) h
  exact congrArg Uuid.mk hid

namespace Store

/-! ### The order of listings -/

/-- **Listings are by rank, the highest first.** -/
theorem comesBefore_iff_rank {a b : Execution} : comesBefore a b = true ↔ b.rank < a.rank := by
  obtain ⟨⟨aid⟩, _, _, _, _, _, _, _, ⟨as, an⟩, _, _⟩ := a
  obtain ⟨⟨bid⟩, _, _, _, _, _, _, _, ⟨bs, bn⟩, _, _⟩ := b
  simp only [comesBefore, Timestamp.before, Execution.rank, Prod.Lex.toLex_lt_toLex,
    Bool.or_eq_true, Bool.and_eq_true, decide_eq_true_eq, beq_iff_eq, Timestamp.mk.injEq]
  omega

/-- Each record has its own id, and so has each workflow, and workflows are kept in order. -/
structure HasOwnIds (s : Store) : Prop where
  executions : (s.executions.map Execution.id).Nodup
  workflows : Dict.Sorted s.workflows
  keys : ∀ x ∈ s.workflows, x.1 = x.2.id

variable {s s' : Store}

/-! ### Records -/

theorem HasOwnIds.eq_of_id_eq (h : s.HasOwnIds) {a b : Execution} (ha : a ∈ s.executions)
    (hb : b ∈ s.executions) (hid : a.id = b.id) : a = b :=
  List.inj_on_of_nodup_map h.executions ha hb hid

/-- The record under an id is the one that has it. -/
theorem getExecution?_eq_some_iff (h : s.HasOwnIds) {id : Uuid} {e : Execution} :
    s.getExecution? id = some e ↔ e ∈ s.executions ∧ e.id = id := by
  refine ⟨fun hfind => ⟨List.mem_of_find?_eq_some hfind, by simpa using List.find?_some hfind⟩,
    fun ⟨hmem, hid⟩ => ?_⟩
  cases hfind : s.getExecution? id with
  | none => exact absurd (List.find?_eq_none.mp hfind e hmem) (by simpa using hid)
  | some e' =>
    have hid' : e'.id = id := by simpa using List.find?_some hfind
    rw [h.eq_of_id_eq (List.mem_of_find?_eq_some hfind) hmem (hid'.trans hid.symm)]

/-- The records of a listing are sorted by rank. -/
theorem listExecutions_eq (h : s.HasOwnIds) (workflow : Option String) :
    s.listExecutions workflow =
      (s.executions.filter fun e => workflow.all fun id => e.workflowId == id).mergeSort
        fun a b => decide (b.rank ≤ a.rank) := by
  have hsort := List.map_mergeSort (r := fun a b : Execution => comesBefore a b || a.id == b.id)
    (s := fun a b => decide (b.rank ≤ a.rank)) (f := id)
    (l := s.executions.filter fun e => workflow.all fun id => e.workflowId == id)
  simp only [List.map_id, id] at hsort
  refine hsort fun a ha b hb => ?_
  have heq : a.id = b.id ↔ a.rank = b.rank :=
    ⟨fun hid => by rw [h.eq_of_id_eq (List.mem_filter.mp ha).1 (List.mem_filter.mp hb).1 hid],
      Execution.id_eq_of_rank_eq⟩
  rw [Bool.eq_iff_iff, Bool.or_eq_true, comesBefore_iff_rank, beq_iff_eq, heq, decide_eq_true_iff,
    le_iff_lt_or_eq, eq_comm]

/-- **A listing has the records of the workflow**, or all of them. -/
theorem mem_listExecutions (h : s.HasOwnIds) {workflow : Option String} {e : Execution} :
    e ∈ s.listExecutions workflow ↔
      s.getExecution? e.id = some e ∧ ∀ id, workflow = some id → e.workflowId = id := by
  rw [listExecutions, List.mem_mergeSort, List.mem_filter, getExecution?_eq_some_iff h]
  cases workflow <;> simp

/-- A listing has each record once. -/
theorem nodup_listExecutions (h : s.HasOwnIds) (workflow : Option String) :
    ((s.listExecutions workflow).map Execution.id).Nodup := by
  have hfilter := h.executions.sublist (List.Sublist.map Execution.id
    (List.filter_sublist (p := fun e : Execution => workflow.all fun id => e.workflowId == id)))
  exact ((List.mergeSort_perm _ _).map Execution.id).nodup_iff.mpr hfilter

/-- **The later records are first**, and of those that began at one time the ones with greater
ids. -/
theorem pairwise_listExecutions (h : s.HasOwnIds) (workflow : Option String) :
    (s.listExecutions workflow).Pairwise fun a b => comesBefore a b = true := by
  have hle : (s.listExecutions workflow).Pairwise fun a b => decide (b.rank ≤ a.rank) = true := by
    rw [listExecutions_eq h]
    refine List.pairwise_mergeSort (fun a b c hab hbc => ?_) (fun a b => ?_) _
    · simp only [decide_eq_true_eq] at hab hbc ⊢
      exact hbc.trans hab
    · simpa using le_total b.rank a.rank
  have hids : (s.listExecutions workflow).Pairwise fun a b => a.id ≠ b.id :=
    List.pairwise_map.mp (nodup_listExecutions h workflow)
  refine (hle.and hids).imp fun {a b} ⟨hab, hid⟩ => comesBefore_iff_rank.mpr ?_
  refine lt_of_le_of_ne (by simpa using hab) fun heq => hid ?_
  exact (Execution.id_eq_of_rank_eq heq).symm

/-- **The same records have the same listing.** -/
theorem listExecutions_congr (h : s.HasOwnIds) (h' : s'.HasOwnIds)
    (hsame : ∀ id, s'.getExecution? id = s.getExecution? id) (workflow : Option String) :
    s'.listExecutions workflow = s.listExecutions workflow := by
  have hirrefl : Std.Irrefl fun a b : Execution => comesBefore a b = true :=
    ⟨fun a ha => lt_irrefl _ (comesBefore_iff_rank.mp ha)⟩
  have hantisymm : Std.Antisymm fun a b : Execution => comesBefore a b = true :=
    ⟨fun a b hab hba =>
      absurd (comesBefore_iff_rank.mp hab) (comesBefore_iff_rank.mp hba).asymm⟩
  refine List.Pairwise.eq_of_mem_iff (pairwise_listExecutions h' workflow)
    (pairwise_listExecutions h workflow) fun e => ?_
  rw [mem_listExecutions h', mem_listExecutions h, hsame]

/-- **The order in which records are kept has no effect on a listing.** -/
theorem listExecutions_perm (h : s.HasOwnIds) {kept : List Execution}
    (hkept : kept.Perm s.executions) (workflow : Option String) :
    listExecutions { s with executions := kept } workflow = s.listExecutions workflow := by
  have h' : HasOwnIds { s with executions := kept } :=
    ⟨(hkept.map Execution.id).nodup_iff.mpr h.executions, h.workflows, h.keys⟩
  refine listExecutions_congr h h' (fun id => ?_) workflow
  refine Option.ext fun e => ?_
  rw [getExecution?_eq_some_iff h', getExecution?_eq_some_iff h, hkept.mem_iff]

/-! ### Workflows -/

/-- **All workflows are told**: those found under their ids. -/
theorem mem_getWorkflows (h : s.HasOwnIds) {w : Workflow} :
    w ∈ s.getWorkflows ↔ s.getWorkflow? w.id = some w := by
  refine ⟨fun hmem => ?_, fun hfind => ?_⟩
  · obtain ⟨⟨key, w'⟩, hx, rfl⟩ := List.mem_map.mp hmem
    obtain rfl : key = w'.id := h.keys _ hx
    exact h.workflows.mem_iff.mp hx
  · exact List.mem_map_of_mem (f := Prod.snd) (Dict.mem_of_find? hfind)

/-- **Workflows are told in the order of their ids**, each once. -/
theorem pairwise_getWorkflows (h : s.HasOwnIds) :
    s.getWorkflows.Pairwise fun a b => a.id < b.id := by
  refine List.pairwise_map.mpr (h.workflows.imp_of_mem fun {x y} hx hy hlt => ?_)
  rwa [← h.keys x hx, ← h.keys y hy]

/-- **The same workflows are told in the same order.** -/
theorem getWorkflows_congr (h : s.HasOwnIds) (h' : s'.HasOwnIds)
    (hsame : ∀ id, s'.getWorkflow? id = s.getWorkflow? id) : s'.getWorkflows = s.getWorkflows :=
  congrArg (List.map Prod.snd) (h'.workflows.ext h.workflows hsame)

/-- **The order in which workflows are kept has no effect**: sorted by id, they are as told. -/
theorem getWorkflows_perm (h : s.HasOwnIds) {kept : List Workflow}
    (hkept : kept.Perm s.getWorkflows) :
    kept.mergeSort (fun a b => decide (a.id ≤ b.id)) = s.getWorkflows := by
  have hperm := (List.mergeSort_perm kept fun a b => decide (a.id ≤ b.id)).trans hkept
  have hkept : (kept.mergeSort fun a b => decide (a.id ≤ b.id)).Pairwise fun a b =>
      decide (a.id ≤ b.id) = true :=
    List.pairwise_mergeSort
      (fun a b c hab hbc => by
        simp only [decide_eq_true_eq] at hab hbc ⊢
        exact String.le_trans hab hbc)
      (fun a b => by simpa using String.le_total a.id b.id) kept
  have hlisted : s.getWorkflows.Pairwise fun a b => decide (a.id ≤ b.id) = true :=
    (pairwise_getWorkflows h).imp fun hab => by simpa using String.not_lt.mp (String.lt_asymm hab)
  refine hperm.eq_of_pairwise (fun a b ha hb hab hba => ?_) hkept hlisted
  have ha' := (mem_getWorkflows h).mp (hperm.mem_iff.mp ha)
  have hb' := (mem_getWorkflows h).mp hb
  rw [String.le_antisymm (of_decide_eq_true hab) (of_decide_eq_true hba), hb'] at ha'
  exact (Option.some.inj ha').symm

end Store

end WorkflowEngine
