import WorkflowEngine.Proofs.Workflow.Replacement

/-!
# Walks over what workflows extend

From an id, one goes to the id that its workflow extends, and from there on in the same way. Such a
walk ends at a workflow that extends nothing, or at an id that the catalog does not have; or it
comes back to an id and does not end. The check tells which of these it is. It stops where the walk
comes back for the first time, and so it takes no more steps than there are workflows, and one more.

There is one walk of each length. Hence the place where a walk stops is the only one, and what the
check says holds of the whole walk.

## Main definitions

* `Catalog.Walk`: the ids that a walk has passed, and the one that it has come to
* `Catalog.Stops`: a walk does not go on, or has come back for the first time
* `Catalog.verdict`: what the check says of a walk that stops

## Main results

* `Catalog.Walk.eq_of_stops`: a walk stops in one place
* `Catalog.exists_stop`: a walk stops, and the check gives its verdict on it
* `Catalog.checkLineage_decides_walk`: what the check says, and when
-/

namespace WorkflowEngine

namespace Catalog

/-- **A walk from an id**: the ids that it has passed, in their order, and the id that it has come
to. -/
inductive Walk (catalog : Catalog) (start : String) : List String → String → Prop where
  | start : Walk catalog start [] start
  | next {ids id w p} (h : Walk catalog start ids id) (hw : Dict.find? catalog id = some w)
      (hp : w.parent = some p) : Walk catalog start (ids ++ [id]) p

/-- **A walk stops**: it has come back to an id for the first time, or it does not go on. -/
def Stops (catalog : Catalog) (ids : List String) (id : String) : Prop :=
  ids.Nodup ∧ id ∈ ids ∨ (Dict.find? catalog id).bind Workflow.parent = none

/-- **What the check says of a walk that stops.** -/
def verdict (catalog : Catalog) (ids : List String) (id : String) : Except LineageError Unit :=
  if id ∈ ids then .error (.circular (ids ++ [id]))
  else
    match Dict.find? catalog id, ids.getLast? with
    | some _, _ => .ok ()
    | none, some child => .error (.unknownParent child id)
    | none, none => .error (.notFound id)

variable {catalog : Catalog} {start id id' : String} {ids ids' : List String}

/-! ### Walks -/

namespace Walk

/-- A walk goes on from each id that it has passed, to one that it passes too or has come to. -/
theorem exists_next (h : catalog.Walk start ids id) : ∀ x ∈ ids, ∃ w p,
    Dict.find? catalog x = some w ∧ w.parent = some p ∧ p ∈ ids ++ [id] := by
  induction h with
  | start => nofun
  | @next ids id w p _ hw hp ih =>
    intro x hx
    rcases List.mem_append.mp hx with hx | hx
    · obtain ⟨v, q, hv, hq, hmem⟩ := ih x hx
      exact ⟨v, q, hv, hq, List.mem_append_left _ hmem⟩
    · rw [List.mem_singleton.mp hx]
      exact ⟨w, p, hw, hp, List.mem_append_right _ (List.mem_singleton_self p)⟩

theorem subset_keys (h : catalog.Walk start ids id) : ids ⊆ catalog.keys := by
  intro x hx
  obtain ⟨w, p, hw, -⟩ := h.exists_next x hx
  exact Dict.mem_keys_of_find? hw

theorem start_mem (h : catalog.Walk start ids id) : start ∈ ids ++ [id] := by
  induction h with
  | start => exact List.mem_singleton_self _
  | next _ _ _ ih => exact List.mem_append_left _ ih

/-- **A walk that has come back stays among the ids that it has passed.** -/
theorem mem_of_returns (h : catalog.Walk start ids id) (hid : id ∈ ids)
    (h' : catalog.Walk start ids' id') : id' ∈ ids := by
  have hback : ∀ x ∈ ids ++ [id], x ∈ ids := by
    intro x hx
    rcases List.mem_append.mp hx with hx | hx
    · exact hx
    · exact List.mem_singleton.mp hx ▸ hid
  -- Induction on the other walk: what comes next is known of each id that was passed.
  induction h' with
  | start => exact hback _ h.start_mem
  | next _ hw hp ih =>
    obtain ⟨v, q, hv, hq, hmem⟩ := h.exists_next _ ih
    obtain rfl := Option.some.inj (hw.symm.trans hv)
    obtain rfl := Option.some.inj (hp.symm.trans hq)
    exact hback _ hmem

/-- An id from which a walk does not go on has not been passed. -/
theorem not_mem_of_no_next (h : catalog.Walk start ids id) {x : String}
    (hx : (Dict.find? catalog x).bind Workflow.parent = none) : x ∉ ids := by
  intro hmem
  obtain ⟨w, p, hw, hp, -⟩ := h.exists_next x hmem
  rw [hw, Option.bind_some, hp] at hx
  cases hx

theorem eq_start_of_nil (h : catalog.Walk start [] id) : id = start := by
  have hstart := h.start_mem
  rw [List.nil_append] at hstart
  exact (List.mem_singleton.mp hstart).symm

/-- The last step of a walk. -/
theorem of_concat {p : String} (h : catalog.Walk start (ids ++ [id]) p) :
    catalog.Walk start ids id ∧ (Dict.find? catalog id).bind Workflow.parent = some p := by
  generalize hl : ids ++ [id] = l at h
  cases h with
  | start => simp at hl
  | next h hw hp =>
    obtain ⟨rfl, rfl⟩ := List.append_singleton_inj.mp hl
    exact ⟨h, by rw [hw, Option.bind_some, hp]⟩

/-- **There is one walk of each length.** -/
theorem eq_of_length (h : catalog.Walk start ids id) (h' : catalog.Walk start ids' id')
    (hlength : ids.length = ids'.length) : ids = ids' ∧ id = id' := by
  induction h' generalizing ids id with
  | start =>
    obtain rfl := List.length_eq_zero_iff.mp hlength
    exact ⟨rfl, h.eq_start_of_nil⟩
  | @next ids' id' w p _ hw hp ih =>
    rw [List.length_append, List.length_singleton] at hlength
    -- the longer walk has a last step before it too
    obtain ⟨l, x, rfl⟩ : ∃ l x, ids = l ++ [x] :=
      (List.eq_nil_or_concat' ids).resolve_left (by rintro rfl; cases hlength)
    obtain ⟨h, hnext⟩ := h.of_concat
    obtain ⟨rfl, rfl⟩ := ih h (by simpa using hlength)
    rw [hw, Option.bind_some, hp] at hnext
    exact ⟨rfl, (Option.some.inj hnext).symm⟩

/-- A longer walk has passed what a shorter one has come to. -/
theorem isPrefix (h : catalog.Walk start ids id) (h' : catalog.Walk start ids' id')
    (hlt : ids.length < ids'.length) : ids ++ [id] <+: ids' := by
  induction h' with
  | start => cases hlt
  | @next ids' id' w p h' hw hp ih =>
    rw [List.length_append, List.length_singleton] at hlt
    rcases Nat.lt_or_eq_of_le (Nat.le_of_lt_succ hlt) with hlt | heq
    · exact (ih hlt).trans (List.prefix_append _ _)
    · obtain ⟨rfl, rfl⟩ := h.eq_of_length h' heq
      exact List.prefix_rfl

/-- No walk goes on behind the place where it stops. -/
theorem length_le_of_stops (h : catalog.Walk start ids id) (hs : catalog.Stops ids id)
    (h' : catalog.Walk start ids' id') (hs' : catalog.Stops ids' id') :
    ids'.length ≤ ids.length := by
  by_contra hlt
  have hpassed := h.isPrefix h' (Nat.lt_of_not_le hlt)
  rcases hs with ⟨-, hid⟩ | hnone
  · rcases hs' with ⟨hn, -⟩ | hnone
    · -- the longer walk has come back before
      have hnodup := hn.sublist hpassed.sublist
      exact List.disjoint_of_nodup_append hnodup hid (List.mem_singleton_self id)
    · exact h.not_mem_of_no_next hnone (h.mem_of_returns hid h')
  · exact h'.not_mem_of_no_next hnone (hpassed.subset (by simp))

/-- **A walk stops in one place.** -/
theorem eq_of_stops (h : catalog.Walk start ids id) (hs : catalog.Stops ids id)
    (h' : catalog.Walk start ids' id') (hs' : catalog.Stops ids' id') :
    ids = ids' ∧ id = id' :=
  h.eq_of_length h' <|
    Nat.le_antisymm (h'.length_le_of_stops hs' h hs) (h.length_le_of_stops hs h' hs')

end Walk

/-! ### The check -/

/-- The check goes on from a place that the walk has come to, after ids all of which are distinct,
to the place where the walk stops. -/
theorem Walk.exists_stop {n : Nat} (h : catalog.Walk start ids id)
    (hnodup : (ids ++ [id]).Nodup) (hn : catalog.length < n + ids.length) :
    ∃ ids' id', catalog.Walk start ids' id' ∧ catalog.Stops ids' id' ∧
      catalog.checkFrom n ids.reverse id = catalog.verdict ids' id' := by
  -- Induction on the steps that are left; they are as many as there are ids that were not passed.
  induction n generalizing ids id with
  | zero =>
    have hle := length_le_of_nodup (hnodup.sublist (List.sublist_append_left ..)) h.subset_keys
    omega
  | succ n ih =>
    cases hnext : (Dict.find? catalog id).bind Workflow.parent with
    | none =>
      refine ⟨ids, id, h, .inr hnext, ?_⟩
      rw [verdict, if_neg (h.not_mem_of_no_next hnext), checkFrom.eq_def]
      cases hw : Dict.find? catalog id with
      | none =>
        rcases List.eq_nil_or_concat' ids with rfl | ⟨l, child, rfl⟩
        · rfl
        · simp
      | some w =>
        rw [hw, Option.bind_some] at hnext
        simp only [hnext]
    | some p =>
      obtain ⟨w, hw, hp⟩ := Option.bind_eq_some_iff.mp hnext
      have hseen : id :: ids.reverse = (ids ++ [id]).reverse := by simp
      rw [checkFrom_of_parent hw hp, hseen]
      simp only [List.mem_reverse, List.reverse_cons, List.reverse_reverse]
      by_cases hmem : p ∈ ids ++ [id]
      · refine ⟨_, _, h.next hw hp, .inl ⟨hnodup, hmem⟩, ?_⟩
        rw [if_pos hmem, verdict, if_pos hmem]
      · rw [if_neg hmem]
        refine ih (h.next hw hp) ?_ ?_
        · exact List.nodup_append.mpr ⟨hnodup, List.nodup_singleton p,
            fun x hx y hy he => hmem (List.mem_singleton.mp hy ▸ he ▸ hx)⟩
        · rw [List.length_append, List.length_singleton]
          omega

/-- **The check says what becomes of the walk.** -/
theorem exists_stop (catalog : Catalog) (start : String) :
    ∃ ids id, catalog.Walk start ids id ∧ catalog.Stops ids id ∧
      catalog.checkLineage start = catalog.verdict ids id :=
  Walk.start.exists_stop (List.nodup_singleton start) (Nat.lt_succ_self _)

/-- What the check says, read off any place where the walk stops. -/
theorem Walk.checkLineage_eq (h : catalog.Walk start ids id) (hs : catalog.Stops ids id) :
    catalog.checkLineage start = catalog.verdict ids id := by
  obtain ⟨ids', id', h', hs', hv⟩ := catalog.exists_stop start
  obtain ⟨rfl, rfl⟩ := h.eq_of_stops hs h' hs'
  exact hv

/-- The check passes if the walk comes to a workflow that extends nothing. -/
theorem Walk.checkLineage_of_root {w : Workflow} (h : catalog.Walk start ids id)
    (hw : Dict.find? catalog id = some w) (hp : w.parent = none) :
    catalog.checkLineage start = .ok () := by
  have hnone : (Dict.find? catalog id).bind Workflow.parent = none := by
    rw [hw, Option.bind_some, hp]
  rw [h.checkLineage_eq (.inr hnone), verdict, if_neg (h.not_mem_of_no_next hnone), hw]

/-- The check reports a circle if the walk comes back. -/
theorem Walk.checkLineage_of_returns (h : catalog.Walk start ids id) (hn : ids.Nodup)
    (hid : id ∈ ids) : catalog.checkLineage start = .error (.circular (ids ++ [id])) := by
  rw [h.checkLineage_eq (.inl ⟨hn, hid⟩), verdict, if_pos hid]

/-- The check tells where the walk leaves the catalog. -/
theorem Walk.checkLineage_of_leaves (h : catalog.Walk start ids id)
    (hid : Dict.find? catalog id = none) :
    catalog.checkLineage start = .error (match ids.getLast? with
      | some child => .unknownParent child id
      | none => .notFound id) := by
  have hnone : (Dict.find? catalog id).bind Workflow.parent = none := by
    rw [hid, Option.bind_none]
  rw [h.checkLineage_eq (.inr hnone), verdict, if_neg (h.not_mem_of_no_next hnone), hid]
  cases ids.getLast? <;> rfl

theorem Walk.checkLineage_of_unknownParent {child : String}
    (h : catalog.Walk start (ids ++ [child]) id) (hid : Dict.find? catalog id = none) :
    catalog.checkLineage start = .error (.unknownParent child id) := by
  rw [h.checkLineage_of_leaves hid, List.getLast?_concat]

/-- **What becomes of a walk**, and what the check says of it: the walk comes to a workflow that
extends nothing, comes back, or leaves the catalog, perhaps at once. -/
theorem checkLineage_cases (catalog : Catalog) (start : String) :
    (∃ ids id w, catalog.Walk start ids id ∧ Dict.find? catalog id = some w ∧ w.parent = none ∧
      catalog.checkLineage start = .ok ()) ∨
    (∃ ids id, catalog.Walk start ids id ∧ ids.Nodup ∧ id ∈ ids ∧
      catalog.checkLineage start = .error (.circular (ids ++ [id]))) ∨
    (∃ ids child id, catalog.Walk start (ids ++ [child]) id ∧ Dict.find? catalog id = none ∧
      catalog.checkLineage start = .error (.unknownParent child id)) ∨
    Dict.find? catalog start = none ∧ catalog.checkLineage start = .error (.notFound start) := by
  obtain ⟨ids, id, h, ⟨hn, hid⟩ | hnone, -⟩ := catalog.exists_stop start
  · exact .inr (.inl ⟨ids, id, h, hn, hid, h.checkLineage_of_returns hn hid⟩)
  · cases hw : Dict.find? catalog id with
    | some w =>
      rw [hw, Option.bind_some] at hnone
      exact .inl ⟨ids, id, w, h, hw, hnone, h.checkLineage_of_root hw hnone⟩
    | none =>
      rcases List.eq_nil_or_concat' ids with rfl | ⟨l, child, rfl⟩
      · obtain rfl := h.eq_start_of_nil
        exact .inr (.inr (.inr ⟨hw, h.checkLineage_of_leaves hw⟩))
      · exact .inr (.inr (.inl ⟨l, child, id, h, hw, h.checkLineage_of_unknownParent hw⟩))

/-- **What the check says, and when.** It passes if and only if the walk from the id comes to a
workflow that extends nothing. It reports a circle if and only if the walk comes back, with the walk
up to the first id that it comes back to. It reports an unknown parent if and only if the walk
leaves the catalog behind a workflow, and an unknown workflow if and only if the catalog does not
have the id itself. More steps than there are workflows do not change what it says. -/
theorem checkLineage_decides_walk (catalog : Catalog) (start : String) :
    (catalog.checkLineage start = .ok () ↔ ∃ ids id w, catalog.Walk start ids id ∧
      Dict.find? catalog id = some w ∧ w.parent = none) ∧
    (∀ chain, catalog.checkLineage start = .error (.circular chain) ↔ ∃ ids id,
      catalog.Walk start ids id ∧ ids.Nodup ∧ id ∈ ids ∧ chain = ids ++ [id]) ∧
    (∀ child parent, catalog.checkLineage start = .error (.unknownParent child parent) ↔ ∃ ids,
      catalog.Walk start (ids ++ [child]) parent ∧ Dict.find? catalog parent = none) ∧
    (∀ id, catalog.checkLineage start = .error (.notFound id) ↔
      id = start ∧ Dict.find? catalog start = none) ∧
    ∀ n, catalog.length < n → catalog.checkFrom n [] start = catalog.checkLineage start := by
  -- Each answer of the check belongs to one of the things that may become of the walk.
  have hcases := catalog.checkLineage_cases start
  refine ⟨⟨fun hr => ?_, ?_⟩, fun chain => ⟨fun hr => ?_, ?_⟩,
    fun child parent => ⟨fun hr => ?_, ?_⟩, fun i => ⟨fun hr => ?_, ?_⟩, fun n hn => ?_⟩
  · rcases hcases with ⟨ids, id, w, h, hw, hp, he⟩ | ⟨_, _, -, -, -, he⟩ | ⟨_, _, _, -, -, he⟩ |
      ⟨-, he⟩ <;> cases he.symm.trans hr
    exact ⟨ids, id, w, h, hw, hp⟩
  · rintro ⟨ids, id, w, h, hw, hp⟩
    exact h.checkLineage_of_root hw hp
  · rcases hcases with ⟨_, _, _, -, -, -, he⟩ | ⟨ids, id, h, hn, hid, he⟩ | ⟨_, _, _, -, -, he⟩ |
      ⟨-, he⟩ <;> cases he.symm.trans hr
    exact ⟨ids, id, h, hn, hid, rfl⟩
  · rintro ⟨ids, id, h, hn, hid, rfl⟩
    exact h.checkLineage_of_returns hn hid
  · rcases hcases with ⟨_, _, _, -, -, -, he⟩ | ⟨_, _, -, -, -, he⟩ | ⟨ids, _, _, h, hid, he⟩ |
      ⟨-, he⟩ <;> cases he.symm.trans hr
    exact ⟨ids, h, hid⟩
  · rintro ⟨ids, h, hid⟩
    exact h.checkLineage_of_unknownParent hid
  · rcases hcases with ⟨_, _, _, -, -, -, he⟩ | ⟨_, _, -, -, -, he⟩ | ⟨_, _, _, -, -, he⟩ |
      ⟨hid, he⟩ <;> cases he.symm.trans hr
    exact ⟨rfl, hid⟩
  · rintro ⟨rfl, hid⟩
    exact Walk.start.checkLineage_of_leaves hid
  · obtain ⟨n, rfl⟩ := Nat.exists_eq_succ_of_ne_zero (Nat.ne_zero_of_lt hn)
    exact checkFrom_eq_checkLineage (Nat.le_of_lt_succ hn)

/-- A walk that comes back to an id from which it did not set out. -/
example : checkLineage [("a", .extending (some "b") "a" []), ("b", .extending (some "a") "b" []),
    ("leaf", .extending (some "a") "leaf" [])] "leaf" =
      .error (.circular ["leaf", "a", "b", "a"]) := rfl

end Catalog

end WorkflowEngine
