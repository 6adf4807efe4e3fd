import Mathlib.Data.List.Induction
import Mathlib.Data.List.Sort
import WorkflowEngine.Json.Basic

/-!
# Values under keys

An insertion changes what is under its key, and nothing else.

## Main results

* `Dict.find?_insert_self`, `Dict.find?_insert_of_ne`: what is found after an insertion
* `Dict.mem_insert`, `Dict.mem_extend`: what entries there are after insertions
* `Dict.find?_extend`: what is found in the entries of both
* `Dict.sorted_ofList`, `Dict.ofList_of_sorted`: entries are put in order, and stay in order
* `Dict.find?_ofList`: the entries of a list are found
* `Dict.Sorted.mem_iff`, `Dict.Sorted.ext`: what is in order is told by what is found in it
-/

namespace WorkflowEngine

namespace Dict

variable {α : Type}

theorem mem_of_find? {d : Dict α} {key : String} {value : α}
    (h : d.find? key = some value) : (key, value) ∈ d := by
  obtain ⟨l, r, rfl, -⟩ := List.lookup_eq_some_iff.mp h
  exact List.mem_append_right l (List.mem_cons_self ..)

/-- What is found is under a key. -/
theorem mem_keys_of_find? {d : Dict α} {key : String} {value : α}
    (h : d.find? key = some value) : key ∈ d.keys :=
  List.mem_map_of_mem (mem_of_find? h)

theorem Sorted.nodup_keys {d : Dict α} (h : d.Sorted) : (d.map Prod.fst).Nodup := by
  refine List.pairwise_map.mpr (h.imp fun hlt he => ?_)
  exact String.lt_irrefl _ (he ▸ hlt)

theorem Sorted.map {β : Type} {d : Dict α} (h : d.Sorted) (f : α → β) :
    Dict.Sorted (d.map fun x => (x.1, f x.2)) :=
  List.pairwise_map.mpr h

theorem lookup_map {β : Type} (f : α → β) (l : List (String × α)) (key : String) :
    (l.map fun x => (x.1, f x.2)).lookup key = (l.lookup key).map f := by
  induction l with
  | nil => rfl
  | cons x l ih =>
    obtain ⟨k, a⟩ := x
    rw [List.map_cons, List.lookup_cons, List.lookup_cons]
    cases key == k
    · exact ih
    · rfl

theorem lookup_filter {p : String → Bool} {key : String} (h : p key = true)
    (l : List (String × α)) : (l.filter fun x => p x.1).lookup key = l.lookup key := by
  induction l with
  | nil => rfl
  | cons x l ih =>
    obtain ⟨k, a⟩ := x
    rw [List.lookup_cons, List.filter_cons]
    by_cases hk : key = k
    · subst hk
      simp [h]
    · rw [beq_eq_false_iff_ne.mpr hk, ← ih]
      split
      · rw [List.lookup_cons, beq_eq_false_iff_ne.mpr hk]
      · rfl

theorem keys_filterMap_sublist (l : List (String × Option α)) :
    ((l.filterMap fun x => x.2.map (x.1, ·)).map Prod.fst).Sublist (l.map Prod.fst) := by
  induction l with
  | nil => exact List.Sublist.refl _
  | cons x l ih =>
    obtain ⟨k, v⟩ := x
    cases v with
    | none => exact ih.cons k
    | some a => exact ih.cons_cons k

/-- What is present under a key that stands once. -/
theorem lookup_filterMap {l : List (String × Option α)} (h : (l.map Prod.fst).Nodup)
    (key : String) :
    (l.filterMap fun x => x.2.map (x.1, ·)).lookup key = (l.lookup key).join := by
  induction l with
  | nil => rfl
  | cons x l ih =>
    obtain ⟨k, v⟩ := x
    obtain ⟨hk, hl⟩ := List.nodup_cons.mp h
    rw [List.lookup_cons]
    by_cases he : key = k
    · subst he
      cases v with
      | some a => simp
      | none =>
        have hnone : l.lookup key = none := List.lookup_eq_none_iff.mpr fun y hy => by
          have hne : key ≠ y.1 := by
            rintro rfl
            exact hk (List.mem_map.mpr ⟨y, hy, rfl⟩)
          simpa using hne
        simpa [hnone] using ih hl
    · rw [beq_eq_false_iff_ne.mpr he, ← ih hl]
      cases v with
      | none => rfl
      | some a => simp [List.lookup_cons, beq_eq_false_iff_ne.mpr he]

/-! ### Insertions -/

theorem find?_insert_self (d : Dict α) (key : String) (value : α) :
    Dict.find? (d.insert key value) key = some value := by
  unfold Dict.find?
  induction d with
  | nil => simp [Dict.insert]
  | cons x d ih =>
    obtain ⟨k, v⟩ := x
    rw [Dict.insert]
    split
    · simp
    · split
      · simp
      next hne => rw [List.lookup_cons, beq_eq_false_iff_ne.mpr hne, ih]

theorem find?_insert_of_ne (d : Dict α) {key other : String} (value : α) (h : other ≠ key) :
    Dict.find? (d.insert key value) other = d.find? other := by
  unfold Dict.find?
  induction d with
  | nil => simp [Dict.insert, h]
  | cons x d ih =>
    obtain ⟨k, v⟩ := x
    rw [Dict.insert]
    split
    · rw [List.lookup_cons, beq_eq_false_iff_ne.mpr h]
    · split
      next hk =>
        subst hk
        simp [List.lookup_cons, beq_eq_false_iff_ne.mpr h]
      next => rw [List.lookup_cons, List.lookup_cons, ih]

/-- An insertion takes no key away. -/
theorem length_le_length_insert (d : Dict α) (key : String) (value : α) :
    d.length ≤ (d.insert key value).length := by
  induction d with
  | nil => exact Nat.zero_le _
  | cons x d ih =>
    obtain ⟨k, v⟩ := x
    rw [Dict.insert]
    split
    · exact Nat.le_succ _
    · split
      · exact Nat.le_refl _
      · exact Nat.succ_le_succ ih

/-- What is in a dictionary after an insertion is new or was there before. -/
theorem mem_insert {d : Dict α} {key : String} {value : α} {x : String × α}
    (h : x ∈ d.insert key value) : x = (key, value) ∨ x ∈ d := by
  induction d with
  | nil => exact .inl (List.mem_singleton.mp h)
  | cons y d ih =>
    obtain ⟨k, v⟩ := y
    rw [Dict.insert] at h
    split at h
    · exact List.mem_cons.mp h
    · split at h
      · exact (List.mem_cons.mp h).imp_right (List.mem_cons_of_mem _)
      · rcases List.mem_cons.mp h with rfl | h
        · exact .inr (List.mem_cons_self ..)
        · exact (ih h).imp_right (List.mem_cons_of_mem _)

/-- The entries of both are those of the first or of the second. -/
theorem mem_extend {d other : Dict α} {x : String × α} (h : x ∈ d.extend other) :
    x ∈ d ∨ x ∈ other := by
  unfold extend at h
  induction other generalizing d with
  | nil => exact .inl h
  | cons y other ih =>
    rcases ih h with h | h
    · exact (mem_insert h).elim (fun he => .inr (he ▸ List.mem_cons_self ..)) .inl
    · exact .inr (List.mem_cons_of_mem _ h)

theorem mem_ofList {l : List (String × α)} {x : String × α} (h : x ∈ ofList l) : x ∈ l :=
  (mem_extend (d := []) h).resolve_left List.not_mem_nil

/-- What is in order has the first of its keys nowhere else. -/
theorem Sorted.find?_tail {d : Dict α} {key : String} {value : α}
    (h : Dict.Sorted ((key, value) :: d)) : d.find? key = none := by
  refine List.lookup_eq_none_iff.mpr fun x hx => ?_
  have hlt : key < x.1 := List.rel_of_pairwise_cons h hx
  have hne : key ≠ x.1 := fun he => String.lt_irrefl _ (he ▸ hlt)
  simpa using hne

/-- What is found in the entries of both: what the second has, or else what the first has. -/
theorem find?_extend {other : Dict α} (h : other.Sorted) (d : Dict α) (key : String) :
    (d.extend other).find? key = (other.find? key <|> d.find? key) := by
  induction other generalizing d with
  | nil => rfl
  | cons x other ih =>
    obtain ⟨k, v⟩ := x
    have hextend : d.extend ((k, v) :: other) = (d.insert k v).extend other := rfl
    rw [hextend, ih h.of_cons]
    by_cases hk : key = k
    · subst hk
      rw [h.find?_tail, find?_insert_self]
      simp [find?]
    · rw [find?_insert_of_ne d v hk]
      simp [find?, List.lookup_cons, beq_eq_false_iff_ne.mpr hk]

/-! ### Entries in order -/

theorem Sorted.insert {d : Dict α} (h : d.Sorted) (key : String) (value : α) :
    Dict.Sorted (d.insert key value) := by
  induction d with
  | nil => exact List.pairwise_singleton ..
  | cons x d ih =>
    obtain ⟨k, v⟩ := x
    have hk : ∀ y ∈ d, k < y.1 := fun y hy => List.rel_of_pairwise_cons h hy
    rw [Dict.insert]
    split
    next hlt =>
      refine List.pairwise_cons.mpr ⟨fun y hy => ?_, h⟩
      rcases List.mem_cons.mp hy with rfl | hy
      · exact hlt
      · exact String.lt_trans hlt (hk y hy)
    next hnlt =>
      split
      next heq =>
        subst heq
        exact List.pairwise_cons.mpr ⟨hk, h.of_cons⟩
      next hne =>
        refine List.pairwise_cons.mpr ⟨fun y hy => ?_, ih h.of_cons⟩
        rcases mem_insert hy with rfl | hy
        · exact Std.lt_of_le_of_ne (String.not_lt.mp hnlt) (Ne.symm hne)
        · exact hk y hy

theorem Sorted.extend {d : Dict α} (h : d.Sorted) (other : Dict α) :
    Dict.Sorted (d.extend other) := by
  unfold Dict.extend
  induction other generalizing d with
  | nil => exact h
  | cons x other ih => exact ih (h.insert x.1 x.2)

/-- The entries of a list are put in order. -/
theorem sorted_ofList (l : List (String × α)) : Dict.Sorted (ofList l) :=
  Sorted.extend List.Pairwise.nil l

/-- What comes after all others is put at the end. -/
theorem insert_of_forall_lt {d : Dict α} {key : String} (value : α) (h : ∀ x ∈ d, x.1 < key) :
    d.insert key value = d ++ [(key, value)] := by
  induction d with
  | nil => rfl
  | cons x d ih =>
    obtain ⟨k, v⟩ := x
    have hk : k < key := h _ (List.mem_cons_self ..)
    have hnlt : ¬ key < k := fun hlt => String.lt_irrefl _ (String.lt_trans hk hlt)
    have hne : key ≠ k := fun he => String.lt_irrefl _ (he ▸ hk)
    rw [Dict.insert, if_neg hnlt, if_neg hne, ih fun x hx => h x (List.mem_cons_of_mem _ hx)]
    rfl

theorem ofList_append_singleton (l : List (String × α)) (x : String × α) :
    ofList (l ++ [x]) = (ofList l).insert x.1 x.2 := by
  rw [ofList, List.foldl_append]
  rfl

/-- What is in order stays as it is. -/
theorem ofList_of_sorted {d : Dict α} (h : d.Sorted) : ofList d = d := by
  induction d using List.reverseRecOn with
  | nil => rfl
  | append_singleton d x ih =>
    obtain ⟨hd, -, hlt⟩ := List.pairwise_append.mp h
    rw [ofList_append_singleton, ih hd]
    exact insert_of_forall_lt x.2 fun y hy => hlt y hy x (List.mem_singleton_self x)

/-- The entries of a list are found where no key stands twice. -/
theorem find?_ofList {l : List (String × α)} (h : (l.map Prod.fst).Nodup) (key : String) :
    (ofList l).find? key = l.lookup key := by
  induction l using List.reverseRecOn with
  | nil => rfl
  | append_singleton l x ih =>
    obtain ⟨k, v⟩ := x
    rw [List.map_append, List.nodup_append] at h
    obtain ⟨hl, -, hx⟩ := h
    rw [ofList_append_singleton, List.lookup_append]
    by_cases hk : key = k
    · subst hk
      have hnone : l.lookup key = none := List.lookup_eq_none_iff.mpr fun y hy => by
        have hne : y.1 ≠ key := hx _ (List.mem_map_of_mem hy) _ (List.mem_singleton_self _)
        simpa using hne.symm
      rw [find?_insert_self, hnone]
      simp
    · rw [find?_insert_of_ne _ _ hk, ih hl]
      simp [List.lookup_cons, beq_eq_false_iff_ne.mpr hk]

/-- What is in order has the entries that are found in it. -/
theorem Sorted.mem_iff {d : Dict α} (h : d.Sorted) {x : String × α} :
    x ∈ d ↔ d.find? x.1 = some x.2 := by
  refine ⟨fun hx => ?_, mem_of_find?⟩
  obtain ⟨l, r, rfl⟩ := List.append_of_mem hx
  refine List.lookup_eq_some_iff.mpr ⟨l, r, rfl, fun y hy => ?_⟩
  have hlt : y.1 < x.1 := (List.pairwise_append.mp h).2.2 y hy x (List.mem_cons_self ..)
  have hne : x.1 ≠ y.1 := fun he => String.lt_irrefl _ (he ▸ hlt)
  simpa using hne

/-- What is in order is told by what is found in it. -/
theorem Sorted.ext {d d' : Dict α} (h : d.Sorted) (h' : d'.Sorted)
    (hfind : ∀ key, d.find? key = d'.find? key) : d = d' := by
  have hirrefl : Std.Irrefl fun a b : String × α => a.1 < b.1 := ⟨fun a => String.lt_irrefl a.1⟩
  have hantisymm : Std.Antisymm fun a b : String × α => a.1 < b.1 :=
    ⟨fun _ _ hab hba => absurd hba (String.lt_asymm hab)⟩
  exact List.Pairwise.eq_of_mem_iff h h' fun x => by rw [h.mem_iff, h'.mem_iff, hfind x.1]

end Dict

end WorkflowEngine
