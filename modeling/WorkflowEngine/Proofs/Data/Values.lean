import WorkflowEngine.Data.Fields
import WorkflowEngine.Proofs.Dict

/-!
# Values as data

A value that keeps to the rules of its type is the same again after it has been made data and read,
and so is one that is written. An object that gives a field once gives it to every reader of
records, and leaves out what is absent.

## Main definitions

* `Json.IsProper`: a value that keeps to the rules of its type
* `Datum.IsValue`: data that such a value has been made

## Main results

* `Datum.json?_ofJson`, `Datum.toJson_ofJson`: a value is read and written as itself
* `Datum.fields?_ofFields?`: the fields that are found in an object
* `Datum.IsValue.fields?`, `Datum.IsValue.items?`, `Datum.IsValue.entries?`: the parts of a value
  are values
-/

namespace WorkflowEngine

open Data

/-- **A value that keeps to the rules of its type**: its whole numbers are in range, its floats are
finite, and its objects are in order. -/
inductive Json.IsProper : Json → Prop
  | null : IsProper .null
  | bool (b : Bool) : IsProper (.bool b)
  | int {n : Int} (h : Number.inRange n = true) : IsProper (.num (.int n))
  | float {x : Float} (h : x.isFinite = true) : IsProper (.num (.float x))
  | str (s : String) : IsProper (.str s)
  | arr {items : List Json} (h : ∀ v ∈ items, IsProper v) : IsProper (.arr items)
  | obj {fields : Dict Json} (sorted : fields.Sorted) (h : ∀ x ∈ fields, IsProper x.2) :
    IsProper (.obj fields)

/-- An object whose fields are proper where they are present. -/
theorem Json.isProper_ofFields? {l : List (String × Option Json)}
    (h : ∀ x ∈ l, ∀ v ∈ x.2, v.IsProper) : (Json.ofFields? l).IsProper := by
  refine .obj (Dict.sorted_ofList _) fun x hx => ?_
  obtain ⟨y, hy, hx⟩ := List.mem_filterMap.mp (Dict.mem_ofList hx)
  obtain ⟨v, hv, rfl⟩ := Option.map_eq_some_iff.mp hx
  exact h y hy v hv

/-! ### Reading one after the other -/

section Each

variable {α β γ : Type}

/-- Everything is read if each is. -/
theorem Data.mapM_map {f : α → β} {g : α → γ} {read : β → Option γ} {l : List α}
    (h : ∀ x ∈ l, read (f x) = some (g x)) : (l.map f).mapM read = some (l.map g) := by
  induction l with
  | nil => rfl
  | cons x l ih =>
    rw [List.map_cons, List.mapM_cons, h x (List.mem_cons_self ..),
      ih fun y hy => h y (List.mem_cons_of_mem _ hy)]
    rfl

/-- What is read is read of something. -/
theorem Data.exists_of_mem_mapM {read : β → Option γ} {l : List β} {ys : List γ}
    (h : l.mapM read = some ys) : ∀ y ∈ ys, ∃ x ∈ l, read x = some y := by
  induction l generalizing ys with
  | nil =>
    cases h
    nofun
  | cons x l ih =>
    rw [List.mapM_cons] at h
    obtain ⟨z, hz, h⟩ := Option.bind_eq_some_iff.mp h
    obtain ⟨zs, hzs, h⟩ := Option.bind_eq_some_iff.mp h
    cases h
    intro y hy
    rcases List.mem_cons.mp hy with rfl | hy
    · exact ⟨x, List.mem_cons_self .., hz⟩
    · obtain ⟨w, hw, hread⟩ := ih hzs y hy
      exact ⟨w, List.mem_cons_of_mem _ hw, hread⟩

end Each

namespace Datum

/-! ### Lists and records -/

theorem ofJsonItems_eq_map (vs : List Json) : ofJsonItems vs = vs.map ofJson := by
  induction vs with
  | nil => rfl
  | cons v vs ih => rw [ofJsonItems, ih, List.map_cons]

theorem ofJsonFields_eq_map (fs : List (String × Json)) :
    ofJsonFields fs = fs.map fun x => (.text x.1, ofJson x.2) := by
  induction fs with
  | nil => rfl
  | cons x fs ih => rw [ofJsonFields, ih, List.map_cons]

theorem toJsonItems_eq_map (ds : List Datum) : toJsonItems ds = ds.map toJson := by
  induction ds with
  | nil => rfl
  | cons d ds ih => rw [toJsonItems, ih, List.map_cons]

theorem toJsonFields_eq_map (es : List (Datum × Datum)) :
    toJsonFields es = es.map fun x => ((x.1.text?).getD "", toJson x.2) := by
  induction es with
  | nil => rfl
  | cons x es ih => rw [toJsonFields, ih, List.map_cons]

theorem jsonItems?_ofJson {vs : List Json} (h : ∀ v ∈ vs, (ofJson v).json? = some v) :
    jsonItems? (vs.map ofJson) = some vs := by
  induction vs with
  | nil => rfl
  | cons v vs ih =>
    rw [List.map_cons, jsonItems?, h v (List.mem_cons_self ..),
      ih fun x hx => h x (List.mem_cons_of_mem _ hx)]
    rfl

theorem jsonEntries?_ofJson {fs : List (String × Json)}
    (h : ∀ x ∈ fs, (ofJson x.2).json? = some x.2) :
    jsonEntries? (fs.map fun x => (.text x.1, ofJson x.2)) = some fs := by
  induction fs with
  | nil => rfl
  | cons x fs ih =>
    rw [List.map_cons, jsonEntries?, h x (List.mem_cons_self ..),
      ih fun y hy => h y (List.mem_cons_of_mem _ hy)]
    rfl

theorem toJsonItems_ofJson {vs : List Json} (h : ∀ v ∈ vs, (ofJson v).toJson = v) :
    toJsonItems (vs.map ofJson) = vs := by
  induction vs with
  | nil => rfl
  | cons v vs ih =>
    rw [List.map_cons, toJsonItems, h v (List.mem_cons_self ..),
      ih fun x hx => h x (List.mem_cons_of_mem _ hx)]

theorem toJsonFields_ofJson {fs : List (String × Json)}
    (h : ∀ x ∈ fs, (ofJson x.2).toJson = x.2) :
    toJsonFields (fs.map fun x => (.text x.1, ofJson x.2)) = fs := by
  induction fs with
  | nil => rfl
  | cons x fs ih =>
    rw [List.map_cons, toJsonFields, h x (List.mem_cons_self ..),
      ih fun y hy => h y (List.mem_cons_of_mem _ hy)]
    rfl

/-! ### Values -/

/-- **A value is read as itself.** -/
theorem json?_ofJson {v : Json} (h : v.IsProper) : (ofJson v).json? = some v := by
  induction h with
  | null | bool | str => rfl
  | int h => rw [ofJson, json?, Json.Number.ofInt, if_pos h]
  | float h => rw [ofJson, json?, Json.ofFloat, if_pos h]
  | arr _ ih => rw [ofJson, ofJsonItems_eq_map, json?, jsonItems?_ofJson ih, Option.map_some]
  | obj sorted _ ih =>
    rw [ofJson, ofJsonFields_eq_map, json?, jsonEntries?_ofJson ih, Option.map_some,
      Dict.ofList_of_sorted sorted]

/-- **A value is written as itself.** -/
theorem toJson_ofJson {v : Json} (h : v.IsProper) : (ofJson v).toJson = v := by
  induction h with
  | null | bool | str => rfl
  | int h => rw [ofJson, toJson, Json.Number.ofInt, if_pos h]
  | float h => rw [ofJson, toJson, Json.ofFloat, if_pos h]
  | arr _ ih =>
    rw [ofJson, ofJsonItems_eq_map, toJson, toJsonItems_ofJson ih]
  | obj sorted _ ih =>
    rw [ofJson, ofJsonFields_eq_map, toJson, toJsonFields_ofJson ih, Dict.ofList_of_sorted sorted]

theorem isPresent?_ofJson {v : Json} (h : v ≠ .null) : (ofJson v).isPresent? = some true := by
  cases v with
  | null => exact absurd rfl h
  | num n => cases n <;> rfl
  | bool | str | arr | obj => rfl

/-! ### Depth -/

theorem depth_le_depthOfItems {ds : List Datum} {d : Datum} (h : d ∈ ds) :
    d.depth ≤ depthOfItems ds := by
  induction ds with
  | nil => cases h
  | cons e ds ih =>
    rw [depthOfItems]
    rcases List.mem_cons.mp h with rfl | h
    · exact Nat.le_max_left ..
    · exact Nat.le_trans (ih h) (Nat.le_max_right ..)

theorem depth_le_depthOfEntries {es : List (Datum × Datum)} {x : Datum × Datum} (h : x ∈ es) :
    x.2.depth ≤ depthOfEntries es := by
  induction es with
  | nil => cases h
  | cons e es ih =>
    rw [depthOfEntries]
    rcases List.mem_cons.mp h with rfl | h
    · exact Nat.le_max_left ..
    · exact Nat.le_trans (ih h) (Nat.le_max_right ..)

/-- An element lies less deep than its array. -/
theorem depth_ofJson_lt_arr {items : List Json} {v : Json} (h : v ∈ items) :
    (ofJson v).depth < (ofJson (.arr items)).depth := by
  rw [ofJson, depth, ofJsonItems_eq_map]
  exact Nat.lt_succ_of_le (depth_le_depthOfItems (List.mem_map_of_mem h))

/-- The value of a field lies less deep than its object. -/
theorem depth_ofJson_lt_obj {fields : Dict Json} {x : String × Json} (h : x ∈ fields) :
    (ofJson x.2).depth < (ofJson (.obj fields)).depth := by
  rw [ofJson, depth, ofJsonFields_eq_map]
  exact Nat.lt_succ_of_le
    (depth_le_depthOfEntries (x := (.text x.1, ofJson x.2)) (List.mem_map_of_mem h))

/-! ### Objects as records -/

theorem items?_ofJson_arr (items : List Json) :
    (ofJson (.arr items)).items? = some (items.map ofJson) := by
  rw [ofJson, ofJsonItems_eq_map, items?]

theorem entries?_ofJson_obj (fields : Dict Json) :
    (ofJson (.obj fields)).entries? = some (fields.map fun x => (x.1, ofJson x.2)) := by
  rw [ofJson, ofJsonFields_eq_map, entries?]
  exact mapM_map fun _ _ => rfl

end Datum

theorem Data.distinctNames_of_nodup {es : List (String × Datum)} (h : (es.map Prod.fst).Nodup) :
    distinctNames es = true := by
  induction es with
  | nil => rfl
  | cons x es ih =>
    obtain ⟨hx, hes⟩ := List.nodup_cons.mp h
    rw [distinctNames, ih hes, Bool.and_true, Bool.not_eq_true', List.any_eq_false]
    intro y hy
    have hne : y.1 ≠ x.1 := fun he => hx (he ▸ List.mem_map_of_mem hy)
    simpa using hne

namespace Datum

theorem fields?_ofJson_obj {fields : Dict Json} (h : fields.Sorted) (names : List String) :
    (ofJson (.obj fields)).fields? names =
      some ((fields.map fun x => (x.1, ofJson x.2)).filter fun x => names.contains x.1) := by
  have hkeys : ((fields.map fun x => (x.1, ofJson x.2)).map Prod.fst).Nodup := by
    rw [List.map_map]
    exact Dict.Sorted.nodup_keys h
  have hknown := hkeys.sublist
    ((List.filter_sublist (p := fun x => names.contains x.1)).map Prod.fst)
  have hentries := entries?_ofJson_obj fields
  rw [ofJson] at hentries ⊢
  rw [fields?, hentries, Option.bind_eq_bind, Option.bind_some,
    if_pos (distinctNames_of_nodup hknown)]
  · nofun
  · nofun

/-- **The fields that are found in an object**: those of its fields that are present, each of which
lies less deep than the object. -/
theorem fields?_ofFields? (l : List (String × Option Json)) (h : (l.map Prod.fst).Nodup)
    (names : List String) :
    ∃ f, (ofJson (Json.ofFields? l)).fields? names = some f ∧
      (∀ name ∈ names, f.lookup name = (l.lookup name).join.map ofJson) ∧
      ∀ x ∈ f, x.2.depth < (ofJson (Json.ofFields? l)).depth := by
  have hkeys := h.sublist (Dict.keys_filterMap_sublist l)
  refine ⟨_, fields?_ofJson_obj (Dict.sorted_ofList _) names, fun name hname => ?_, fun x hx => ?_⟩
  · rw [Dict.lookup_filter (by simpa using hname), Dict.lookup_map]
    exact congrArg (Option.map ofJson)
      ((Dict.find?_ofList hkeys name).trans (Dict.lookup_filterMap h name))
  · obtain ⟨y, hy, rfl⟩ := List.mem_map.mp (List.mem_filter.mp hx).1
    exact depth_ofJson_lt_obj hy

/-! ### What is read of values -/

/-- Data that a proper value has been made. -/
def IsValue (d : Datum) : Prop := ∃ v : Json, v.IsProper ∧ d = ofJson v

theorem IsValue.json? {d : Datum} {v : Json} (hd : d.IsValue) (h : d.json? = some v) :
    v.IsProper ∧ d = ofJson v := by
  obtain ⟨w, hw, rfl⟩ := hd
  rw [json?_ofJson hw, Option.some.injEq] at h
  subst h
  exact ⟨hw, rfl⟩

/-- The elements of a value are values. -/
theorem IsValue.items? {d : Datum} {items : List Datum} (hd : d.IsValue)
    (h : d.items? = some items) : ∀ x ∈ items, x.IsValue := by
  obtain ⟨v, hv, rfl⟩ := hd
  cases hv with
  | arr hv =>
    rw [items?_ofJson_arr, Option.some.injEq] at h
    subst h
    intro x hx
    obtain ⟨w, hw, rfl⟩ := List.mem_map.mp hx
    exact ⟨w, hv w hw, rfl⟩
  | null | bool | int | float | str | obj => cases h

/-- The values of the entries of a value are values. -/
theorem IsValue.entries? {d : Datum} {entries : List (String × Datum)} (hd : d.IsValue)
    (h : d.entries? = some entries) : ∀ x ∈ entries, x.2.IsValue := by
  obtain ⟨v, hv, rfl⟩ := hd
  cases hv with
  | obj sorted hv =>
    rw [entries?_ofJson_obj, Option.some.injEq] at h
    subst h
    intro x hx
    obtain ⟨y, hy, rfl⟩ := List.mem_map.mp hx
    exact ⟨y.2, hv y hy, rfl⟩
  | null | bool | int | float | str | arr => cases h

/-- The fields of a value are values, whether they are given by name or in their order. -/
theorem IsValue.fields? {d : Datum} {names : List String} {f : Fields} (hd : d.IsValue)
    (h : d.fields? names = some f) : ∀ x ∈ f, x.2.IsValue := by
  obtain ⟨v, hv, rfl⟩ := hd
  cases hv with
  | arr hv =>
    rw [ofJson, ofJsonItems_eq_map, Datum.fields?] at h
    split at h
    · cases h
      intro x hx
      obtain ⟨w, hw, hx⟩ := List.mem_map.mp (List.of_mem_zip hx).2
      exact ⟨w, hv w hw, hx.symm⟩
    · cases h
  | obj sorted hv =>
    rw [fields?_ofJson_obj sorted, Option.some.injEq] at h
    subst h
    intro x hx
    obtain ⟨y, hy, rfl⟩ := List.mem_map.mp (List.mem_filter.mp hx).1
    exact ⟨y.2, hv y hy, rfl⟩
  | null | bool | int | float | str => cases h

end Datum

namespace Data

variable {α : Type} {read : Datum → Option α} {d : Datum}

/-- What is read of a list is read of its elements. -/
theorem of_mem_readList {xs : List α} (hd : d.IsValue) (h : readList read d = some xs) :
    ∀ x ∈ xs, ∃ e : Datum, e.IsValue ∧ read e = some x := by
  obtain ⟨items, hitems, h⟩ := Option.bind_eq_some_iff.mp h
  intro x hx
  obtain ⟨e, he, hread⟩ := exists_of_mem_mapM h x hx
  exact ⟨e, hd.items? hitems e he, hread⟩

/-- What is read of a record is in order, and is read of its entries. -/
theorem of_readDict {xs : Dict α} (hd : d.IsValue) (h : readDict read d = some xs) :
    xs.Sorted ∧ ∀ x ∈ xs, ∃ e : Datum, e.IsValue ∧ read e = some x.2 := by
  obtain ⟨entries, hentries, h⟩ := Option.bind_eq_some_iff.mp h
  obtain ⟨ys, hys, h⟩ := Option.bind_eq_some_iff.mp h
  cases h
  refine ⟨Dict.sorted_ofList ys, fun x hx => ?_⟩
  obtain ⟨y, hy, hread⟩ := exists_of_mem_mapM hys x (Dict.mem_ofList hx)
  obtain ⟨a, ha, rfl⟩ := Option.map_eq_some_iff.mp hread
  exact ⟨y.2, hd.entries? hentries y hy, ha⟩

/-- A list is read back from the values of its elements. -/
theorem readList_ofJson (write : α → Json) {xs : List α}
    (h : ∀ x ∈ xs, read (.ofJson (write x)) = some x) :
    readList read (.ofJson (.arr (xs.map write))) = some xs := by
  rw [readList, Datum.items?_ofJson_arr, Option.bind_eq_bind, Option.bind_some, List.map_map]
  exact (mapM_map (g := id) h).trans (congrArg some (List.map_id xs))

/-- A record in order is read back from the values of its entries. -/
theorem readDict_ofJson (write : α → Json) {xs : Dict α} (sorted : xs.Sorted)
    (h : ∀ x ∈ xs, read (.ofJson (write x.2)) = some x.2) :
    readDict read (.ofJson (.obj (xs.map fun x => (x.1, write x.2)))) = some xs := by
  have hread : ∀ x ∈ xs, (read (.ofJson (write x.2))).map (x.1, ·) = some x := fun x hx => by
    rw [h x hx]
    rfl
  have hentries : (xs.map fun x => (x.1, Datum.ofJson (write x.2))).mapM
      (fun x => (read x.2).map (x.1, ·)) = some xs :=
    (mapM_map (g := id) hread).trans (congrArg some (List.map_id xs))
  rw [readDict, Datum.entries?_ofJson_obj, Option.bind_eq_bind, Option.bind_some, List.map_map]
  exact (congrArg (Option.bind · _) hentries).trans (congrArg some (Dict.ofList_of_sorted sorted))

/-! ### Fields -/

namespace Fields

variable {f : Fields} {name : String}

/-- What is read of a field that may be absent is read of a value that is not null. -/
theorem of_optional {a : Option α} (hf : ∀ x ∈ f, x.2.IsValue)
    (h : f.optional name read = some a) :
    ∀ x ∈ a, ∃ v : Json, v.IsProper ∧ v ≠ .null ∧ read (.ofJson v) = some x := by
  unfold Fields.optional at h
  split at h
  · cases h
    nofun
  next d hd =>
    obtain ⟨v, hv, hdv⟩ := hf _ (Dict.mem_of_find? hd)
    dsimp only at hdv
    subst hdv
    by_cases hnull : v = .null
    · subst hnull
      cases h
      nofun
    · rw [Datum.optional, Datum.isPresent?_ofJson hnull, Option.bind_eq_bind, Option.bind_some,
        if_pos rfl] at h
      obtain ⟨x, hx, h⟩ := Option.bind_eq_some_iff.mp h
      cases h
      rintro _ ⟨⟩
      exact ⟨v, hv, hnull, hx⟩

theorem of_withDefault {a default : α} (hf : ∀ x ∈ f, x.2.IsValue)
    (h : f.withDefault name default read = some a) :
    a = default ∨ ∃ e : Datum, e.IsValue ∧ read e = some a := by
  unfold Fields.withDefault at h
  split at h
  · cases h
    exact .inl rfl
  next d hd => exact .inr ⟨d, hf _ (Dict.mem_of_find? hd), h⟩

/-- A field that is present is read. -/
theorem required_of_lookup {v : Json} {a : α} (h : f.lookup name = some (.ofJson v))
    (hread : read (.ofJson v) = some a) : f.required name read = some a := by
  rw [Fields.required, h, Option.bind_some, hread]

/-- A field that is written if it is present is read back. -/
theorem optional_of_lookup {write : α → Json} {a : Option α}
    (h : f.lookup name = (a.map write).map .ofJson)
    (hread : ∀ x ∈ a, write x ≠ .null ∧ read (.ofJson (write x)) = some x) :
    f.optional name read = some a := by
  cases a with
  | none => rw [Fields.optional, h]; rfl
  | some x =>
    obtain ⟨hnull, hx⟩ := hread x rfl
    rw [Fields.optional, h]
    simp [Datum.optional, Datum.isPresent?_ofJson hnull, hx]

/-- A field that is written unless it has its default is read back. -/
theorem withDefault_of_lookup {v : Option Json} {a default : α}
    (h : f.lookup name = v.map .ofJson) (hnone : v = none → a = default)
    (hread : ∀ w ∈ v, read (.ofJson w) = some a) :
    f.withDefault name default read = some a := by
  cases v with
  | none => rw [Fields.withDefault, h, hnone rfl]; rfl
  | some w => rw [Fields.withDefault, h]; exact hread w rfl

end Fields

end Data

end WorkflowEngine
