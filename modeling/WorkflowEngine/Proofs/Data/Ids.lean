import WorkflowEngine.Proofs.Data.Digits
import WorkflowEngine.Uuid

/-!
# Ids as texts

The text of an id has five groups of hexadecimal digits with dashes between them, and a reader of
groups takes the dashes away again.

## Main definitions

* `Uuid.IsProper`: the number fits into 128 bits

## Main results

* `Uuid.ofText?_text`: an id is read back from its text
-/

namespace WorkflowEngine.Uuid

open Data

/-- An id whose number fits into 128 bits. -/
def IsProper (u : Uuid) : Prop := u.value < Bits.words 128

/-- The digits of an id. -/
def digits (u : Uuid) : List Char :=
  List.replicate (32 - (Nat.toDigits 16 u.value).length) '0' ++ Nat.toDigits 16 u.value

theorem length_digits {u : Uuid} (h : u.IsProper) : u.digits.length = 32 := by
  have hle : (Nat.toDigits 16 u.value).length ≤ 32 :=
    (Nat.length_toDigits_le_iff (by decide) (by decide)).mpr h
  rw [digits, List.length_append, List.length_replicate]
  omega

theorem natInBase?_digits (u : Uuid) : Word.natInBase? 16 u.digits = some u.value :=
  Word.natInBase?_zeros_toDigits (by decide) (by decide) _ _

theorem exists_of_mem_digits {u : Uuid} {c : Char} (h : c ∈ u.digits) :
    ∃ d : Fin 16, c = Nat.digitChar d := by
  rcases List.mem_append.mp h with h | h
  · exact ⟨0, (List.mem_replicate.mp h).2⟩
  · obtain ⟨d, hd, rfl⟩ := Word.exists_of_mem_toDigits (by decide) h
    exact ⟨⟨d, hd⟩, rfl⟩

theorem ne_dash_of_mem_digits {u : Uuid} {c : Char} (h : c ∈ u.digits) : c ≠ '-' := by
  obtain ⟨d, rfl⟩ := exists_of_mem_digits h
  exact (by decide : ∀ d : Fin 16, Nat.digitChar d ≠ '-') d

theorem utf8Size_of_mem_digits {u : Uuid} {c : Char} (h : c ∈ u.digits) : c.utf8Size = 1 := by
  obtain ⟨d, rfl⟩ := exists_of_mem_digits h
  exact (by decide : ∀ d : Fin 16, (Nat.digitChar d).utf8Size = 1) d

/-- A text of characters of one byte has as many bytes as characters. -/
theorem utf8ByteSize_ofList {cs : List Char} (h : ∀ c ∈ cs, c.utf8Size = 1) :
    (String.ofList cs).utf8ByteSize = cs.length := by
  induction cs with
  | nil => rfl
  | cons c cs ih =>
    have hcons : String.ofList (c :: cs) = String.singleton c ++ String.ofList cs := by
      simp
    rw [hcons, String.utf8ByteSize_append, String.utf8ByteSize_singleton,
      h c (List.mem_cons_self ..), ih fun x hx => h x (List.mem_cons_of_mem _ hx),
      List.length_cons, Nat.add_comm]

/-! ### Groups -/

/-- Digits in five groups with dashes between them. -/
def grouped (ds : List Char) : List Char :=
  ds.take 8 ++ '-' :: ((ds.drop 8).take 4 ++ '-' :: ((ds.drop 12).take 4 ++
    '-' :: ((ds.drop 16).take 4 ++ '-' :: (ds.drop 20).take 12)))

theorem text_eq (u : Uuid) : u.text = String.ofList (grouped u.digits) := by
  simp [text, grouped, digits, ← String.toList_inj, String.intercalate_cons_cons]

/-- The groups make up the digits again. -/
theorem filter_grouped {ds : List Char} (hlength : ds.length = 32) (h : ∀ c ∈ ds, c ≠ '-') :
    (grouped ds).filter (· != '-') = ds := by
  have hkeep : ∀ start length, ((ds.drop start).take length).filter (· != '-') =
      (ds.drop start).take length := fun start length =>
    List.filter_eq_self.mpr fun c hc => by
      simpa using h c (List.mem_of_mem_drop (List.mem_of_mem_take hc))
  have hjoin : ∀ start length, (ds.drop start).take length ++ ds.drop (start + length) =
      ds.drop start := fun start length => by
    rw [← List.drop_drop, List.take_append_drop]
  have hlast : (ds.drop 20).take 12 = ds.drop (16 + 4) :=
    List.take_of_length_le (by simp [hlength])
  have hfirst : (ds.take 8).filter (· != '-') = ds.take 8 := hkeep 0 8
  simp only [grouped, List.filter_append, List.filter_cons, bne_self_eq_false, Bool.false_eq_true,
    if_false, hkeep, hfirst]
  rw [hlast, hjoin 16 4, hjoin 12 4, hjoin 8 4, List.take_append_drop]

theorem length_grouped {ds : List Char} (h : ds.length = 32) : (grouped ds).length = 36 := by
  simp [grouped, h]

theorem dashes_grouped {ds : List Char} (h : ds.length = 32) :
    [8, 13, 18, 23].all (fun i => (grouped ds)[i]? == some '-') = true := by
  simp [grouped, List.getElem?_append, h]

theorem mem_grouped {ds : List Char} {c : Char} (h : c ∈ grouped ds) : c ∈ ds ∨ c = '-' := by
  have hpart : ∀ start length, c ∈ (ds.drop start).take length → c ∈ ds := fun _ _ hc =>
    List.mem_of_mem_drop (List.mem_of_mem_take hc)
  simp only [grouped, List.mem_append, List.mem_cons] at h
  rcases h with h | h | h | h | h | h | h | h | h
  · exact .inl (List.mem_of_mem_take h)
  · exact .inr h
  · exact .inl (hpart _ _ h)
  · exact .inr h
  · exact .inl (hpart _ _ h)
  · exact .inr h
  · exact .inl (hpart _ _ h)
  · exact .inr h
  · exact .inl (hpart _ _ h)

theorem ofGroups?_grouped {u : Uuid} (h : u.IsProper) : ofGroups? (grouped u.digits) = some u := by
  have hlength := length_digits h
  rw [ofGroups?, length_grouped hlength, dashes_grouped hlength, if_pos (by decide),
    filter_grouped hlength fun _ => ne_dash_of_mem_digits, ofDigits?, if_pos hlength,
    natInBase?_digits]
  rfl

/-- **An id is read back from its text.** -/
theorem ofText?_text {u : Uuid} (h : u.IsProper) : ofText? u.text = some u := by
  have hbytes : (String.ofList (grouped u.digits)).utf8ByteSize = 36 := by
    rw [utf8ByteSize_ofList, length_grouped (length_digits h)]
    intro c hc
    rcases mem_grouped hc with hc | rfl
    · exact utf8Size_of_mem_digits hc
    · rfl
  rw [text_eq, ofText?, hbytes, if_neg (by decide), if_pos rfl, String.toList_ofList,
    ofGroups?_grouped h]

end WorkflowEngine.Uuid
