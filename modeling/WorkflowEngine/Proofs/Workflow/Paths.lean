import WorkflowEngine.Proofs.Workflow.Address

/-!
# Paths of steps

A path is spelled turn by turn: the name of a part of a step, and a position in brackets. The keys
of cases stand in it as they are, brackets included, so that the text does not say where a key ends.
If it can be read in two ways, then the key of one case goes on into another case: it is `a[0].if`,
say, where the other key is `a`. Apart from this, a path tells the address that spells it.

## Main definitions

* `Dotted`: what goes on behind the path of a step
* `GoesInto`: a key spells a step in the case of another key, and goes on from there
* `CrossedBy`, `Address.IsCrossedBy`: two ways down part at a switch, where the key that one of them
  takes goes into the case that the other takes

## Main results

* `turn_cases`: two turns that begin the same text
* `Address.turns_cases`: two ways down that spell the same text, up to what follows
* `Address.eq_or_isCrossedBy`: two addresses that spell the same path
-/

namespace WorkflowEngine

open Address (pathOfTurns)

/-! ### Texts with brackets -/

/-- Two ways to cut a text at a character are the same, or one of them cuts further on. -/
theorem append_cons_cases {c : Char} {l l' r r' : List Char} (h : l ++ c :: r = l' ++ c :: r') :
    l = l' ∧ r = r' ∨ (∃ a, l' = l ++ c :: a ∧ r = a ++ c :: r') ∨
      ∃ a, l = l' ++ c :: a ∧ r' = a ++ c :: r := by
  rcases List.append_eq_append_iff.mp h with ⟨a, rfl, ha⟩ | ⟨a, rfl, ha⟩
  · cases a with
    | nil => exact .inl ⟨(List.append_nil l).symm, (List.cons.inj ha).2⟩
    | cons x a =>
      obtain ⟨rfl, hr⟩ := List.cons.inj ha
      exact .inr (.inl ⟨a, rfl, hr⟩)
  · cases a with
    | nil => exact .inl ⟨List.append_nil l', (List.cons.inj ha).2.symm⟩
    | cons x a =>
      obtain ⟨rfl, hr⟩ := List.cons.inj ha
      exact .inr (.inr ⟨a, rfl, hr⟩)

theorem not_mem_toDigits {c : Char} (h : c.isDigit = false) (n : Nat) : c ∉ Nat.toDigits 10 n := by
  intro hc
  have hdigit := Nat.isDigit_of_mem_toDigits (by decide) (by decide) hc
  rw [h] at hdigit
  cases hdigit

/-- A position is told from a text that begins with it and a bracket. -/
theorem position_inj {i j : Nat} {u v : List Char}
    (h : Nat.toDigits 10 i ++ ']' :: u = Nat.toDigits 10 j ++ ']' :: v) : i = j ∧ u = v := by
  have hbracket : ∀ n, ']' ∉ Nat.toDigits 10 n := not_mem_toDigits rfl
  rcases append_cons_cases h with ⟨hd, hr⟩ | ⟨a, hd, -⟩ | ⟨a, hd, -⟩
  · have hi : Nat.ofDigitChars 10 (Nat.toDigits 10 i) 0 = i := Nat.ofDigitChars_ten_toDigits
    rw [hd, Nat.ofDigitChars_ten_toDigits] at hi
    exact ⟨hi.symm, hr⟩
  · exact absurd (hd ▸ List.mem_append_right _ (List.mem_cons_self ..)) (hbracket j)
  · exact absurd (hd ▸ List.mem_append_right _ (List.mem_cons_self ..)) (hbracket i)

theorem Site.toList_elementPath_append (path : String) (i : Nat) (t : String) :
    (elementPath path i ++ t).toList =
      path.toList ++ '[' :: (Nat.toDigits 10 i ++ ']' :: t.toList) := by
  simp [elementPath, Nat.toString_eq_repr, Nat.toList_repr]

/-- **What goes on behind the path of a step**: it is nothing, or begins with a dot. -/
def Dotted (t : String) : Prop := t.toList = [] ∨ ∃ r, t.toList = '.' :: r

theorem dotted_name (b : Branch) (t : String) : Dotted (b.name ++ t) := by
  rw [Dotted, String.toList_append]
  cases b with
  | case key => exact .inr ⟨_, by rw [Branch.name, String.toList_append]; rfl⟩
  | whenTrue | whenFalse | otherwise | body => exact .inr ⟨_, rfl⟩

theorem dotted_pathOfTurns (turns : List (Branch × Nat)) {e : String} (he : Dotted e) :
    Dotted (pathOfTurns turns ++ e) := by
  cases turns with
  | nil => rwa [pathOfTurns, String.empty_append]
  | cons turn turns =>
    rw [pathOfTurns, String.append_assoc, Site.elementPath]
    simp only [String.append_assoc]
    exact dotted_name _ _

/-- What stands before a bracket behind a position is the position and a dot at least. -/
theorem exists_of_position {i : Nat} {t : String} {r v : List Char} (ht : Dotted t)
    (h : Nat.toDigits 10 i ++ ']' :: t.toList = r ++ '[' :: v) :
    ∃ more, r = Nat.toDigits 10 i ++ ']' :: '.' :: more := by
  -- the bracket is no digit and not the other bracket, so that it is behind the dot
  rcases List.append_eq_append_iff.mp h with ⟨a, rfl, ha⟩ | ⟨a, hd, ha⟩
  · cases a with
    | nil => exact absurd (List.cons.inj ha).1 (by decide)
    | cons x a =>
      obtain ⟨rfl, hrest⟩ := List.cons.inj ha
      rcases ht with ht | ⟨t, ht⟩ <;> rw [ht] at hrest
      · cases a <;> cases hrest
      · cases a with
        | nil => exact absurd (List.cons.inj hrest).1 (by decide)
        | cons y a =>
          obtain ⟨rfl, -⟩ := List.cons.inj hrest
          exact ⟨a, rfl⟩
  · cases a with
    | nil => exact absurd (List.cons.inj ha).1 (by decide)
    | cons x a =>
      obtain ⟨rfl, -⟩ := List.cons.inj ha
      exact absurd (hd ▸ List.mem_append_right _ (List.mem_cons_self ..)) (not_mem_toDigits rfl i)

/-! ### Keys -/

/-- **A key goes into the case of another key**: it spells the step at a position of that case, and
goes on from there. -/
def GoesInto (other key : String) (i : Nat) : Prop :=
  ∃ rest, other = Site.elementPath key i ++ "." ++ rest

theorem goesInto_of_toList {other key : String} {i : Nat} {more : List Char}
    (h : other.toList = key.toList ++ '[' :: (Nat.toDigits 10 i ++ ']' :: '.' :: more)) :
    GoesInto other key i :=
  ⟨String.ofList more, String.toList_inj.mp (by
    rw [h, String.append_assoc, Site.toList_elementPath_append]
    simp)⟩

/-- The part that a list is in is told from the path of a step in the list, unless it is a case. -/
theorem Branch.name_cases {b b' : Branch} {u v : List Char}
    (h : b.name.toList ++ '[' :: u = b'.name.toList ++ '[' :: v) :
    b = b' ∧ u = v ∨ ∃ key other, b = .case key ∧ b' = .case other ∧
      key.toList ++ '[' :: u = other.toList ++ '[' :: v := by
  -- no two names begin alike up to the bracket, but for those of cases
  cases b <;> cases b' <;> simp [name] at h ⊢ <;> first | exact h | exact .inr h

/-- **Two turns that begin the same text** are the same turn, or they go into two cases, and the key
of one goes into the other case. -/
theorem turn_cases {b b' : Branch} {i j : Nat} {t t' : String} (ht : Dotted t) (ht' : Dotted t')
    (h : Site.elementPath b.name i ++ t = Site.elementPath b'.name j ++ t') :
    (b = b' ∧ i = j ∧ t = t') ∨ ∃ key other, b = .case key ∧ b' = .case other ∧
      (GoesInto other key i ∨ GoesInto key other j) := by
  have htext := congrArg String.toList h
  rw [Site.toList_elementPath_append, Site.toList_elementPath_append] at htext
  rcases Branch.name_cases htext with ⟨rfl, hr⟩ | ⟨key, other, rfl, rfl, hr⟩
  · obtain ⟨rfl, hrest⟩ := position_inj hr
    exact .inl ⟨rfl, rfl, String.toList_inj.mp hrest⟩
  -- the brackets of the two turns are the same one, or one of them stands in the key of the other
  · rcases append_cons_cases hr with ⟨hkey, hpos⟩ | ⟨r, hkey, hpos⟩ | ⟨r, hkey, hpos⟩
    · obtain rfl := String.toList_inj.mp hkey
      obtain ⟨rfl, hrest⟩ := position_inj hpos
      exact .inl ⟨rfl, rfl, String.toList_inj.mp hrest⟩
    · obtain ⟨more, rfl⟩ := exists_of_position ht hpos
      exact .inr ⟨key, other, rfl, rfl, .inl (goesInto_of_toList hkey)⟩
    · obtain ⟨more, rfl⟩ := exists_of_position ht' hpos
      exact .inr ⟨key, other, rfl, rfl, .inr (goesInto_of_toList hkey)⟩

/-! ### Ways down with the same text -/

/-- **A way down is crossed by another one**: they part at a switch, and the key of the case that
the other one takes goes into the case that the first takes, at the position that it takes. -/
inductive CrossedBy : List (Branch × Nat) → List (Branch × Nat) → Prop where
  | here {key other i j turns turns'} (h : GoesInto other key i) :
    CrossedBy ((.case key, i) :: turns) ((.case other, j) :: turns')
  | deeper {turns turns'} (turn) (h : CrossedBy turns turns') :
    CrossedBy (turn :: turns) (turn :: turns')

/-- Ways down that part at a switch are crossed there, if at all. -/
theorem CrossedBy.goesInto {key other : String} {i j : Nat} {turns turns' : List (Branch × Nat)}
    (h : CrossedBy ((.case key, i) :: turns) ((.case other, j) :: turns')) (hne : key ≠ other) :
    GoesInto other key i := by
  cases h with
  | here h => exact h
  | deeper => exact absurd rfl hne

namespace Address

/-- **Two ways down that spell the same text, up to what follows**: one goes on from the other, or
one is crossed by the other. -/
theorem turns_cases {turns turns' : List (Branch × Nat)} {e e' : String} (he : Dotted e)
    (he' : Dotted e') (h : pathOfTurns turns ++ e = pathOfTurns turns' ++ e') :
    (∃ more, turns' = turns ++ more ∧ e = pathOfTurns more ++ e') ∨
      (∃ more, turns = turns' ++ more ∧ e' = pathOfTurns more ++ e) ∨
      CrossedBy turns turns' ∨ CrossedBy turns' turns := by
  induction turns generalizing turns' with
  | nil => exact .inl ⟨turns', rfl, String.empty_append.symm.trans h⟩
  | cons turn turns ih =>
    cases turns' with
    | nil => exact .inr (.inl ⟨turn :: turns, rfl, String.empty_append.symm.trans h.symm⟩)
    | cons turn' turns' =>
      obtain ⟨b, i⟩ := turn
      obtain ⟨b', j⟩ := turn'
      simp only [pathOfTurns, String.append_assoc] at h
      -- as long as the turns are the same, both texts go on alike behind them
      rcases turn_cases (dotted_pathOfTurns turns he) (dotted_pathOfTurns turns' he') h with
        ⟨rfl, rfl, hrest⟩ | ⟨key, other, rfl, rfl, hkey | hkey⟩
      · rcases ih hrest with
          ⟨more, rfl, hmore⟩ | ⟨more, rfl, hmore⟩ | hcross | hcross
        · exact .inl ⟨more, rfl, hmore⟩
        · exact .inr (.inl ⟨more, rfl, hmore⟩)
        · exact .inr (.inr (.inl (.deeper _ hcross)))
        · exact .inr (.inr (.inr (.deeper _ hcross)))
      · exact .inr (.inr (.inl (.here hkey)))
      · exact .inr (.inr (.inr (.here hkey)))

/-- The tree is told from a path that begins at the root. -/
theorem index_eq_of_path {root e e' : String} {a b : Address}
    (h : a.path root ++ e = b.path root ++ e') :
    a.index = b.index ∧ pathOfTurns a.turns ++ e = pathOfTurns b.turns ++ e' := by
  have htext := congrArg String.toList h
  simp only [path, String.append_assoc, Site.toList_elementPath_append] at htext
  obtain ⟨hindex, hrest⟩ := position_inj (List.cons.inj (List.append_cancel_left htext)).2
  exact ⟨hindex, String.toList_inj.mp hrest⟩

/-- **An address is crossed by another one** of a step in the same tree. -/
def IsCrossedBy (a b : Address) : Prop := a.index = b.index ∧ CrossedBy a.turns b.turns

theorem pathOfTurns_eq_empty {turns : List (Branch × Nat)} (h : pathOfTurns turns = "") :
    turns = [] := by
  cases turns with
  | nil => rfl
  | cons turn turns =>
    have htext := congrArg String.toList h
    rw [pathOfTurns, Site.toList_elementPath_append] at htext
    simp at htext

/-- **Two addresses that spell the same path** are the same, or one is crossed by the other. -/
theorem eq_or_isCrossedBy {root : String} {a b : Address} (h : a.path root = b.path root) :
    a = b ∨ a.IsCrossedBy b ∨ b.IsCrossedBy a := by
  obtain ⟨hindex, hturns⟩ := index_eq_of_path (congrArg (· ++ "") h)
  rcases turns_cases (.inl rfl) (.inl rfl) hturns with
    ⟨more, ht, hmore⟩ | ⟨more, ht, hmore⟩ | hcross | hcross
  · obtain rfl := pathOfTurns_eq_empty (String.append_empty.symm.trans hmore.symm)
    rw [List.append_nil] at ht
    exact .inl (Address.ext hindex ht.symm)
  · obtain rfl := pathOfTurns_eq_empty (String.append_empty.symm.trans hmore.symm)
    rw [List.append_nil] at ht
    exact .inl (Address.ext hindex ht)
  · exact .inr (.inl ⟨hindex, hcross⟩)
  · exact .inr (.inr ⟨hindex.symm, hcross⟩)

end Address

end WorkflowEngine
