import WorkflowEngine.Text.Blank
import WorkflowEngine.Text.Search

/-!
# Formulas

The outermost structure of an expression: a choice `condition ? whenTrue : whenFalse`, a chain of
alternatives joined by `||`, or an operand, whose text goes to the engine as it is. Only characters
outside quotes and brackets count. The strict comparisons `===` and `!==` are spelled `==` and `!=`
first, at every level anew.

## Main definitions

* `annotate cs`: the characters, each with whether it stands outside quotes and brackets
* `splitChoice`, `splitAlternatives`: the parts of a choice, of a chain
* `Formula`, `Formula.ofChars`: the structure of an expression
* `Formula.operands`: the texts that may go to the engine

## Main results

* `length_splitChoice`, `length_splitAlternatives`: the parts are shorter than the whole, so that
  taking an expression apart comes to an end
-/

namespace WorkflowEngine.Template

open Text

/-- The strict comparisons spelled as the loose ones. -/
def loosen (cs : List Char) : List Char :=
  replaceAll ['=', '=', '='] ['=', '='] (replaceAll ['!', '=', '='] ['!', '='] cs)

theorem length_loosen_le (cs : List Char) : (loosen cs).length ≤ cs.length :=
  Nat.le_trans (length_replaceAll_le (by simp) _) (length_replaceAll_le (by simp) _)

/-- A character and whether it stands outside quotes and brackets, being none itself. -/
abbrev Placed := Char × Bool

/-- The characters after a quote has been opened; a backslash protects the next one. -/
inductive Quoting where
  | outside
  | inside (quote : Char)
  | escaped (quote : Char)

/-- The characters, each with whether it counts. `depth` is the number of open brackets; it may fall
below zero, where nothing counts either. -/
def annotateFrom : Quoting → Int → List Char → List Placed
  | _, _, [] => []
  | .escaped q, depth, c :: cs => (c, false) :: annotateFrom (.inside q) depth cs
  | .inside q, depth, c :: cs =>
    let next :=
      if c = '\\' then Quoting.escaped q else if c = q then .outside else .inside q
    (c, false) :: annotateFrom next depth cs
  | .outside, depth, c :: cs =>
    if c = '\'' || c = '"' then (c, false) :: annotateFrom (.inside c) depth cs
    else if c = '(' || c = '[' || c = '{' then (c, false) :: annotateFrom .outside (depth + 1) cs
    else if c = ')' || c = ']' || c = '}' then (c, false) :: annotateFrom .outside (depth - 1) cs
    else (c, depth = 0) :: annotateFrom .outside depth cs

/-- The characters, each with whether it stands outside quotes and brackets. -/
def annotate (cs : List Char) : List Placed := annotateFrom .outside 0 cs

theorem map_fst_annotateFrom (q : Quoting) (depth : Int) (cs : List Char) :
    (annotateFrom q depth cs).map Prod.fst = cs := by
  fun_induction annotateFrom q depth cs <;> simp_all

/-- Annotation adds and loses no character. -/
@[simp] theorem map_fst_annotate (cs : List Char) : (annotate cs).map Prod.fst = cs :=
  map_fst_annotateFrom _ _ _

@[simp] theorem length_annotate (cs : List Char) : (annotate cs).length = cs.length := by
  have h := congrArg List.length (map_fst_annotate cs)
  rwa [List.length_map] at h

/-- What stands before and after the first outer question mark. -/
def breakAtQuestion : List Placed → Option (List Char × List Placed)
  | [] => none
  | p :: ps =>
    if p = ('?', true) then some ([], ps)
    else (breakAtQuestion ps).map fun (before, after) => (p.1 :: before, after)

/-- What stands before and after the outer colon that matches a question mark already passed;
`nested` question marks after it wait for colons of their own. -/
def breakAtColon : Nat → List Placed → Option (List Char × List Char)
  | _, [] => none
  | nested, p :: ps =>
    if p = (':', true) && nested = 0 then some ([], ps.map Prod.fst)
    else
      let nested' :=
        if p = ('?', true) then nested + 1 else if p = (':', true) then nested - 1 else nested
      (breakAtColon nested' ps).map fun (before, after) => (p.1 :: before, after)

/-- The condition and the two alternatives of a choice. -/
def splitChoice (ps : List Placed) : Option (List Char × List Char × List Char) := do
  let (condition, rest) ← breakAtQuestion ps
  let (whenTrue, whenFalse) ← breakAtColon 0 rest
  return (condition, whenTrue, whenFalse)

/-- The alternatives of a chain, after the characters `seen` of the first one, in reverse. -/
def alternativesFrom (seen : List Char) : List Placed → List (List Char)
  | [] => [seen.reverse]
  | [p] => [(p.1 :: seen).reverse]
  | p :: q :: ps =>
    if p = ('|', true) && q = ('|', true) then seen.reverse :: alternativesFrom [] ps
    else alternativesFrom (p.1 :: seen) (q :: ps)

/-- The alternatives of a chain; a text without an outer `||` is a chain of one. -/
def splitAlternatives (ps : List Placed) : List (List Char) := alternativesFrom [] ps

theorem length_breakAtQuestion {ps : List Placed} {before : List Char} {after : List Placed}
    (h : breakAtQuestion ps = some (before, after)) :
    before.length + after.length + 1 = ps.length := by
  induction ps generalizing before with
  | nil => simp [breakAtQuestion] at h
  | cons p ps ih =>
    simp only [breakAtQuestion] at h
    split at h
    · cases h
      simp
    · simp only [Option.map_eq_some_iff] at h
      obtain ⟨⟨b, a⟩, hb, h⟩ := h
      obtain ⟨rfl, rfl⟩ : p.1 :: b = before ∧ a = after := by simpa using h
      have := ih hb
      simp only [List.length_cons]
      omega

theorem length_breakAtColon {nested : Nat} {ps : List Placed} {before after : List Char}
    (h : breakAtColon nested ps = some (before, after)) :
    before.length + after.length + 1 = ps.length := by
  induction ps generalizing nested before with
  | nil => simp [breakAtColon] at h
  | cons p ps ih =>
    simp only [breakAtColon] at h
    split at h
    · cases h
      simp
    · simp only [Option.map_eq_some_iff] at h
      obtain ⟨⟨b, a⟩, hb, h⟩ := h
      obtain ⟨rfl, rfl⟩ : p.1 :: b = before ∧ a = after := by simpa using h
      have := ih hb
      simp only [List.length_cons]
      omega

/-- The parts of a choice are the whole but for the two marks between them. -/
theorem length_splitChoice {ps : List Placed} {c t f : List Char}
    (h : splitChoice ps = some (c, t, f)) : c.length + t.length + f.length + 2 = ps.length := by
  simp only [splitChoice, Option.bind_eq_bind, Option.pure_def, Option.bind_eq_some_iff] at h
  obtain ⟨⟨c', rest⟩, hq, ⟨t', f'⟩, hc, h⟩ := h
  obtain ⟨rfl, rfl, rfl⟩ : c' = c ∧ t' = t ∧ f' = f := by simpa using h
  have h₁ := length_breakAtQuestion hq
  have h₂ := length_breakAtColon hc
  dsimp only at h₁ h₂
  omega

theorem alternativesFrom_ne_nil (seen : List Char) (ps : List Placed) :
    alternativesFrom seen ps ≠ [] := by
  fun_induction alternativesFrom seen ps <;> simp_all

/-- The alternatives are the whole but for the two marks between any two of them. -/
theorem length_flatten_alternativesFrom (seen : List Char) (ps : List Placed) :
    (alternativesFrom seen ps).flatten.length + 2 * (alternativesFrom seen ps).length =
      seen.length + ps.length + 2 := by
  fun_induction alternativesFrom seen ps with
  | case1 => simp
  | case2 => simp
  | case3 seen p q ps hpq ih =>
    simp only [List.flatten_cons, List.length_append, List.length_cons, List.length_reverse,
      List.length_nil] at ih ⊢
    omega
  | case4 seen p q ps hpq ih =>
    simp only [List.length_cons] at ih ⊢
    omega

/-- Each of several alternatives is shorter than the whole. -/
theorem length_splitAlternatives {ps : List Placed} {part : List Char}
    (hpart : part ∈ splitAlternatives ps) (hmany : 1 < (splitAlternatives ps).length) :
    part.length < ps.length := by
  have hsum := length_flatten_alternativesFrom [] ps
  have hle := (List.sublist_flatten_of_mem hpart).length_le
  simp only [splitAlternatives, List.length_nil] at *
  omega

/-- The outermost structure of an expression. -/
inductive Formula where
  | nothing
  | choice (condition whenTrue whenFalse : Formula)
  | firstTrue (alternatives : List Formula)
  | operand (text : String)
deriving Repr, Inhabited

/-- The characters of an expression with the strict comparisons spelled loosely and no blanks around
them. -/
def prepare (cs : List Char) : List Char := trimmed (loosen cs)

theorem length_prepare_le (cs : List Char) : (prepare cs).length ≤ cs.length :=
  Nat.le_trans (length_trimmed_le _) (length_loosen_le _)

/-- The structure of an expression. -/
def Formula.ofChars (cs : List Char) : Formula :=
  if (prepare cs).isEmpty then .nothing
  else
    match _h : splitChoice (annotate (prepare cs)) with
    | some (condition, whenTrue, whenFalse) =>
      .choice (Formula.ofChars condition) (Formula.ofChars whenTrue) (Formula.ofChars whenFalse)
    | none =>
      if _hmany : 1 < (splitAlternatives (annotate (prepare cs))).length then
        .firstTrue ((splitAlternatives (annotate (prepare cs))).attach.map fun ⟨part, _⟩ =>
          Formula.ofChars part)
      else .operand (String.ofList (prepare cs))
termination_by cs.length
decreasing_by
  all_goals have hle := length_prepare_le cs
  · have := length_splitChoice _h
    simp only [length_annotate] at this
    omega
  · have := length_splitChoice _h
    simp only [length_annotate] at this
    omega
  · have := length_splitChoice _h
    simp only [length_annotate] at this
    omega
  · rename_i hmem
    have := length_splitAlternatives hmem _hmany
    simp only [length_annotate] at this
    omega

mutual
/-- The texts that may go to the engine. -/
def Formula.operands : Formula → List String
  | .nothing => []
  | .choice c t f => c.operands ++ t.operands ++ f.operands
  | .firstTrue alternatives => operandsOfAll alternatives
  | .operand text => [text]

/-- The texts of several formulas that may go to the engine. -/
def operandsOfAll : List Formula → List String
  | [] => []
  | f :: fs => f.operands ++ operandsOfAll fs
end

end WorkflowEngine.Template
