import WorkflowEngine.Proofs.Workflow.Keys
import WorkflowEngine.Proofs.Workflow.Validity

/-!
# Addresses of steps

An address says where a step stands in a list of trees: the position of the tree, and, for each list
on the way down, the part of its step that the list is and the position in it. It is made of parts
and numbers and not of texts, so that no two ways down are the same address. If no switch has a key
twice, then an address leads to one step at most, and thus it stands for the step that it leads to.

The places that a report is made of belong to the steps of the trees. Each step is a place, whose
path is spelled by its address, and the other places are lists in a step that should not be empty.

## Main definitions

* `Step.Leads`, `Address.LeadsTo`: a way down leads from a step, or from a list of steps, to a step
* `Address.path`: the path that an address spells
* `Site.IsOf`: a place belongs to a step with a path

## Main results

* `Step.induction_on_branches`: induction on trees of steps
* `Address.LeadsTo.unique`: an address leads to one step at most
* `Site.exists_isOf`: each place belongs to a step that an address leads to
* `Site.step_mem_ofSteps_iff`: which steps are visited under which paths
-/

namespace WorkflowEngine

/-! ### Ways down -/

namespace Step

/-- **A way down leads from a step to a step**: each turn names a part of the step where it is taken
and the position of a step in it. -/
inductive Leads : Step → List (Branch × Nat) → Step → Prop where
  | here (s) : Leads s [] s
  | down {s branch steps i child turns x} (hb : (branch, steps) ∈ s.branches)
      (hi : steps[i]? = some child) (h : Leads child turns x) : Leads s ((branch, i) :: turns) x

theorem sizeOf_lt_of_mem_branches {s t : Step} {x : Branch × List Step} (hx : x ∈ s.branches)
    (ht : t ∈ x.2) : sizeOf t < sizeOf s := by
  have hlist := List.sizeOf_lt_of_mem ht
  cases s with
  | simple => cases hx
  | conditional head condition ifSteps elseSteps cases defaultSteps =>
    simp only [branches, List.mem_append, List.mem_map, Option.mem_toList] at hx
    rcases hx with ((⟨l, rfl, rfl⟩ | ⟨l, rfl, rfl⟩) | ⟨y, hy, rfl⟩) | ⟨l, rfl, rfl⟩
    · simp only [conditional.sizeOf_spec, Option.some.sizeOf_spec] at hlist ⊢
      omega
    · simp only [conditional.sizeOf_spec, Option.some.sizeOf_spec] at hlist ⊢
      omega
    · cases cases with
      | none => cases hy
      | some cases =>
        have hcase := List.sizeOf_lt_of_mem hy
        obtain ⟨key, l⟩ := y
        simp only [conditional.sizeOf_spec, Option.some.sizeOf_spec, Prod.mk.sizeOf_spec,
          Option.getD_some] at hlist hcase ⊢
        omega
    · simp only [conditional.sizeOf_spec, Option.some.sizeOf_spec] at hlist ⊢
      omega
  | loop head rule body =>
    obtain rfl := List.mem_singleton.mp hx
    simp only [loop.sizeOf_spec] at hlist ⊢
    omega
  | parallel head rule body =>
    obtain rfl := List.mem_singleton.mp hx
    simp only [parallel.sizeOf_spec] at hlist ⊢
    omega

/-- **Induction on trees**: what holds of a step if it holds of those in the lists that it holds. -/
theorem induction_on_branches {P : Step → Prop}
    (h : ∀ s : Step, (∀ x ∈ s.branches, ∀ t ∈ x.2, P t) → P s) (s : Step) : P s :=
  h s fun _ hx t ht =>
    have := sizeOf_lt_of_mem_branches hx ht
    induction_on_branches h t
termination_by sizeOf s

end Step

/-- **What a part of a step adds to the path of the step.** -/
def Branch.name : Branch → String
  | .whenTrue => ".if"
  | .whenFalse => ".else"
  | .case key => ".switch." ++ key
  | .otherwise => ".default"
  | .body => ".steps"

/-- **The address of a step in a list of trees**: the position of its tree, and the way down. -/
@[ext] structure Address where
  index : Nat
  turns : List (Branch × Nat)
deriving Repr, DecidableEq

namespace Address

/-- **An address leads to a step.** -/
def LeadsTo (a : Address) (steps : List Step) (x : Step) : Prop :=
  ∃ s, steps[a.index]? = some s ∧ s.Leads a.turns x

/-- The path that a way down adds to the one of the step where it begins. -/
def pathOfTurns : List (Branch × Nat) → String
  | [] => ""
  | (branch, i) :: turns => Site.elementPath branch.name i ++ pathOfTurns turns

/-- **The path that an address spells** in a list with a path. -/
def path (root : String) (a : Address) : String :=
  Site.elementPath root a.index ++ pathOfTurns a.turns

end Address

namespace Step

variable {s x y : Step} {turns : List (Branch × Nat)}

/-- **A way down leads to one step at most.** -/
theorem Leads.unique (hs : s.outline.IsKeyed) (hx : s.Leads turns x) (hy : s.Leads turns y) :
    x = y := by
  induction hx with
  | here => cases hy; rfl
  | down hb hi _ ih =>
    cases hy with
    | down hb' hi' hy =>
      obtain rfl := eq_of_mem_branches hs hb hb'
      obtain rfl := Option.some.inj (hi.symm.trans hi')
      exact ih (isKeyed_of_mem_branches hs hb (List.mem_of_getElem? hi)) hy

end Step

/-- **An address leads to one step at most.** -/
theorem Address.LeadsTo.unique {a : Address} {steps : List Step} {x y : Step}
    (hsteps : ∀ s ∈ steps, s.outline.IsKeyed) (hx : a.LeadsTo steps x) (hy : a.LeadsTo steps y) :
    x = y := by
  obtain ⟨s, hs, hx⟩ := hx
  obtain ⟨s', hs', hy⟩ := hy
  obtain rfl := Option.some.inj (hs.symm.trans hs')
  exact hx.unique (hsteps s (List.mem_of_getElem? hs)) hy

/-! ### Places -/

namespace Site

/-- **A place belongs to a step with a path**: it is the step itself, or a list in it that should
not be empty. -/
inductive IsOf (path : String) (s : Step) : Site → Prop where
  | step (isRepeated : Bool) : IsOf path s (.step path isRepeated s)
  | emptyList {branch} (h : (branch, []) ∈ s.branches) :
    IsOf path s (.emptyList (path ++ branch.name))
  | noCases (h : ¬ s.HasCases) : IsOf path s (.noCases (path ++ ".switch"))

theorem elementPath_append (path p : String) (i : Nat) :
    elementPath (path ++ p) i = path ++ elementPath p i := by
  simp only [elementPath, String.append_assoc]

/-- The places of a tree: its root, and those of what the root holds. -/
def ofTree (path : String) (isRepeated : Bool) (s : Step) : List Site :=
  .step path isRepeated s :: ofChildren path s

/-- The places of a list of steps are those of its trees. -/
theorem exists_of_mem_ofStepsFrom {path : String} {i : Nat} {seen : List String}
    {steps : List Step} {x : Site} (hx : x ∈ ofStepsFrom path i seen steps) :
    ∃ j s isRepeated, steps[j]? = some s ∧ x ∈ ofTree (elementPath path (i + j)) isRepeated s := by
  induction steps generalizing i seen with
  | nil =>
    rw [ofStepsFrom] at hx
    cases hx
  | cons s ss ih =>
    rw [ofStepsFrom] at hx
    rcases List.mem_append.mp hx with hx | hx
    · exact ⟨0, s, _, rfl, hx⟩
    · obtain ⟨j, t, isRepeated, hj, hx⟩ := ih hx
      rw [Nat.add_right_comm] at hx
      exact ⟨j + 1, t, isRepeated, hj, hx⟩

theorem exists_ofTree_subset (path : String) {steps : List Step} {j : Nat} {s : Step}
    (hj : steps[j]? = some s) (i : Nat) (seen : List String) :
    ∃ isRepeated,
      ofTree (elementPath path (i + j)) isRepeated s ⊆ ofStepsFrom path i seen steps := by
  induction steps generalizing i j seen with
  | nil => cases hj
  | cons t ts ih =>
    rw [ofStepsFrom]
    cases j with
    | zero =>
      cases hj
      exact ⟨_, List.subset_append_left ..⟩
    | succ j =>
      obtain ⟨isRepeated, h⟩ := ih hj (i + 1) (t.id :: seen)
      rw [Nat.add_right_comm, Nat.add_assoc] at h
      exact ⟨isRepeated, List.subset_append_of_subset_right _ h⟩

theorem mem_emptyAt {path : String} {steps : List Step} {x : Site} :
    x ∈ emptyAt path steps ↔ steps = [] ∧ x = .emptyList path := by
  cases steps <;> simp [emptyAt]

theorem ofBranch_eq (path : String) (branch : Option (List Step)) :
    ofBranch path branch = branch.toList.flatMap fun l => emptyAt path l ++ ofSteps path l := by
  cases branch <;> simp [ofBranch, ofSteps]

theorem ofCaseList_eq (path : String) (cases : List (String × List Step)) :
    ofCaseList path cases = cases.flatMap fun x =>
      emptyAt (path ++ "." ++ x.1) x.2 ++ ofSteps (path ++ "." ++ x.1) x.2 := by
  induction cases with
  | nil => rw [ofCaseList, List.flatMap_nil]
  | cons x cases ih => rw [ofCaseList, ih, List.flatMap_cons, ofSteps]

/-- The places of what a step holds are its lists that should not be empty, and the places of the
lists. -/
theorem mem_ofChildren {path : String} {s : Step} {x : Site} :
    x ∈ ofChildren path s ↔ ¬ s.HasCases ∧ x = .noCases (path ++ ".switch") ∨
      ∃ y ∈ s.branches, x ∈ emptyAt (path ++ y.1.name) y.2 ++ ofSteps (path ++ y.1.name) y.2 := by
  have hcase (key : String) : path ++ ".switch" ++ "." ++ key = path ++ (".switch." ++ key) := by
    rw [show ".switch." = ".switch" ++ "." from rfl]
    simp only [String.append_assoc]
  cases s with
  | simple head leaf => simp [ofChildren, Step.HasCases, Step.branches]
  | conditional head condition ifSteps elseSteps cases defaultSteps =>
    have hcases : x ∈ ofCases (path ++ ".switch") cases ↔
        cases = some [] ∧ x = .noCases (path ++ ".switch") ∨
          x ∈ ((cases.getD []).map fun c => (Branch.case c.1, c.2)).flatMap fun y =>
            emptyAt (path ++ y.1.name) y.2 ++ ofSteps (path ++ y.1.name) y.2 := by
      cases cases with
      | none => simp [ofCases]
      | some cases =>
        rw [ofCases, List.mem_append, ofCaseList_eq, List.flatMap_map]
        simp only [hcase, Branch.name, Option.getD_some, Option.some.injEq]
        cases cases <;> simp [noCasesAt]
    rw [← List.mem_flatMap]
    simp only [ofChildren, ofBranch_eq, Step.branches, Step.HasCases, List.mem_append,
      List.flatMap_append, hcases, List.flatMap_map, Branch.name, ne_eq, not_not]
    tauto
  | loop head rule body => simp [ofChildren, Step.HasCases, Step.branches, Branch.name, ofSteps]
  | parallel head rule body => simp [ofChildren, Step.HasCases, Step.branches, Branch.name, ofSteps]

/-- The places of a tree belong to steps to which ways down lead from its root. -/
theorem exists_leads_of_mem_ofTree {s : Step} {path : String} {isRepeated : Bool} {x : Site}
    (hx : x ∈ ofTree path isRepeated s) :
    ∃ turns t, s.Leads turns t ∧ x.IsOf (path ++ Address.pathOfTurns turns) t := by
  induction s using Step.induction_on_branches generalizing path isRepeated with
  | h s ih =>
    have hself : path ++ Address.pathOfTurns [] = path := String.append_empty
    -- the step itself, a list in it that should not be empty, or a place in one of its lists
    rcases List.mem_cons.mp hx with rfl | hx
    · exact ⟨[], s, .here s, hself.symm ▸ .step isRepeated⟩
    rcases mem_ofChildren.mp hx with ⟨hcases, rfl⟩ | ⟨⟨branch, steps⟩, hy, hx⟩
    · exact ⟨[], s, .here s, hself.symm ▸ .noCases hcases⟩
    rcases List.mem_append.mp hx with hx | hx
    · obtain ⟨hnil, rfl⟩ := mem_emptyAt.mp hx
      obtain rfl : steps = [] := hnil
      exact ⟨[], s, .here s, hself.symm ▸ .emptyList hy⟩
    · obtain ⟨j, t, isRepeated, hj, hx⟩ := exists_of_mem_ofStepsFrom hx
      obtain ⟨turns, u, hu, hx⟩ := ih _ hy t (List.mem_of_getElem? hj) hx
      rw [Nat.zero_add, elementPath_append, String.append_assoc] at hx
      exact ⟨(branch, j) :: turns, u, .down hy hj hu, hx⟩

/-- **Each place of a list of steps belongs to a step** that an address leads to. -/
theorem exists_isOf {root : String} {steps : List Step} {x : Site} (hx : x ∈ ofSteps root steps) :
    ∃ a t, Address.LeadsTo a steps t ∧ x.IsOf (a.path root) t := by
  obtain ⟨i, s, isRepeated, hi, hx⟩ := exists_of_mem_ofStepsFrom hx
  rw [Nat.zero_add] at hx
  obtain ⟨turns, t, ht, hx⟩ := exists_leads_of_mem_ofTree hx
  exact ⟨⟨i, turns⟩, t, ⟨s, hi, ht⟩, hx⟩

end Site

/-- A step to which a way down leads is a place of the tree. -/
theorem Step.Leads.exists_site {s t : Step} {turns : List (Branch × Nat)} (h : s.Leads turns t)
    (path : String) (isRepeated : Bool) :
    ∃ isRepeated', .step (path ++ Address.pathOfTurns turns) isRepeated' t ∈
      Site.ofTree path isRepeated s := by
  induction h generalizing path isRepeated with
  | here s =>
    rw [Address.pathOfTurns, String.append_empty]
    exact ⟨isRepeated, List.mem_cons_self ..⟩
  | @down s branch steps i child turns x hb hi h ih =>
    obtain ⟨isRepeated', hsubset⟩ :=
      Site.exists_ofTree_subset (path ++ branch.name) hi 0 []
    obtain ⟨isRepeated'', hx⟩ := ih _ isRepeated'
    have hlist := List.mem_append_right (Site.emptyAt (path ++ branch.name) steps) (hsubset hx)
    rw [Nat.zero_add, Site.elementPath_append, String.append_assoc] at hlist
    exact ⟨isRepeated'', List.mem_cons_of_mem _ (Site.mem_ofChildren.mpr (.inr ⟨_, hb, hlist⟩))⟩

/-- **Each step that an address leads to is a place**, with the path that the address spells. -/
theorem Address.LeadsTo.exists_site {a : Address} {steps : List Step} {t : Step}
    (h : a.LeadsTo steps t) (root : String) :
    ∃ isRepeated, .step (a.path root) isRepeated t ∈ Site.ofSteps root steps := by
  obtain ⟨s, hs, h⟩ := h
  obtain ⟨isRepeated, hsubset⟩ := Site.exists_ofTree_subset root hs 0 []
  obtain ⟨isRepeated', hx⟩ := h.exists_site _ isRepeated
  have hmem := hsubset hx
  rw [Nat.zero_add] at hmem
  exact ⟨isRepeated', hmem⟩

/-- **Which steps are visited under which paths**: those that addresses lead to, under the paths
that the addresses spell. -/
theorem Site.step_mem_ofSteps_iff {root path : String} {steps : List Step} {t : Step} :
    (∃ isRepeated, .step path isRepeated t ∈ Site.ofSteps root steps) ↔
      ∃ a, Address.LeadsTo a steps t ∧ a.path root = path := by
  constructor
  · rintro ⟨isRepeated, h⟩
    obtain ⟨a, u, hu, hx⟩ := exists_isOf h
    generalize hp : a.path root = p at hx
    cases hx
    exact ⟨a, hu, hp⟩
  · rintro ⟨a, h, rfl⟩
    exact h.exists_site root

end WorkflowEngine
