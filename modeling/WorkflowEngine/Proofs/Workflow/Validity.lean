import Mathlib.Data.Option.Basic
import WorkflowEngine.Proofs.Dict
import WorkflowEngine.Proofs.Workflow.Merge
import WorkflowEngine.Workflow.Validation

/-!
# Valid workflows

What a workflow without errors is, said without paths, messages and the order of the walk: its own
fields are right, and at every depth of its tree the ids of a list are distinct, no nested list is
empty, and each step keeps the rules of its kind. A merge of two such workflows is one again.

## Main definitions

* `Step.KeepsRules`: what a step has to be, the steps that it holds apart
* `Step.Sound`, `Step.AreSound`: a tree of steps, and a list of trees, in which all is right
* `Workflow.IsValid`: a workflow in which all is right

## Main results

* `Site.flatMap_errors_eq_nil_iff`: there are no errors in a list of steps if and only if all is
  right
* `Workflow.isValid_validate_iff`: the same for a workflow
* `Workflow.IsValid.merge`: merges of valid workflows are valid
-/

namespace WorkflowEngine

namespace Step

/-- **What a step has to be**, the steps that it holds apart. -/
def KeepsRules : Step → Prop
  | .simple _ leaf => Text.isBlankText leaf.action = false
  | .conditional _ condition ifSteps elseSteps cases defaultSteps =>
    Text.isBlankText condition = false ∧
      -- it chooses by truth or by value, and has the other branch only with the first one
      ((ifSteps.isSome = true ∧ cases = none ∧ defaultSteps = none) ∨
        (ifSteps = none ∧ elseSteps = none ∧ cases.isSome = true ∧ cases ≠ some []))
  | .loop _ rule _ =>
    rule.type.isSome = true ∧
      (rule.type = some .whileTrue →
        ∃ condition ∈ rule.condition, Text.isBlankText condition = false)
  | .parallel _ rule _ => ∀ n ∈ rule.maxConcurrency, 0 < n

/-- **A tree of steps in which all is right.** -/
inductive Sound : Step → Prop where
  | intro {s} (id : Text.isBlankText s.id = false) (rules : s.KeepsRules)
    (nonempty : ∀ steps ∈ s.children, steps ≠ [])
    (distinct : ∀ steps ∈ s.children, (steps.map Step.id).Nodup)
    (nested : ∀ steps ∈ s.children, ∀ x ∈ steps, Sound x) : Sound s

/-- **A list of trees in which all is right.** -/
structure AreSound (steps : List Step) : Prop where
  distinct : (steps.map Step.id).Nodup
  each : ∀ s ∈ steps, s.Sound

/-- A nested list in which all is right. -/
def IsNested (steps : List Step) : Prop := steps ≠ [] ∧ AreSound steps

theorem sound_iff {s : Step} :
    s.Sound ↔
      Text.isBlankText s.id = false ∧ s.KeepsRules ∧ ∀ steps ∈ s.children, IsNested steps := by
  constructor
  · rintro ⟨hid, hrules, hne, hdistinct, hnested⟩
    exact ⟨hid, hrules, fun l hl => ⟨hne l hl, hdistinct l hl, hnested l hl⟩⟩
  · rintro ⟨hid, hrules, hnested⟩
    exact .intro hid hrules (fun l hl => (hnested l hl).1) (fun l hl => (hnested l hl).2.distinct)
      fun l hl => (hnested l hl).2.each

/-- What a conditional that chooses by value has to be. -/
def HasCases : Step → Prop
  | .conditional _ _ _ _ cases _ => cases ≠ some []
  | _ => True

end Step

open Step

namespace Site

@[simp] theorem issueIf_eq_nil_iff {b : Bool} {path message : String} :
    issueIf b path message = [] ↔ b = false := by
  cases b <;> simp [issueIf]

/-- Nothing is wrong at some places. -/
def Clean (sites : List Site) : Prop := ∀ x ∈ sites, x.errors = []

@[simp] theorem clean_nil : Clean [] := nofun

@[simp] theorem clean_cons {x : Site} {sites : List Site} :
    Clean (x :: sites) ↔ x.errors = [] ∧ Clean sites :=
  List.forall_mem_cons

@[simp] theorem clean_append {l r : List Site} : Clean (l ++ r) ↔ Clean l ∧ Clean r :=
  List.forall_mem_append

@[simp] theorem clean_emptyAt {path : String} {steps : List Step} :
    Clean (emptyAt path steps) ↔ steps ≠ [] := by
  cases steps <;> simp [emptyAt, errors]

@[simp] theorem clean_noCasesAt {path : String} {cases : List (String × List Step)} :
    Clean (noCasesAt path cases) ↔ cases ≠ [] := by
  cases cases <;> simp [noCasesAt, errors]

theorem idIssues_eq_nil_iff {path id : String} {isRepeated : Bool} :
    idIssues path isRepeated id = [] ↔ Text.isBlankText id = false ∧ isRepeated = false := by
  unfold idIssues
  cases Text.isBlankText id <;> simp

/-- The rules of a step, but for the one that cases are not empty, are checked at the step itself.
-/
theorem keepsRules_iff {path : String} {s : Step} :
    s.KeepsRules ↔ stepIssues path s = [] ∧ s.HasCases := by
  cases s with
  | simple head leaf => simp [KeepsRules, stepIssues, HasCases]
  | conditional head condition ifSteps elseSteps cases defaultSteps =>
    cases ifSteps <;> cases elseSteps <;> cases cases <;> cases defaultSteps <;>
      simp [KeepsRules, stepIssues, HasCases]
  | loop head rule body =>
    obtain ⟨type, condition, -⟩ := rule
    cases type with
    | none => simp [KeepsRules, stepIssues, HasCases]
    | some type => cases type <;> cases condition <;> simp [KeepsRules, stepIssues, HasCases]
  | parallel head rule body =>
    cases h : rule.maxConcurrency <;> simp [KeepsRules, stepIssues, HasCases, h]

mutual
/-- Nothing is wrong with a list of steps after those with the ids `seen`. -/
theorem clean_ofStepsFrom (path : String) (i : Nat) (seen : List String) : ∀ steps : List Step,
    Clean (ofStepsFrom path i seen steps) ↔ AreSound steps ∧ ∀ s ∈ steps, s.id ∉ seen
  | [] => by
    rw [ofStepsFrom]
    exact ⟨fun _ => ⟨⟨List.nodup_nil, nofun⟩, nofun⟩, fun _ => clean_nil⟩
  | s :: ss => by
    rw [ofStepsFrom, clean_append, clean_cons, clean_ofChildren (elementPath path i) s,
      clean_ofStepsFrom path (i + 1) (s.id :: seen) ss, errors, List.append_eq_nil_iff,
      idIssues_eq_nil_iff]
    constructor
    · rintro ⟨⟨⟨⟨hid, hseen⟩, hissues⟩, hcases, hnested⟩, ⟨hdistinct, heach⟩, hss⟩
      have hs : s.Sound := sound_iff.mpr ⟨hid, keepsRules_iff.mpr ⟨hissues, hcases⟩, hnested⟩
      refine ⟨⟨List.nodup_cons.mpr ⟨fun hmem => ?_, hdistinct⟩,
        List.forall_mem_cons.mpr ⟨hs, heach⟩⟩,
        List.forall_mem_cons.mpr ⟨by simpa using hseen, fun x hx hx' => ?_⟩⟩
      · obtain ⟨x, hx, hid⟩ := List.mem_map.mp hmem
        exact hss x hx (hid ▸ List.mem_cons_self ..)
      · exact hss x hx (List.mem_cons_of_mem _ hx')
    · rintro ⟨⟨hdistinct, heach⟩, hseen⟩
      obtain ⟨hs, heach⟩ := List.forall_mem_cons.mp heach
      obtain ⟨hseen, hss⟩ := List.forall_mem_cons.mp hseen
      obtain ⟨hnot, hdistinct⟩ := List.nodup_cons.mp hdistinct
      obtain ⟨hid, hrules, hnested⟩ := sound_iff.mp hs
      obtain ⟨hissues, hcases⟩ := keepsRules_iff.mp hrules
      refine ⟨⟨⟨⟨hid, by simpa using hseen⟩, hissues⟩, hcases, hnested⟩, ⟨hdistinct, heach⟩, ?_⟩
      intro x hx hmem
      rcases List.mem_cons.mp hmem with he | hmem
      · exact hnot (he ▸ List.mem_map_of_mem hx)
      · exact hss x hx hmem

/-- Nothing is wrong with the lists that a step holds. -/
theorem clean_ofChildren (path : String) : ∀ s : Step,
    Clean (ofChildren path s) ↔ s.HasCases ∧ ∀ steps ∈ s.children, IsNested steps
  | .simple .. => by simp [ofChildren, HasCases, children]
  | .conditional _ _ ifSteps elseSteps cases defaultSteps => by
    rw [ofChildren, clean_append, clean_append, clean_append, clean_ofBranch _ ifSteps,
      clean_ofBranch _ elseSteps, clean_ofCases _ cases, clean_ofBranch _ defaultSteps]
    simp only [children, HasCases, List.forall_mem_append]
    tauto
  | .loop _ _ body => by
    rw [ofChildren, clean_append, clean_emptyAt, clean_ofStepsFrom _ 0 [] body]
    simp [children, HasCases, IsNested]
  | .parallel _ _ body => by
    rw [ofChildren, clean_append, clean_emptyAt, clean_ofStepsFrom _ 0 [] body]
    simp [children, HasCases, IsNested]

/-- Nothing is wrong with a branch that may be absent. -/
theorem clean_ofBranch (path : String) : ∀ branch : Option (List Step),
    Clean (ofBranch path branch) ↔ ∀ steps ∈ branch.toList, IsNested steps
  | none => by simp [ofBranch]
  | some steps => by
    rw [ofBranch, clean_append, clean_emptyAt, clean_ofStepsFrom _ 0 [] steps]
    simp [IsNested]

/-- Nothing is wrong with cases that may be absent. -/
theorem clean_ofCases (path : String) : ∀ cases : Option (List (String × List Step)),
    Clean (ofCases path cases) ↔
      cases ≠ some [] ∧ ∀ steps ∈ (cases.getD []).map Prod.snd, IsNested steps
  | none => by simp [ofCases]
  | some cases => by
    rw [ofCases, clean_append, clean_noCasesAt, clean_ofCaseList _ cases]
    simp

/-- Nothing is wrong with cases. -/
theorem clean_ofCaseList (path : String) : ∀ cases : List (String × List Step),
    Clean (ofCaseList path cases) ↔ ∀ steps ∈ cases.map Prod.snd, IsNested steps
  | [] => by simp [ofCaseList]
  | (key, steps) :: cases => by
    rw [ofCaseList, clean_append, clean_append, clean_emptyAt, clean_ofStepsFrom _ 0 [] steps,
      clean_ofCaseList path cases]
    simp [IsNested]
end

/-- **There are no errors in a list of steps if and only if all is right in it.** -/
theorem flatMap_errors_eq_nil_iff (path : String) (steps : List Step) :
    (ofSteps path steps).flatMap errors = [] ↔ AreSound steps := by
  rw [List.flatMap_eq_nil_iff, ofSteps]
  exact (clean_ofStepsFrom path 0 [] steps).trans (and_iff_left fun _ _ => List.not_mem_nil)

end Site

namespace Workflow

/-- **A workflow in which all is right.** -/
structure IsValid (w : Workflow) : Prop where
  id : Text.isBlankText w.id = false
  name : Text.isBlankText w.name = false
  version : ∀ v ∈ w.version, Version.isVersion v = true
  /-- Only a workflow that is there to be extended may have no steps. -/
  nonempty : w.isAbstract = false → w.steps ≠ []
  parameters : ∀ p ∈ w.parameters, p.2.type.isSome = true
  steps : AreSound w.steps

theorem fieldIssues_eq_nil_iff {w : Workflow} :
    w.fieldIssues = [] ↔ Text.isBlankText w.id = false ∧ Text.isBlankText w.name = false ∧
      (∀ v ∈ w.version, Version.isVersion v = true) ∧ (w.isAbstract = false → w.steps ≠ []) ∧
      ∀ p ∈ w.parameters, p.2.type.isSome = true := by
  unfold fieldIssues
  simp only [List.append_eq_nil_iff, Site.issueIf_eq_nil_iff, List.flatMap_eq_nil_iff,
    Option.mem_toList, Option.mem_def, Bool.and_eq_false_imp, Bool.not_eq_eq_eq_not,
    Bool.not_true, Bool.not_false, List.isEmpty_eq_false_iff, Option.isNone_eq_false_iff, and_assoc]

theorem errors_validate_eq_nil_iff {w : Workflow} : w.validate.errors = [] ↔ w.IsValid := by
  show w.fieldIssues ++ _ = [] ↔ _
  rw [List.append_eq_nil_iff, fieldIssues_eq_nil_iff, Site.flatMap_errors_eq_nil_iff]
  constructor
  · rintro ⟨⟨hid, hname, hversion, hne, hparameters⟩, hsteps⟩
    exact ⟨hid, hname, hversion, hne, hparameters, hsteps⟩
  · rintro ⟨hid, hname, hversion, hne, hparameters, hsteps⟩
    exact ⟨⟨hid, hname, hversion, hne, hparameters⟩, hsteps⟩

/-- **The report on a workflow has no errors if and only if all is right in it.** -/
theorem isValid_validate_iff {w : Workflow} : w.validate.isValid = true ↔ w.IsValid := by
  rw [Report.isValid, List.isEmpty_iff]
  exact errors_validate_eq_nil_iff

end Workflow

/-! ### Merges of valid workflows -/

/-- The steps of a merge are all right if those of the parent and of the child are. -/
theorem Step.AreSound.merge {parent child : List Step} (hp : AreSound parent)
    (hc : AreSound child) : AreSound (mergeSteps parent child) where
  distinct := nodup_mergeSteps hp.distinct hc.distinct
  each s hs := by
    rcases mem_mergeSteps.mp hs with ⟨hs, -⟩ | ⟨p, hpm, rfl⟩
    · exact hc.each s hs
    · rcases Merge.replacement_cases child p with ⟨hr, -⟩ | ⟨hr, -⟩
      · exact hc.each _ hr
      · exact hr.symm ▸ hp.each p hpm

/-- **Merges of valid workflows are valid.** -/
theorem Workflow.IsValid.merge {parent child : Workflow} (hp : parent.IsValid)
    (hc : child.IsValid) : (parent.merge child).IsValid where
  id := hc.id
  name := hc.name
  version v hv := by
    -- the version is the child's, or the parent's where the child has none
    have hv : (child.version <|> parent.version) = some v := hv
    rcases (Option.orElse_eq_some _ _ v).mp hv with hv | ⟨-, hv⟩
    · exact hc.version v hv
    · exact hp.version v hv
  nonempty ha := by
    obtain ⟨s, hs⟩ := List.exists_mem_of_ne_nil _ (hc.nonempty ha)
    intro hnil
    have hid : s.id ∈ (mergeSteps parent.steps child.steps).map Step.id :=
      (mem_ids_mergeSteps hp.steps.distinct).mpr (.inr (List.mem_map_of_mem hs))
    rw [show mergeSteps parent.steps child.steps = [] from hnil] at hid
    exact List.not_mem_nil hid
  parameters p h := (Dict.mem_extend h).elim (hp.parameters p) (hc.parameters p)
  steps := hp.steps.merge hc.steps

end WorkflowEngine
