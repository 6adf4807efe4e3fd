import WorkflowEngine.Proofs.Workflow.Validity

/-!
# Duplicate ids

A step whose id stands in its list before is reported, once and at its own place; the same id in
another list, even in one around it, does not matter. The report walks a step before what the step
holds, so that the errors of a list are not next to each other. The comparison is up to order for
this reason.

## Main definitions

* `Step.lists`: all the lists of a tree, with their paths
* `Issue.duplicatesIn`: what is to be reported for one list, position by position
* `Issue.isDuplicate`: the reports of duplicate ids

## Main results

* `Step.lists_eq`: which lists a tree has
* `Site.duplicates_ofSteps`: which duplicates are reported for a list of steps
* `Workflow.validate_sound_and_complete`: what makes a workflow valid, and which duplicates are
  reported
-/

namespace WorkflowEngine

/-! ### The lists of a tree -/

namespace Step

/-- The lists of steps that a step holds, with what their paths add to the one of the step. -/
def named : Step → List (String × List Step)
  | .simple .. => []
  | .conditional _ _ ifSteps elseSteps cases defaultSteps =>
    ifSteps.toList.map (".if", ·) ++ elseSteps.toList.map (".else", ·) ++
      (cases.getD []).map (fun (key, steps) => (".switch." ++ key, steps)) ++
      defaultSteps.toList.map (".default", ·)
  | .loop _ _ body => [(".steps", body)]
  | .parallel _ _ body => [(".steps", body)]

theorem map_snd_named (s : Step) : s.named.map Prod.snd = s.children := by
  cases s <;> simp [named, children, Function.comp_def]

mutual
/-- The lists in a step, at any depth. -/
def listsWithin (path : String) : Step → List (String × List Step)
  | .simple .. => []
  | .conditional _ _ ifSteps elseSteps cases defaultSteps =>
    listsOfOption (path ++ ".if") ifSteps ++ listsOfOption (path ++ ".else") elseSteps ++
      listsOfCases (path ++ ".switch") cases ++ listsOfOption (path ++ ".default") defaultSteps
  | .loop _ _ body => (path ++ ".steps", body) :: listsFrom (path ++ ".steps") 0 body
  | .parallel _ _ body => (path ++ ".steps", body) :: listsFrom (path ++ ".steps") 0 body

/-- The lists of a branch that may be absent. -/
def listsOfOption (path : String) : Option (List Step) → List (String × List Step)
  | none => []
  | some steps => (path, steps) :: listsFrom path 0 steps

/-- The lists of cases that may be absent. -/
def listsOfCases (path : String) : Option (List (String × List Step)) → List (String × List Step)
  | none => []
  | some cases => listsOfCaseList path cases

/-- The lists of cases. -/
def listsOfCaseList (path : String) : List (String × List Step) → List (String × List Step)
  | [] => []
  | (key, steps) :: cases =>
    (path ++ "." ++ key, steps) :: listsFrom (path ++ "." ++ key) 0 steps ++
      listsOfCaseList path cases

/-- The lists in the steps of a list from position `i` on. -/
def listsFrom (path : String) (i : Nat) : List Step → List (String × List Step)
  | [] => []
  | s :: ss => listsWithin (Site.elementPath path i) s ++ listsFrom path (i + 1) ss
end

/-- **All the lists of a tree**, with their paths. -/
def lists (path : String) (steps : List Step) : List (String × List Step) :=
  (path, steps) :: listsFrom path 0 steps

theorem listsOfOption_eq (path : String) (branch : Option (List Step)) :
    listsOfOption path branch = branch.toList.flatMap (lists path) := by
  cases branch <;> simp [listsOfOption, lists]

theorem listsOfCases_eq (path : String) (cases : Option (List (String × List Step))) :
    listsOfCases path cases =
      (cases.getD []).flatMap fun x => lists (path ++ "." ++ x.1) x.2 := by
  cases cases with
  | none => simp [listsOfCases]
  | some cases =>
    rw [listsOfCases, Option.getD_some]
    induction cases with
    | nil => simp [listsOfCaseList]
    | cons x cases ih =>
      rw [listsOfCaseList, ih, List.flatMap_cons]
      rfl

theorem listsWithin_eq (path : String) (s : Step) :
    listsWithin path s = s.named.flatMap fun x => lists (path ++ x.1) x.2 := by
  have hcase (key : String) : path ++ (".switch." ++ key) = path ++ ".switch" ++ "." ++ key := by
    rw [show ".switch." = ".switch" ++ "." from rfl]
    simp only [String.append_assoc]
  cases s with
  | conditional _ _ ifSteps elseSteps cases defaultSteps =>
    rw [listsWithin, listsOfOption_eq, listsOfOption_eq, listsOfOption_eq, listsOfCases_eq]
    simp [named, List.flatMap_map, hcase]
  | _ => simp [listsWithin, named, lists]

theorem listsFrom_eq (path : String) (i : Nat) (steps : List Step) :
    listsFrom path i steps =
      (steps.zipIdx i).flatMap fun x => listsWithin (Site.elementPath path x.2) x.1 := by
  induction steps generalizing i with
  | nil => simp [listsFrom]
  | cons s ss ih => rw [listsFrom, ih, List.zipIdx_cons, List.flatMap_cons]

/-- **Which lists a tree has**: the list itself, and those of the lists that its steps hold. -/
theorem lists_eq (path : String) (steps : List Step) :
    lists path steps = (path, steps) :: steps.zipIdx.flatMap fun x =>
      x.1.named.flatMap fun y => lists (Site.elementPath path x.2 ++ y.1) y.2 := by
  rw [lists, listsFrom_eq]
  simp only [listsWithin_eq]

end Step

/-! ### The reports of a list -/

namespace Issue

/-- The report of a duplicate id. -/
def isDuplicate (x : Issue) : Bool := "Duplicate step ID".toList.isPrefixOf x.message.toList

/-- What is to be reported for a position of a list: the id, if it is not blank and stands before.
-/
def duplicateAt (path : String) (steps : List Step) (x : Step × Nat) : Option Issue :=
  if Text.isBlankText x.1.id = false ∧ x.1.id ∈ (steps.take x.2).map Step.id then
    some ⟨Site.elementPath path x.2 ++ ".id", "Duplicate step ID: '" ++ x.1.id ++ "'"⟩
  else none

/-- **What is to be reported for a list**, position by position. -/
def duplicatesIn (path : String) (steps : List Step) : List Issue :=
  steps.zipIdx.filterMap (duplicateAt path steps)

/-- What is to be reported for some lists. -/
def duplicatesOf (lists : List (String × List Step)) : List Issue :=
  lists.flatMap fun x => duplicatesIn x.1 x.2

@[simp] theorem duplicatesOf_nil : duplicatesOf [] = [] := rfl

@[simp] theorem duplicatesOf_cons (path : String) (steps : List Step)
    (lists : List (String × List Step)) :
    duplicatesOf ((path, steps) :: lists) = duplicatesIn path steps ++ duplicatesOf lists :=
  List.flatMap_cons

@[simp] theorem duplicatesOf_append (l m : List (String × List Step)) :
    duplicatesOf (l ++ m) = duplicatesOf l ++ duplicatesOf m :=
  List.flatMap_append

end Issue

open Issue Step

namespace Site

/-- The reports of duplicate ids at some places. -/
def duplicates (sites : List Site) : List Issue := (sites.flatMap errors).filter isDuplicate

@[simp] theorem duplicates_nil : duplicates [] = [] := rfl

@[simp] theorem duplicates_append (l m : List Site) :
    duplicates (l ++ m) = duplicates l ++ duplicates m := by
  simp [duplicates]

@[simp] theorem duplicates_emptyAt (path : String) (steps : List Step) :
    duplicates (emptyAt path steps) = [] := by
  cases steps <;> simp [emptyAt, duplicates, errors, isDuplicate]

@[simp] theorem duplicates_noCasesAt (path : String) (cases : List (String × List Step)) :
    duplicates (noCasesAt path cases) = [] := by
  cases cases <;> simp [noCasesAt, duplicates, errors, isDuplicate]

theorem filter_issueIf {condition : Bool} {path message : String}
    (h : isDuplicate ⟨path, message⟩ = false) :
    (issueIf condition path message).filter isDuplicate = [] := by
  cases condition with
  | false => rfl
  | true => exact List.filter_cons_of_neg (by simp [h])

/-- Of the reports on a step itself, none but the one on its id is of a duplicate id. -/
theorem filter_stepIssues (path : String) (s : Step) :
    (stepIssues path s).filter isDuplicate = [] := by
  cases s <;>
    simp (disch := simp [isDuplicate, List.isPrefixOf]) only
      [stepIssues, List.filter_append, filter_issueIf, List.append_nil]

theorem filter_idIssues (path : String) (isRepeated : Bool) (id : String) :
    (idIssues path isRepeated id).filter isDuplicate =
      if Text.isBlankText id = false ∧ isRepeated = true then
        [⟨path ++ ".id", "Duplicate step ID: '" ++ id ++ "'"⟩]
      else [] := by
  have hmessage : isDuplicate ⟨path ++ ".id", "Duplicate step ID: '" ++ id ++ "'"⟩ = true := by
    simp [isDuplicate]
  have hblank : isDuplicate ⟨path ++ ".id", "step id is required"⟩ = false := by
    simp [isDuplicate, List.isPrefixOf]
  unfold idIssues
  cases Text.isBlankText id <;> cases isRepeated <;> simp [issueIf, hmessage, hblank]

/-- The report at a step is the one for its position. -/
theorem duplicates_step (path : String) (before : List Step) (s : Step) (ss : List Step) :
    duplicates [.step (elementPath path before.length)
        ((before.map Step.id).reverse.contains s.id) s] =
      (duplicateAt path (before ++ s :: ss) (s, before.length)).toList := by
  have hseen : (before.map Step.id).reverse.contains s.id = true ↔
      s.id ∈ ((before ++ s :: ss).take before.length).map Step.id := by
    simp
  rw [duplicates, List.flatMap_singleton, errors, List.filter_append, filter_stepIssues,
    List.append_nil, filter_idIssues, duplicateAt]
  simp only [hseen]
  split <;> rfl

theorem filterMap_cons_eq {α β : Type} (f : α → Option β) (x : α) (l : List α) :
    (x :: l).filterMap f = (f x).toList ++ l.filterMap f := by
  cases h : f x <;> simp [h]

mutual
/-- The reports for a list of steps after others, `before`. -/
theorem duplicates_ofStepsFrom (path : String) : ∀ before steps : List Step,
    (duplicates (ofStepsFrom path before.length (before.map Step.id).reverse steps)).Perm
      ((steps.zipIdx before.length).filterMap (duplicateAt path (before ++ steps)) ++
        duplicatesOf (listsFrom path before.length steps))
  | before, [] => by simp [ofStepsFrom, listsFrom]
  | before, s :: ss => by
    -- the walk comes to the rest of the list only after what the step holds
    have hss := duplicates_ofStepsFrom path (before ++ [s]) ss
    simp only [List.length_append, List.length_singleton, List.map_append, List.map_cons,
      List.map_nil, List.reverse_append, List.reverse_singleton, List.singleton_append,
      List.append_assoc] at hss
    rw [ofStepsFrom, listsFrom, duplicatesOf_append, List.zipIdx_cons, filterMap_cons_eq,
      ← duplicates_step, List.append_assoc, ← List.singleton_append, List.append_assoc,
      duplicates_append, duplicates_append]
    refine .append_left _ (((duplicates_ofChildren (elementPath path before.length) s).append
      hss).trans ?_)
    exact List.perm_append_comm_assoc ..

/-- The reports for the lists that a step holds. -/
theorem duplicates_ofChildren (path : String) : ∀ s : Step,
    (duplicates (ofChildren path s)).Perm (duplicatesOf (listsWithin path s))
  | .simple .. => by simp [ofChildren, listsWithin]
  | .conditional _ _ ifSteps elseSteps cases defaultSteps => by
    simp only [ofChildren, listsWithin, duplicates_append, duplicatesOf_append]
    exact (((duplicates_ofBranch _ ifSteps).append (duplicates_ofBranch _ elseSteps)).append
      (duplicates_ofCases _ cases)).append (duplicates_ofBranch _ defaultSteps)
  | .loop _ _ body => by
    simpa [ofChildren, listsWithin, duplicatesIn] using
      duplicates_ofStepsFrom (path ++ ".steps") [] body
  | .parallel _ _ body => by
    simpa [ofChildren, listsWithin, duplicatesIn] using
      duplicates_ofStepsFrom (path ++ ".steps") [] body

/-- The reports for a branch that may be absent. -/
theorem duplicates_ofBranch (path : String) : ∀ branch : Option (List Step),
    (duplicates (ofBranch path branch)).Perm (duplicatesOf (listsOfOption path branch))
  | none => by simp [ofBranch, listsOfOption]
  | some steps => by
    simpa [ofBranch, listsOfOption, duplicatesIn] using duplicates_ofStepsFrom path [] steps

/-- The reports for cases that may be absent. -/
theorem duplicates_ofCases (path : String) : ∀ cases : Option (List (String × List Step)),
    (duplicates (ofCases path cases)).Perm (duplicatesOf (listsOfCases path cases))
  | none => by simp [ofCases, listsOfCases]
  | some cases => by
    simpa [ofCases, listsOfCases] using duplicates_ofCaseList path cases

/-- The reports for cases. -/
theorem duplicates_ofCaseList (path : String) : ∀ cases : List (String × List Step),
    (duplicates (ofCaseList path cases)).Perm (duplicatesOf (listsOfCaseList path cases))
  | [] => by simp [ofCaseList, listsOfCaseList]
  | (key, steps) :: cases => by
    simpa [ofCaseList, listsOfCaseList, duplicatesIn] using
      (duplicates_ofStepsFrom (path ++ "." ++ key) [] steps).append
        (duplicates_ofCaseList path cases)
end

/-- **Which duplicates are reported for a list of steps**: for each list of the tree, those of its
positions. -/
theorem duplicates_ofSteps (path : String) (steps : List Step) :
    (duplicates (ofSteps path steps)).Perm (duplicatesOf (lists path steps)) := by
  simpa [ofSteps, lists, duplicatesIn] using duplicates_ofStepsFrom path [] steps

end Site

namespace Workflow

/-- None of the reports on the fields of a workflow is of a duplicate id. -/
theorem filter_fieldIssues (w : Workflow) : w.fieldIssues.filter isDuplicate = [] := by
  simp (disch := simp [isDuplicate, List.isPrefixOf]) only [fieldIssues, List.filter_append,
    Site.filter_issueIf, List.filter_flatMap, List.append_nil, List.nil_append]
  simp

/-- **A workflow has no errors if and only if all is right in it, and duplicate ids are reported
where they are**: once for each position of each list of the tree, at any depth, whose id is not
blank and stands before in the same list. -/
theorem validate_sound_and_complete (w : Workflow) :
    (w.validate.errors = [] ↔ w.IsValid) ∧
      (w.validate.errors.filter isDuplicate).Perm
        ((Step.lists "steps" w.steps).flatMap fun x => duplicatesIn x.1 x.2) := by
  refine ⟨errors_validate_eq_nil_iff, ?_⟩
  rw [validate, List.filter_append, filter_fieldIssues]
  exact Site.duplicates_ofSteps "steps" w.steps

end Workflow

end WorkflowEngine
