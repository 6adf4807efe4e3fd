import WorkflowEngine.CommandLine.Check
import WorkflowEngine.Proofs.Workflow.Walk

/-!
# Reports on what a workflow extends

The report on a workflow with a catalog tells, under the path `extends`, why the walk over what it
extends does not end well. Nothing else is reported under this path: the path of an error in a step
goes on behind the path of the list that the step is in, and the other fields have paths of their
own.

The walk is that of the catalog, where another version of the workflow may stand. So it goes on from
the parent of that version, and where both versions extend the same, the report says what the
command that checks files says, which puts the workflow itself in.

## Main definitions

* `Site.Behind`: a path goes on behind another one
* `Catalog.asStored`: a workflow that extends what the catalog's version of it extends

## Main results

* `Site.behind_of_mem_errors`: where the errors in a list of steps are
* `Catalog.checkLineage_congr`: a walk reads nothing but what workflows extend
* `Catalog.validate_reports_lineage`: what is reported under the path `extends`
-/

namespace WorkflowEngine

/-! ### Paths of errors -/

namespace Site

/-- **A path goes on behind another one**, or is the same. -/
def Behind (path p : String) : Prop := ∃ rest, p = path ++ rest

namespace Behind

variable {path p q : String}

theorem refl (path : String) : Behind path path := ⟨"", String.append_empty.symm⟩

theorem append (path rest : String) : Behind path (path ++ rest) := ⟨rest, rfl⟩

theorem trans (h : Behind path p) (h' : Behind p q) : Behind path q := by
  obtain ⟨r, rfl⟩ := h
  obtain ⟨s, rfl⟩ := h'
  exact ⟨r ++ s, String.append_assoc⟩

theorem elementPath (path : String) (i : Nat) : Behind path (elementPath path i) :=
  (append path "[").trans ((append _ _).trans (append _ _))

end Behind

/-- All of some places are behind a path. -/
def AreBehind (path : String) (sites : List Site) : Prop := ∀ x ∈ sites, Behind path x.path

namespace AreBehind

variable {path p : String} {l r : List Site}

theorem append (hl : AreBehind path l) (hr : AreBehind path r) : AreBehind path (l ++ r) :=
  List.forall_mem_append.mpr ⟨hl, hr⟩

theorem mono (h : Behind path p) (hl : AreBehind p l) : AreBehind path l :=
  fun x hx => h.trans (hl x hx)

theorem emptyAt (path : String) (steps : List Step) : AreBehind path (emptyAt path steps) := by
  cases steps with
  | nil => exact List.forall_mem_singleton.mpr (.refl path)
  | cons => nofun

theorem noCasesAt (path : String) (cases : List (String × List Step)) :
    AreBehind path (noCasesAt path cases) := by
  cases cases with
  | nil => exact List.forall_mem_singleton.mpr (.refl path)
  | cons => nofun

end AreBehind

mutual
theorem areBehind_ofStepsFrom (path : String) (i : Nat) (seen : List String) :
    ∀ steps : List Step, AreBehind path (ofStepsFrom path i seen steps)
  | [] => by
    rw [ofStepsFrom]
    nofun
  | s :: ss => by
    have hhere := Behind.elementPath path i
    rw [ofStepsFrom]
    refine .append (List.forall_mem_cons.mpr ⟨hhere, ?_⟩)
      (areBehind_ofStepsFrom path (i + 1) (s.id :: seen) ss)
    exact (areBehind_ofChildren (elementPath path i) s).mono hhere

theorem areBehind_ofChildren (path : String) : ∀ s : Step, AreBehind path (ofChildren path s)
  | .simple .. => by
    rw [ofChildren]
    nofun
  | .conditional _ _ ifSteps elseSteps cases defaultSteps => by
    rw [ofChildren]
    exact ((((areBehind_ofBranch _ ifSteps).mono (.append path ".if")).append
      ((areBehind_ofBranch _ elseSteps).mono (.append path ".else"))).append
      ((areBehind_ofCases _ cases).mono (.append path ".switch"))).append
      ((areBehind_ofBranch _ defaultSteps).mono (.append path ".default"))
  | .loop _ _ body => by
    rw [ofChildren]
    exact ((AreBehind.emptyAt _ body).append (areBehind_ofStepsFrom _ 0 [] body)).mono
      (.append path ".steps")
  | .parallel _ _ body => by
    rw [ofChildren]
    exact ((AreBehind.emptyAt _ body).append (areBehind_ofStepsFrom _ 0 [] body)).mono
      (.append path ".steps")

theorem areBehind_ofBranch (path : String) :
    ∀ branch : Option (List Step), AreBehind path (ofBranch path branch)
  | none => by
    rw [ofBranch]
    nofun
  | some steps => by
    rw [ofBranch]
    exact (AreBehind.emptyAt path steps).append (areBehind_ofStepsFrom path 0 [] steps)

theorem areBehind_ofCases (path : String) :
    ∀ cases : Option (List (String × List Step)), AreBehind path (ofCases path cases)
  | none => by
    rw [ofCases]
    nofun
  | some cases => by
    rw [ofCases]
    exact (AreBehind.noCasesAt path cases).append (areBehind_ofCaseList path cases)

theorem areBehind_ofCaseList (path : String) :
    ∀ cases : List (String × List Step), AreBehind path (ofCaseList path cases)
  | [] => by
    rw [ofCaseList]
    nofun
  | (key, steps) :: cases => by
    rw [ofCaseList]
    refine .append ?_ (areBehind_ofCaseList path cases)
    exact ((AreBehind.emptyAt _ steps).append (areBehind_ofStepsFrom _ 0 [] steps)).mono
      ((Behind.append path ".").trans (.append _ key))
end

theorem mem_issueIf {b : Bool} {path message : String} {i : Issue} :
    i ∈ issueIf b path message ↔ b = true ∧ i = ⟨path, message⟩ := by
  cases b <;> simp [issueIf]

/-- An issue that a condition may raise has the path that goes with it. -/
theorem behind_of_mem_issueIf {b : Bool} {path p message : String} (h : Behind path p) :
    ∀ i ∈ issueIf b p message, Behind path i.path := by
  rintro _ hi
  obtain ⟨-, rfl⟩ := mem_issueIf.mp hi
  exact h

/-- The errors at a place are behind its path. -/
theorem behind_of_mem_errors_site {x : Site} : ∀ i ∈ x.errors, Behind x.path i.path := by
  cases x with
  | emptyList path => exact List.forall_mem_singleton.mpr (.refl path)
  | noCases path => exact List.forall_mem_singleton.mpr (.refl path)
  | step path isRepeated s =>
    refine List.forall_mem_append.mpr ⟨?_, ?_⟩
    · unfold idIssues
      split
      · exact List.forall_mem_singleton.mpr (.append path _)
      · exact behind_of_mem_issueIf (.append path _)
    · cases s with
      | simple head leaf => exact behind_of_mem_issueIf (.append path _)
      | conditional head condition ifSteps elseSteps cases defaultSteps =>
        simp only [stepIssues, List.forall_mem_append]
        exact ⟨⟨⟨⟨behind_of_mem_issueIf (.append path _), behind_of_mem_issueIf (.refl path)⟩,
          behind_of_mem_issueIf (.refl path)⟩, behind_of_mem_issueIf (.append path _)⟩,
          behind_of_mem_issueIf (.append path _)⟩
      | loop head rule body =>
        exact List.forall_mem_append.mpr ⟨behind_of_mem_issueIf (.append path _),
          behind_of_mem_issueIf (.append path _)⟩
      | parallel head rule body => exact behind_of_mem_issueIf (.append path _)

/-- **The errors in a list of steps are behind the path of the list.** -/
theorem behind_of_mem_errors {path : String} {steps : List Step} :
    ∀ i ∈ (ofSteps path steps).flatMap errors, Behind path i.path := by
  intro i hi
  obtain ⟨x, hx, hi⟩ := List.mem_flatMap.mp hi
  exact (areBehind_ofStepsFrom path 0 [] steps x hx).trans (behind_of_mem_errors_site i hi)

end Site

/-- **The report on a workflow by itself says nothing of what it extends.** -/
theorem Workflow.path_ne_extends {w : Workflow} :
    ∀ i ∈ w.validate.errors, i.path ≠ "extends" := by
  intro i hi hpath
  rcases List.mem_append.mp hi with hi | hi
  · simp only [fieldIssues, List.mem_append, List.mem_flatMap, Site.mem_issueIf] at hi
    rcases hi with (((⟨-, rfl⟩ | ⟨-, rfl⟩) | ⟨_, -, -, rfl⟩) | ⟨-, rfl⟩) | ⟨_, -, -, rfl⟩
    · simp at hpath
    · simp at hpath
    · simp at hpath
    · simp at hpath
    · have hchars := congrArg String.toList hpath
      simp at hchars
  · obtain ⟨rest, hrest⟩ := Site.behind_of_mem_errors i hi
    have hchars := congrArg String.toList (hpath.symm.trans hrest)
    simp at hchars

/-! ### The walk of the catalog -/

/-- A document of a workflow `child`, which extends another one. -/
def Document.ofChild (parent : String) : Document :=
  { id := some "child", name := some "child", parent := some parent
    steps := [.mk { id := some "a", type := some "command", action := some "new" }
      none none none none none] }

/-- The workflow of such a document. -/
def Workflow.ofChild (parent : String) : Workflow :=
  .extending (some parent) "child" [.asking "a" "new"]

namespace Catalog

open CommandLine (Check)

variable {catalog catalog' : Catalog} {w : Workflow}

theorem checkFrom_congr_parent {n : Nat} {seen : List String} {id : String}
    (h : ∀ i, (Dict.find? catalog' i).map Workflow.parent =
      (Dict.find? catalog i).map Workflow.parent) :
    catalog'.checkFrom n seen id = catalog.checkFrom n seen id := by
  induction n generalizing seen id with
  | zero => rfl
  | succ n ih =>
    have hid := h id
    rw [checkFrom.eq_def, checkFrom.eq_def catalog]
    cases hw : Dict.find? catalog id with
    | none =>
      rw [hw, Option.map_none, Option.map_eq_none_iff] at hid
      rw [hid]
    | some w =>
      rw [hw, Option.map_some] at hid
      obtain ⟨w', hw', hp⟩ := Option.map_eq_some_iff.mp hid
      simp only [hw', hp, ih]

/-- **A walk reads nothing but what workflows extend.** -/
theorem checkLineage_congr (hlength : catalog.length ≤ catalog'.length) (id : String)
    (h : ∀ i, (Dict.find? catalog' i).map Workflow.parent =
      (Dict.find? catalog i).map Workflow.parent) :
    catalog'.checkLineage id = catalog.checkLineage id :=
  (checkFrom_congr_parent h).trans (checkFrom_eq_checkLineage hlength)

/-- **A workflow that extends what the catalog's version of it extends**, if there is one. -/
def asStored (catalog : Catalog) (w : Workflow) : Workflow :=
  match Dict.find? catalog w.id with
  | some v => { w with parent := v.parent }
  | none => w

@[simp] theorem asStored_id : (catalog.asStored w).id = w.id := by
  unfold asStored
  split <;> rfl

theorem asStored_of_parent_eq (h : ∀ v ∈ Dict.find? catalog w.id, v.parent = w.parent) :
    catalog.asStored w = w := by
  unfold asStored
  cases hv : Dict.find? catalog w.id with
  | none => rfl
  | some v => simp only [h v hv]

/-- The walk of the report is the one with the workflow put in as the catalog has it. -/
theorem checkLineage_known : checkLineage
      (if Dict.hasKey catalog w.id then catalog else Dict.insert catalog w.id w) w.id =
    checkLineage (Dict.insert catalog w.id (catalog.asStored w)) w.id := by
  unfold Dict.hasKey asStored
  cases hv : Dict.find? catalog w.id with
  | none => rfl
  | some v =>
    have hwalk : checkLineage (Dict.insert catalog w.id { w with parent := v.parent }) w.id =
        catalog.checkLineage w.id := by
      refine checkLineage_congr (Dict.length_le_length_insert ..) w.id fun i => ?_
      by_cases hi : i = w.id
      · rw [hi, Dict.find?_insert_self, hv]
        rfl
      · rw [Dict.find?_insert_of_ne _ _ hi]
    exact hwalk.symm

/-- The check of a file asks whether there is a parent, but without one the walk ends well. -/
theorem lineageIssues_eq (catalog : Catalog) (w : Workflow) : Check.lineageIssues catalog w =
    match checkLineage (Dict.insert catalog w.id w) w.id with
    | .ok () => []
    | .error e => [⟨"extends", e.message⟩] := by
  unfold Check.lineageIssues
  cases hp : w.parent with
  | none =>
    have hok : checkLineage (Dict.insert catalog w.id w) w.id = .ok () :=
      Walk.start.checkLineage_of_root (Dict.find?_insert_self ..) hp
    rw [hok]
    rfl
  | some p => rfl

theorem mem_lineageIssues_iff {i : Issue} : i ∈ Check.lineageIssues catalog w ↔
    ∃ e, checkLineage (Dict.insert catalog w.id w) w.id = .error e ∧
      i = ⟨"extends", e.message⟩ := by
  rw [lineageIssues_eq]
  cases checkLineage (Dict.insert catalog w.id w) w.id <;> simp

/-- The report has, behind the errors of the workflow by itself, what the check of a file would find
if the workflow extended what the catalog's version extends. -/
theorem errors_validate {p : String} (hp : w.parent = some p) :
    (catalog.validate w).errors =
      w.validate.errors ++ Check.lineageIssues catalog (catalog.asStored w) := by
  rw [lineageIssues_eq, asStored_id, ← checkLineage_known, validate, if_neg (by simp [hp])]
  dsimp only
  generalize checkLineage _ w.id = r
  cases r <;> simp

/-- **What is reported under the path `extends`.** It is why the walk does not end well that goes
from the workflow to what the catalog's version of it extends. If there is no other version, or if
it extends the same, then this is the walk of the workflow itself, and the report has the errors
that the check of a file with the workflow finds. -/
theorem validate_reports_lineage (catalog : Catalog) {w : Workflow} {p : String}
    (hp : w.parent = some p) :
    (∀ message, ⟨"extends", message⟩ ∈ (catalog.validate w).errors ↔
      ∃ e, checkLineage (Dict.insert catalog w.id (catalog.asStored w)) w.id = .error e ∧
        message = e.message) ∧
    ((∀ v ∈ Dict.find? catalog w.id, v.parent = w.parent) →
      (∀ message, ⟨"extends", message⟩ ∈ (catalog.validate w).errors ↔
        ∃ e, checkLineage (Dict.insert catalog w.id w) w.id = .error e ∧ message = e.message) ∧
      ∀ file d, d.compile = .ok w →
        (Check.ofDocument file (some catalog) d).errors = (catalog.validate w).errors) := by
  have hstored : ∀ message, ⟨"extends", message⟩ ∈ (catalog.validate w).errors ↔
      ∃ e, checkLineage (Dict.insert catalog w.id (catalog.asStored w)) w.id = .error e ∧
        message = e.message := by
    intro message
    have hself : ⟨"extends", message⟩ ∉ w.validate.errors :=
      fun hmem => Workflow.path_ne_extends _ hmem rfl
    simp [errors_validate hp, hself, mem_lineageIssues_iff, asStored_id]
  refine ⟨hstored, fun hsame => ?_⟩
  have hw := asStored_of_parent_eq hsame
  refine ⟨?_, fun file d hd => ?_⟩
  · rwa [hw] at hstored
  · rw [errors_validate hp, hw]
    simp [Check.ofDocument, hd]

/-- Two workflows that extend one another. -/
def ofTwo : Catalog :=
  [("child", .extending (some "parent") "child" [.asking "a" "old"]),
    ("parent", .extending (some "child") "parent" [.asking "a" "old"])]

/-- A later version of a workflow in a circle. -/
theorem validate_reports_lineage_ofTwo :
    ⟨"extends", "circular dependency: child -> parent -> child"⟩ ∈
        (ofTwo.validate (.ofChild "parent")).errors ∧
      (Check.ofDocument "child.yaml" (some ofTwo) (.ofChild "parent")).errors =
        (ofTwo.validate (.ofChild "parent")).errors := by
  obtain ⟨hreport, hcheck⟩ :=
    (validate_reports_lineage ofTwo (rfl : (Workflow.ofChild "parent").parent = _)).2
      (by rintro v ⟨⟩; rfl)
  refine ⟨(hreport _).mpr ⟨.circular ["child", "parent", "child"], rfl, ?_⟩, hcheck _ _ rfl⟩
  decide

/-- The catalog has a version of the workflow that extends nothing. -/
def ofRoot : Catalog := [("child", .extending none "child" [.asking "a" "old"])]

/-- **An unknown parent that is overlooked**: the later version extends a workflow that there is
none of, and its report has no errors; the check of a file with this version finds the error. -/
theorem validate_overlooks_parent :
    (Workflow.ofChild "ghost").parent = some "ghost" ∧
      checkLineage (Dict.insert ofRoot "child" (.ofChild "ghost")) "child" =
        .error (.unknownParent "child" "ghost") ∧
      (ofRoot.validate (.ofChild "ghost")).errors = [] ∧
      (Document.ofChild "ghost").compile = .ok (.ofChild "ghost") ∧
      (Check.ofDocument "child.yaml" (some ofRoot) (.ofChild "ghost")).errors =
        [⟨"extends", "workflow 'child' extends unknown parent 'ghost'"⟩] :=
  ⟨rfl, rfl, rfl, rfl, rfl⟩

end Catalog

end WorkflowEngine
