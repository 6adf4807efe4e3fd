import WorkflowEngine.Document.Writing
import WorkflowEngine.Proofs.Workflow.Paths
import WorkflowEngine.Proofs.Workflow.Report

/-!
# Paths of issues

An issue is about a field of the workflow, or it is about a step and its path goes on from the path
of the step. What is added is free of brackets, unless it is the key of a case without steps. So
two issues with the same path are about the same step, as long as no key of a switch spells a step
in another one of its cases. Keys are not quoted in paths, and with such keys the paths of two steps
may be the same.

## Main definitions

* `Step.Ends`: what the path of an issue adds to the path of a step
* `Step.Shadows`, `Address.Shadows`: the key of a case without steps spells a step in another case
* `Workflow.Concerns`: an issue is about the step at an address

## Main results

* `Site.IsOf.exists_ends`: the path of an issue goes on from the path of a step
* `Workflow.Concerns.eq_or_crossed_or_shadowed`: issues with the same path
* `Document.paths_tell_steps_apart`: what paths tell in a workflow that was compiled
* `Document.crossed_steps_share_path`: keys that mislead
-/

namespace WorkflowEngine

open Address (pathOfTurns)

/-! ### Ends of issue paths -/

namespace Step

/-- **What the path of an issue adds to the path of the step that it is about**: nothing, a field,
or the list that should not be empty. Brackets stand in the keys of cases only. -/
inductive Ends (s : Step) : String → Prop where
  | plain {e} (hdotted : Dotted e) (hplain : '[' ∉ e.toList) : Ends s e
  | emptyCase {key} (h : (.case key, []) ∈ s.branches) : Ends s (Branch.case key).name

theorem Ends.dotted {s : Step} {e : String} (h : s.Ends e) : Dotted e := by
  cases h with
  | plain hdotted => exact hdotted
  | @emptyCase key =>
    rw [← String.append_empty (s := (Branch.case key).name)]
    exact dotted_name _ _

/-- A list that should not be empty ends a path. -/
theorem ends_name {s : Step} {branch : Branch} (h : (branch, []) ∈ s.branches) :
    s.Ends branch.name := by
  cases branch with
  | case key => exact .emptyCase h
  | whenTrue | whenFalse | otherwise | body => exact .plain (.inr ⟨_, rfl⟩) (by decide)

end Step

namespace Site

/-- **What the paths of issues add to the path of a step**, if the issues are about its fields. -/
def fields : List String :=
  ["", ".id", ".action", ".condition", ".else", ".default", ".loopType", ".maxConcurrency",
    ".maxIterations", ".switch"]

theorem ends_of_mem_fields {s : Step} {e : String} (h : e ∈ fields) : s.Ends e := by
  have hfields : ∀ e ∈ fields, (e.toList = [] ∨ e.toList.head? = some '.') ∧ '[' ∉ e.toList := by
    decide
  obtain ⟨hdotted, hplain⟩ := hfields e h
  exact .plain (hdotted.imp_right List.head?_eq_some_iff.mp) hplain

/-- An issue that a condition may raise about a field ends in the field. -/
theorem exists_of_mem_issueIf {b : Bool} {path message e : String} {i : Issue} (he : e ∈ fields)
    (hi : i ∈ issueIf b (path ++ e) message) : ∃ e ∈ fields, i.path = path ++ e := by
  obtain ⟨-, rfl⟩ := mem_issueIf.mp hi
  exact ⟨e, he, rfl⟩

theorem exists_of_mem_errors {path : String} {isRepeated : Bool} {s : Step} {i : Issue}
    (hi : i ∈ (step path isRepeated s).errors) : ∃ e ∈ fields, i.path = path ++ e := by
  have hself {b : Bool} {message : String} (h : i ∈ issueIf b path message) :
      ∃ e ∈ fields, i.path = path ++ e :=
    exists_of_mem_issueIf (e := "") (by decide) (by rwa [String.append_empty])
  rcases List.mem_append.mp hi with hi | hi
  · unfold idIssues at hi
    split at hi
    · exact ⟨".id", by decide, congrArg Issue.path (List.mem_singleton.mp hi)⟩
    · exact exists_of_mem_issueIf (by decide) hi
  · cases s with
    | simple head leaf => exact exists_of_mem_issueIf (by decide) hi
    | conditional head condition ifSteps elseSteps cases defaultSteps =>
      simp only [stepIssues, List.mem_append] at hi
      rcases hi with (((hi | hi) | hi) | hi) | hi
      · exact exists_of_mem_issueIf (by decide) hi
      · exact hself hi
      · exact hself hi
      · exact exists_of_mem_issueIf (by decide) hi
      · exact exists_of_mem_issueIf (by decide) hi
    | loop head rule body =>
      rcases List.mem_append.mp hi with hi | hi
      · exact exists_of_mem_issueIf (by decide) hi
      · exact exists_of_mem_issueIf (by decide) hi
    | parallel head rule body => exact exists_of_mem_issueIf (by decide) hi

/-- **An issue at a place goes on from the path of the step** that the place belongs to. -/
theorem IsOf.exists_ends {path : String} {s : Step} {x : Site} (hx : x.IsOf path s) {i : Issue}
    (hi : i ∈ x.errors ∨ i ∈ x.warnings) : ∃ e, s.Ends e ∧ i.path = path ++ e := by
  cases hx with
  | step isRepeated =>
    have hfield : ∃ e ∈ fields, i.path = path ++ e := by
      rcases hi with hi | hi
      · exact exists_of_mem_errors hi
      · cases s with
        | loop head rule body => exact exists_of_mem_issueIf (by decide) hi
        | simple | conditional | parallel => cases hi
    obtain ⟨e, he, hpath⟩ := hfield
    exact ⟨e, ends_of_mem_fields he, hpath⟩
  | @emptyList branch h =>
    rcases hi with hi | hi
    · exact ⟨branch.name, Step.ends_name h, congrArg Issue.path (List.mem_singleton.mp hi)⟩
    · cases hi
  | noCases h =>
    rcases hi with hi | hi
    · exact ⟨".switch", ends_of_mem_fields (by decide),
        congrArg Issue.path (List.mem_singleton.mp hi)⟩
    · cases hi

end Site

/-! ### Cases without steps -/

/-- **A case without steps shadows a way down**: its key spells the step that is taken in another
case, alone or with more behind. -/
def Step.Shadows (s : Step) (turns : List (Branch × Nat)) : Prop :=
  ∃ key i more other, turns = (.case key, i) :: more ∧ (.case other, []) ∈ s.branches ∧
    (other = Site.elementPath key i ∨ GoesInto other key i)

/-- If what ends a path begins with turns, then it is a case without steps that shadows them. -/
theorem Step.Ends.shadows {s : Step} {e t : String} {turns : List (Branch × Nat)} (he : s.Ends e)
    (hturns : turns ≠ []) (ht : Dotted t) (h : e = pathOfTurns turns ++ t) : s.Shadows turns := by
  cases turns with
  | nil => exact absurd rfl hturns
  | cons turn turns =>
    obtain ⟨branch, i⟩ := turn
    have htext := congrArg String.toList h
    rw [pathOfTurns, String.append_assoc, Site.toList_elementPath_append] at htext
    -- a turn has a bracket, and only the key of a case may have one too
    cases he with
    | plain hdotted hplain =>
      refine absurd ?_ hplain
      rw [htext]
      exact List.mem_append_right _ (List.mem_cons_self ..)
    | @emptyCase other hother =>
      have hcase : ∃ key, branch = .case key ∧ other.toList = key.toList ++
          '[' :: (Nat.toDigits 10 i ++ ']' :: (pathOfTurns turns ++ t).toList) := by
        cases branch <;> simp [Branch.name] at htext ⊢
        exact htext
      obtain ⟨key, rfl, hkey⟩ := hcase
      refine ⟨key, i, turns, other, rfl, hother, ?_⟩
      rcases dotted_pathOfTurns turns ht with hrest | ⟨r, hrest⟩ <;> rw [hrest] at hkey
      · left
        rw [← String.append_empty (s := Site.elementPath key i)]
        exact String.toList_inj.mp (by rw [Site.toList_elementPath_append, hkey]; rfl)
      · exact .inr (goesInto_of_toList hkey)

/-- **An address shadows another one**, which goes on from it: a case without steps does, of the
step that the address leads to. -/
def Address.Shadows (steps : List Step) (a b : Address) : Prop :=
  ∃ s more, a.LeadsTo steps s ∧ a.index = b.index ∧ b.turns = a.turns ++ more ∧ s.Shadows more

/-- If what ends a path goes on to a step, then it ends there, or a case without steps shadows the
step. -/
theorem Address.LeadsTo.eq_or_shadows {steps : List Step} {a b : Address} {s : Step}
    {more : List (Branch × Nat)} {e t : String} (ha : a.LeadsTo steps s) (he : s.Ends e)
    (ht : Dotted t) (hindex : a.index = b.index) (hturns : b.turns = a.turns ++ more)
    (h : e = pathOfTurns more ++ t) : a = b ∨ a.Shadows steps b := by
  by_cases hmore : more = []
  · rw [hmore, List.append_nil] at hturns
    exact .inl (Address.ext hindex hturns.symm)
  · exact .inr ⟨s, more, ha, hindex, hturns, he.shadows hmore ht h⟩

/-! ### Reports -/

namespace Workflow

/-- **An issue concerns the step at an address**: it is raised at a place that belongs to the
step. -/
def Concerns (w : Workflow) (a : Address) (i : Issue) : Prop :=
  ∃ s x, a.LeadsTo w.steps s ∧ x ∈ Site.ofSteps "steps" w.steps ∧ x.IsOf (a.path "steps") s ∧
    (i ∈ x.errors ∨ i ∈ x.warnings)

variable {w : Workflow}

/-- **Each issue of the report is about a field of the workflow, or about a step.** -/
theorem mem_fieldIssues_or_concerns {i : Issue}
    (hi : i ∈ w.validate.errors ∨ i ∈ w.validate.warnings) :
    i ∈ w.fieldIssues ∨ ∃ a, w.Concerns a i := by
  have hplace {x : Site} (hx : x ∈ Site.ofSteps "steps" w.steps)
      (hi : i ∈ x.errors ∨ i ∈ x.warnings) : ∃ a, w.Concerns a i := by
    obtain ⟨a, s, ha, hof⟩ := Site.exists_isOf hx
    exact ⟨a, s, x, ha, hx, hof, hi⟩
  rcases hi with hi | hi
  · rcases List.mem_append.mp hi with hi | hi
    · exact .inl hi
    · obtain ⟨x, hx, hi⟩ := List.mem_flatMap.mp hi
      exact .inr (hplace hx (.inl hi))
  · obtain ⟨x, hx, hi⟩ := List.mem_flatMap.mp hi
    exact .inr (hplace hx (.inr hi))

/-- No issue about a field of the workflow has the path of an issue about a step. -/
theorem Concerns.path_ne {a : Address} {i j : Issue} (hi : i ∈ w.fieldIssues)
    (hj : w.Concerns a j) : i.path ≠ j.path := by
  obtain ⟨s, x, -, -, hof, hj⟩ := hj
  obtain ⟨e, -, hpath⟩ := hof.exists_ends hj
  intro h
  have htext := congrArg String.toList (h.trans hpath)
  rw [Address.path, String.append_assoc, Site.toList_elementPath_append] at htext
  -- the path of the step begins with the list of the steps and a bracket, which no field does
  simp only [fieldIssues, List.mem_append, List.mem_flatMap, Site.mem_issueIf] at hi
  rcases hi with (((⟨-, rfl⟩ | ⟨-, rfl⟩) | ⟨_, -, -, rfl⟩) | ⟨-, rfl⟩) | ⟨_, -, -, rfl⟩
  · simp at htext
  · simp at htext
  · simp at htext
  · simp at htext
  · simp at htext

/-- **Issues with the same path are about the same step**, unless the address of one is crossed or
shadowed by the other one. -/
theorem Concerns.eq_or_crossed_or_shadowed {a b : Address} {i j : Issue}
    (hi : w.Concerns a i) (hj : w.Concerns b j) (h : i.path = j.path) :
    a = b ∨ a.IsCrossedBy b ∨ b.IsCrossedBy a ∨ a.Shadows w.steps b ∨ b.Shadows w.steps a := by
  obtain ⟨s, x, ha, -, hof, hi⟩ := hi
  obtain ⟨t, y, hb, -, hof', hj⟩ := hj
  obtain ⟨e, he, hpath⟩ := hof.exists_ends hi
  obtain ⟨e', he', hpath'⟩ := hof'.exists_ends hj
  obtain ⟨hindex, hturns⟩ := Address.index_eq_of_path (hpath.symm.trans (h.trans hpath'))
  rcases Address.turns_cases he.dotted he'.dotted hturns with
    ⟨more, hmore, hend⟩ | ⟨more, hmore, hend⟩ | hcross | hcross
  · rcases ha.eq_or_shadows he he'.dotted hindex hmore hend with hsame | hshadow
    · exact .inl hsame
    · exact .inr (.inr (.inr (.inl hshadow)))
  · rcases hb.eq_or_shadows he' he.dotted hindex.symm hmore hend with hsame | hshadow
    · exact .inl hsame.symm
    · exact .inr (.inr (.inr (.inr hshadow)))
  · exact .inr (.inl ⟨hindex, hcross⟩)
  · exact .inr (.inr (.inl ⟨hindex.symm, hcross⟩))

end Workflow

/-! ### Compiled workflows -/

/-- A workflow with a switch. -/
def Workflow.switching (cases : List (String × List Step)) : Workflow :=
  .extending none "w" [.conditional ⟨"r", none, default⟩ "x" none none (some cases) none]

namespace Document

/-- **Paths tell the steps of a compiled workflow apart, as far as the keys do not mislead.** The
steps are visited under the paths that their addresses spell. Two that are visited under the same
path are in two cases of one switch, and the key of one case goes into the other case at the step
that is taken there. Each issue is about a field of the workflow or about a step, and no issue of
one kind has the path of one of the other kind. Issues with the same path are about the same step,
unless they are about steps in two such cases, or about a switch and a step in it that a case
without steps shadows. -/
theorem paths_tell_steps_apart {d : Document} {w : Workflow} (hd : d.IsKeyed)
    (hw : d.compile = .ok w) :
    (∀ path t, (∃ isRepeated, .step path isRepeated t ∈ Site.ofSteps "steps" w.steps) ↔
      ∃ a : Address, a.LeadsTo w.steps t ∧ a.path "steps" = path) ∧
    (∀ (a b : Address) s t, a.LeadsTo w.steps s → b.LeadsTo w.steps t →
      a.path "steps" = b.path "steps" → a = b ∧ s = t ∨ a.IsCrossedBy b ∨ b.IsCrossedBy a) ∧
    (∀ i, i ∈ w.validate.errors ∨ i ∈ w.validate.warnings →
      i ∈ w.fieldIssues ∨ ∃ a, w.Concerns a i) ∧
    (∀ i ∈ w.fieldIssues, ∀ a j, w.Concerns a j → i.path ≠ j.path) ∧
    (∀ a b i j, w.Concerns a i → w.Concerns b j → i.path = j.path →
      a = b ∨ a.IsCrossedBy b ∨ b.IsCrossedBy a ∨ a.Shadows w.steps b ∨ b.Shadows w.steps a) := by
  have hkeyed := hd.of_compile hw
  refine ⟨fun path t => Site.step_mem_ofSteps_iff, fun a b s t hs ht hpath => ?_,
    fun i => Workflow.mem_fieldIssues_or_concerns, fun i hi a j hj => hj.path_ne hi,
    fun a b i j hi hj => hi.eq_or_crossed_or_shadowed hj⟩
  rcases Address.eq_or_isCrossedBy hpath with rfl | hcross
  · exact .inl ⟨rfl, hs.unique hkeyed ht⟩
  · exact .inr hcross

/-- A document with a switch. -/
def switching (cases : List (String × List StepNode)) : Document :=
  { id := some "w", name := some "w"
    steps := [.mk { id := some "r", type := some "conditional", condition := some "x" } none none
      (some cases) none none] }

/-- A command without an action. -/
def command (id : String) : StepNode :=
  .mk { id := some id, type := some "command" } none none none none none

/-- A conditional that has a branch or not. -/
def choosing (ifSteps : Option (List StepNode)) : StepNode :=
  .mk { id := some "c", type := some "conditional", condition := some "y" } ifSteps none none none
    none

/-- A key that goes into the case of another one, but at a position where no step is. -/
def routed : Document := switching [("a", [command "s"]), ("a[1].if", [command "t"])]

/-- The steps of the two cases are visited under different paths. -/
theorem paths_tell_steps_apart_routed :
    let w : Workflow := .switching [("a", [.asking "s" ""]), ("a[1].if", [.asking "t" ""])]
    let a : Address := ⟨0, [(.case "a", 0)]⟩
    let b : Address := ⟨0, [(.case "a[1].if", 0)]⟩
    routed.IsKeyed ∧ routed.compile = .ok w ∧ a.LeadsTo w.steps (.asking "s" "") ∧
      b.LeadsTo w.steps (.asking "t" "") ∧ a.path "steps" ≠ b.path "steps" := by
  intro w a b
  have hkeyed : routed.IsKeyed := isKeyed_of_ofDatum? (x := routed.toDatum) rfl
  have hcompile : routed.compile = .ok w := rfl
  have ha : a.LeadsTo w.steps (.asking "s" "") := ⟨_, rfl, .down (.head _) rfl (.here _)⟩
  have hb : b.LeadsTo w.steps (.asking "t" "") :=
    ⟨_, rfl, .down (.tail _ (.head _)) rfl (.here _)⟩
  refine ⟨hkeyed, hcompile, ha, hb, fun hpath => ?_⟩
  obtain ⟨-, happart, -⟩ := paths_tell_steps_apart hkeyed hcompile
  rcases happart a b _ _ ha hb hpath with ⟨hsame, -⟩ | ⟨-, hcross⟩ | ⟨-, hcross⟩
  · exact absurd hsame (by decide)
  -- the position is another one than in the key
  · obtain ⟨rest, hrest⟩ := hcross.goesInto (by decide)
    have htext := congrArg String.toList hrest
    simp [Site.elementPath] at htext
  · obtain ⟨rest, hrest⟩ := hcross.goesInto (by decide)
    have htext := congrArg String.toList hrest
    simp [Site.elementPath] at htext

/-- A key that goes into the case of another one, where another step is. -/
def crossed : Document :=
  switching [("a", [choosing (some [command "s"])]), ("a[0].if", [command "t"])]

/-- A key that spells a step in the case of another one, and has no steps itself. -/
def shadowed : Document := switching [("a", [choosing none]), ("a[0]", [])]

/-- **Two steps that are visited under the same path**, so that what is reported of them does not
tell them apart; and two issues with the same path, one about a step and one about the switch that
the step is in. -/
theorem crossed_steps_share_path :
    let c (ifSteps : Option (List Step)) : Step :=
      .conditional ⟨"c", none, default⟩ "y" ifSteps none none none
    let w : Workflow :=
      .switching [("a", [c (some [.asking "s" ""])]), ("a[0].if", [.asking "t" ""])]
    let v : Workflow := .switching [("a", [c none]), ("a[0]", [])]
    (crossed.IsKeyed ∧ crossed.compile = .ok w ∧
      (Site.ofSteps "steps" w.steps).tail =
        [.step "steps[0].switch.a[0]" false (c (some [.asking "s" ""])),
          .step "steps[0].switch.a[0].if[0]" false (.asking "s" ""),
          .step "steps[0].switch.a[0].if[0]" false (.asking "t" "")] ∧
      w.validate.errors =
        [⟨"steps[0].switch.a[0].if[0].action", "simple steps require a non-empty action"⟩,
          ⟨"steps[0].switch.a[0].if[0].action", "simple steps require a non-empty action"⟩]) ∧
    shadowed.IsKeyed ∧ shadowed.compile = .ok v ∧
      v.validate.errors =
        [⟨"steps[0].switch.a[0]", "conditional steps require an 'if' branch or a 'switch' map"⟩,
          ⟨"steps[0].switch.a[0]", "must contain at least one step"⟩] :=
  ⟨⟨isKeyed_of_ofDatum? (x := crossed.toDatum) rfl, rfl, rfl, rfl⟩,
    isKeyed_of_ofDatum? (x := shadowed.toDatum) rfl, rfl, rfl⟩

end Document

end WorkflowEngine
