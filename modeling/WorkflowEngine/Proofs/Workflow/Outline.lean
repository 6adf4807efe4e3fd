import Mathlib.Logic.Basic
import WorkflowEngine.Workflow.Compile

/-!
# The outlines of documents and workflows

What is written in a document has the form of a tree, in which each step holds the lists of steps
that belong to its type. Compilation goes through this tree in pre-order. It stops at the first step
with a flaw and tells what that is, and if there is none it makes a workflow of the same form, with
the same ids and types.

## Main definitions

* `Outline`: the form of a tree of steps, with a label for each step
* `Outline.preorder`: the labels, each before those of the steps that its step holds
* `StepNode.outline`, `Step.outline`: the form of what is written, and of what it is compiled to
* `StepFields.flaw?`: why a step cannot be given a type
* `Finds`: a compilation finds the first flaw, or has a good result

## Main results

* `StepNode.finds_compile`: a step is compiled to a step of the same form
* `Step.length_preorder_outline`: the labels of an outline are as many as there are steps
* `Document.compile_keeps_outline`: the same for documents, and which flaw is found
-/

namespace WorkflowEngine

/-! ### Outlines -/

/-- The part of a step that a list of steps stands in. -/
inductive Branch where
  | whenTrue
  | whenFalse
  | case (key : String)
  | otherwise
  | body
deriving Repr, DecidableEq

/-- **The form of a tree of steps**: a label, and the lists that the step holds, each with the part
that it stands in. -/
inductive Outline (α : Type) where
  | node (label : α) (branches : List (Branch × List (Outline α)))

namespace Outline

variable {α β : Type}

mutual
/-- The labels of a tree in pre-order. -/
def preorder : Outline α → List α
  | .node label branches => label :: preorderBranches branches

/-- The labels of the trees in some branches. -/
def preorderBranches : List (Branch × List (Outline α)) → List α
  | [] => []
  | (_, trees) :: branches => preorderList trees ++ preorderBranches branches

/-- The labels of some trees. -/
def preorderList : List (Outline α) → List α
  | [] => []
  | tree :: trees => preorder tree ++ preorderList trees
end

mutual
/-- The tree with other labels. -/
def map (f : α → β) : Outline α → Outline β
  | .node label branches => .node (f label) (mapBranches f branches)

/-- The branches with other labels. -/
def mapBranches (f : α → β) :
    List (Branch × List (Outline α)) → List (Branch × List (Outline β))
  | [] => []
  | (branch, trees) :: branches => (branch, mapList f trees) :: mapBranches f branches

/-- The trees with other labels. -/
def mapList (f : α → β) : List (Outline α) → List (Outline β)
  | [] => []
  | tree :: trees => map f tree :: mapList f trees
end

@[simp] theorem preorderBranches_append (l r : List (Branch × List (Outline α))) :
    preorderBranches (l ++ r) = preorderBranches l ++ preorderBranches r := by
  induction l with
  | nil => rfl
  | cons b l ih => simp [preorderBranches, ih]

@[simp] theorem mapBranches_append (f : α → β) (l r : List (Branch × List (Outline α))) :
    mapBranches f (l ++ r) = mapBranches f l ++ mapBranches f r := by
  induction l with
  | nil => rfl
  | cons b l ih => simp [mapBranches, ih]

/-- What is found first in a tree: what its label gives, or else what is found in its branches. -/
theorem findSome?_preorder (f : α → Option β) (label : α)
    (branches : List (Branch × List (Outline α))) :
    (node label branches).preorder.findSome? f =
      (f label).or ((preorderBranches branches).findSome? f) := by
  rw [preorder, List.findSome?_cons]
  cases f label <;> rfl

mutual
/-- Other labels stand in the same order. -/
theorem preorder_map (f : α → β) : ∀ tree : Outline α, (tree.map f).preorder = tree.preorder.map f
  | .node label branches => by
    simp only [map, preorder, preorderBranches_mapBranches f branches, List.map_cons]

theorem preorderBranches_mapBranches (f : α → β) : ∀ branches : List (Branch × List (Outline α)),
    preorderBranches (mapBranches f branches) = (preorderBranches branches).map f
  | [] => rfl
  | (_, trees) :: branches => by
    simp only [mapBranches, preorderBranches, preorderList_mapList f trees,
      preorderBranches_mapBranches f branches, List.map_append]

theorem preorderList_mapList (f : α → β) : ∀ trees : List (Outline α),
    preorderList (mapList f trees) = (preorderList trees).map f
  | [] => rfl
  | tree :: trees => by
    simp only [mapList, preorderList, preorder_map f tree, preorderList_mapList f trees,
      List.map_append]
end

end Outline

open Outline (preorder preorderBranches preorderList preorderBranches_append)

namespace StepNode

mutual
/-- **The form of a step as written**: only the lists that belong to its type count. -/
def outline : StepNode → Outline StepFields
  | .mk f ifSteps elseSteps cases defaultSteps steps =>
    match f.type with
    | some "conditional" =>
      .node f (outlineOption .whenTrue ifSteps ++ outlineOption .whenFalse elseSteps ++
        outlineCases cases ++ outlineOption .otherwise defaultSteps)
    | some "loop" => .node f [(.body, outlineBody steps)]
    | some "parallel" => .node f [(.body, outlineBody steps)]
    | _ => .node f []

/-- The branch of a list that may be absent. -/
def outlineOption (branch : Branch) :
    Option (List StepNode) → List (Branch × List (Outline StepFields))
  | none => []
  | some nodes => [(branch, outlineList nodes)]

/-- The forms of the steps of a body, which are none if it is absent. -/
def outlineBody : Option (List StepNode) → List (Outline StepFields)
  | none => []
  | some nodes => outlineList nodes

/-- The branches of cases that may be absent. -/
def outlineCases :
    Option (List (String × List StepNode)) → List (Branch × List (Outline StepFields))
  | none => []
  | some cases => outlineCaseList cases

/-- The branches of cases, in the order of their keys. -/
def outlineCaseList : List (String × List StepNode) → List (Branch × List (Outline StepFields))
  | [] => []
  | (key, nodes) :: cases => (.case key, outlineList nodes) :: outlineCaseList cases

/-- The forms of some steps. -/
def outlineList : List StepNode → List (Outline StepFields)
  | [] => []
  | node :: nodes => outline node :: outlineList nodes
end

end StepNode

namespace Step

mutual
/-- **The form of a step**, with its id and the name of its type. -/
def outline : Step → Outline (String × String)
  | .simple head leaf => .node (head.id, leaf.kind.name) []
  | .conditional head _ ifSteps elseSteps cases defaultSteps =>
    .node (head.id, "conditional") (outlineOption .whenTrue ifSteps ++
      outlineOption .whenFalse elseSteps ++ outlineCases cases ++
      outlineOption .otherwise defaultSteps)
  | .loop head _ body => .node (head.id, "loop") [(.body, outlineList body)]
  | .parallel head _ body => .node (head.id, "parallel") [(.body, outlineList body)]

/-- The branch of a list that may be absent. -/
def outlineOption (branch : Branch) :
    Option (List Step) → List (Branch × List (Outline (String × String)))
  | none => []
  | some steps => [(branch, outlineList steps)]

/-- The branches of cases that may be absent. -/
def outlineCases :
    Option (List (String × List Step)) → List (Branch × List (Outline (String × String)))
  | none => []
  | some cases => outlineCaseList cases

/-- The branches of cases. -/
def outlineCaseList : List (String × List Step) → List (Branch × List (Outline (String × String)))
  | [] => []
  | (key, steps) :: cases => (.case key, outlineList steps) :: outlineCaseList cases

/-- The forms of some steps. -/
def outlineList : List Step → List (Outline (String × String))
  | [] => []
  | s :: steps => outline s :: outlineList steps
end

-- The block of theorems below follows the block of functions that it is about.

mutual
/-- **The labels of an outline** are as many as there are steps. -/
theorem length_preorder_outline : ∀ s : Step, s.outline.preorder.length = s.count
  | .simple head leaf => rfl
  | .conditional head condition ifSteps elseSteps cases defaultSteps => by
    simp only [outline, preorder, preorderBranches_append, List.length_cons, List.length_append,
      length_preorder_outlineOption, length_preorder_outlineCases, count]
    omega
  | .loop head rule body => by
    simp only [outline, preorder, preorderBranches, List.append_nil, List.length_cons,
      length_preorder_outlineList body, count]
    omega
  | .parallel head rule body => by
    simp only [outline, preorder, preorderBranches, List.append_nil, List.length_cons,
      length_preorder_outlineList body, count]
    omega

theorem length_preorder_outlineOption (branch : Branch) : ∀ steps : Option (List Step),
    (preorderBranches (outlineOption branch steps)).length = countOption steps
  | none => rfl
  | some steps => by
    simp only [outlineOption, preorderBranches, List.append_nil,
      length_preorder_outlineList steps, countOption]

theorem length_preorder_outlineCases : ∀ cases : Option (List (String × List Step)),
    (preorderBranches (outlineCases cases)).length = countCases cases
  | none => rfl
  | some cases => length_preorder_outlineCaseList cases

theorem length_preorder_outlineCaseList : ∀ cases : List (String × List Step),
    (preorderBranches (outlineCaseList cases)).length = countCaseList cases
  | [] => rfl
  | (key, steps) :: cases => by
    simp only [outlineCaseList, preorderBranches, List.length_append,
      length_preorder_outlineList steps, length_preorder_outlineCaseList cases, countCaseList]

theorem length_preorder_outlineList : ∀ steps : List Step,
    (preorderList (outlineList steps)).length = countList steps
  | [] => rfl
  | s :: steps => by
    simp only [outlineList, preorderList, List.length_append, length_preorder_outline s,
      length_preorder_outlineList steps, countList]
end

end Step

/-! ### Flaws -/

namespace StepFields

/-- The types that a step may have. -/
def typeNames : List String :=
  ["conditional", "loop", "parallel", "git", "code", "llm", "command", "platform", "planning",
    "human", "review"]

/-- What a failing step may be said to do to a loop. -/
def onErrorNames : List String := ["fail", "continue", "break"]

/-- How a step is named: by its id, if it has one. -/
def displayName (f : StepFields) : String :=
  match f.id with
  | none | some "" => "<unnamed>"
  | some id => id

/-- What is wrong with what a failing step is said to do to a loop. -/
def onErrorFlaw? (f : StepFields) : Option CompileError :=
  match f.onError with
  | none => none
  | some text =>
    if text ∈ onErrorNames then none else some (.invalidField f.displayName "onError" text)

/-- What is wrong with the bound of a loop, which is a number or a text. -/
def boundFlaw? (f : StepFields) : Option CompileError :=
  match f.maxIterations with
  | none | some .null | some (.num _) | some (.str _) => none
  | some v => some (.invalidField f.displayName "maxIterations" v.compact)

/-- **Why a step cannot be given a type**: it has none, or one that there is no more, in whatever
letter case, or one that there never was, or it is a loop and one of two fields is not as it should
be. -/
def flaw? (f : StepFields) : Option CompileError :=
  match f.type with
  | none => some (.missingType f.displayName)
  | some type =>
    if Text.asciiLower type = "subworkflow" ∨ Text.asciiLower type = "slot" then
      some (.retiredType f.displayName type)
    else if type ∉ typeNames then some (.unknownType f.displayName type)
    else if type = "loop" then f.onErrorFlaw?.or f.boundFlaw?
    else none

/-- The id and the type of a step. -/
def headline (f : StepFields) : String × String := (f.id.getD "", f.type.getD "")

end StepFields

/-! ### Compilation -/

/-- **A compilation finds the first flaw**, or has a good result if there is none. -/
def Finds {α : Type} (flaw : Option CompileError) (good : α → Prop) :
    Except CompileError α → Prop
  | .ok a => flaw = none ∧ good a
  | .error e => flaw = some e

namespace Finds

variable {α β : Type} {flaw flaw' : Option CompileError} {P : α → Prop} {Q : β → Prop}
  {x : Except CompileError α}

/-- One compilation after the other. -/
theorem bind {f : α → Except CompileError β} (hx : Finds flaw P x)
    (hf : ∀ a, P a → Finds flaw' Q (f a)) : Finds (flaw.or flaw') Q (x >>= f) := by
  cases x with
  | error e =>
    obtain rfl : flaw = some e := hx
    rfl
  | ok a =>
    obtain ⟨rfl, ha⟩ := hx
    rw [Option.none_or]
    exact hf a ha

/-- What is made of a result. -/
theorem map {f : α → β} (hx : Finds flaw P x) (hf : ∀ a, P a → Q (f a)) :
    Finds flaw Q (x.map f) := by
  cases x with
  | error e => exact hx
  | ok a => exact ⟨hx.1, hf a hx.2⟩

end Finds

namespace StepNode

theorem displayId_headOf (f : StepFields) : displayId (headOf f).id = f.displayName := by
  have hname (id : String) : displayId id = if id = "" then "<unnamed>" else id := by
    simp only [displayId, String.isEmpty_iff]
  rw [hname, headOf, StepFields.displayName]
  cases hid : f.id with
  | none => rfl
  | some id =>
    dsimp only [Option.getD_some]
    split
    next h => subst h; rfl
    next h =>
      split
      next h' => cases h'
      next h' => exact absurd (Option.some.inj h') h
      next h' => exact Option.some.inj h'

theorem mem_onErrorNames_iff {text : String} :
    text ∈ StepFields.onErrorNames ↔ OnError.ofName? text ≠ none := by
  unfold OnError.ofName?
  split
  next => exact iff_of_true (by decide) nofun
  next => exact iff_of_true (by decide) nofun
  next => exact iff_of_true (by decide) nofun
  next hfail hcontinue hbreak =>
    refine iff_of_false (fun h => ?_) (· rfl)
    simp only [StepFields.onErrorNames, List.mem_cons, List.not_mem_nil, or_false] at h
    exact h.elim hfail fun h => h.elim hcontinue hbreak

/-- A field that is not as it should be. -/
theorem finds_invalidField {α : Type} (f : StepFields) (field value : String) (P : α → Prop) :
    Finds (some (.invalidField f.displayName field value)) P
      (.error (.invalidField (displayId (headOf f).id) field value)) := by
  rw [displayId_headOf]
  rfl

theorem finds_compileOnError (f : StepFields) :
    Finds f.onErrorFlaw? (fun _ => True) (compileOnError (headOf f).id f.onError) := by
  unfold StepFields.onErrorFlaw?
  cases f.onError with
  | none => exact ⟨rfl, trivial⟩
  | some text =>
    simp only [mem_onErrorNames_iff, compileOnError]
    cases OnError.ofName? text with
    | some effect => exact ⟨rfl, trivial⟩
    | none => exact finds_invalidField f _ _ _

theorem finds_compileBound (f : StepFields) :
    Finds f.boundFlaw? (fun _ => True) (compileBound (headOf f).id f.maxIterations) := by
  unfold StepFields.boundFlaw?
  cases f.maxIterations with
  | none => exact ⟨rfl, trivial⟩
  | some v =>
    cases v with
    | null | num => exact ⟨rfl, trivial⟩
    | str s =>
      simp only [compileBound]
      cases countOfText? (Text.trim s) <;> exact ⟨rfl, trivial⟩
    | bool | arr | obj => exact finds_invalidField f _ _ _

theorem finds_compileLoopRule (f : StepFields) :
    Finds (f.onErrorFlaw?.or f.boundFlaw?) (fun _ => True) (compileLoopRule (headOf f).id f) :=
  (finds_compileOnError f).bind fun _ _ => (finds_compileBound f).map fun _ _ => trivial

theorem name_of_ofName? {type : String} {kind : LeafKind} (h : LeafKind.ofName? type = some kind) :
    kind.name = type := by
  unfold LeafKind.ofName? at h
  split at h <;> cases h <;> rfl

theorem mem_typeNames_iff {type : String} (hc : type ≠ "conditional") (hl : type ≠ "loop")
    (hp : type ≠ "parallel") :
    type ∈ StepFields.typeNames ↔ LeafKind.ofName? type ≠ none := by
  constructor
  · intro h
    simp only [StepFields.typeNames, List.mem_cons, List.not_mem_nil, or_false] at h
    rcases h with h | h | h | rfl | rfl | rfl | rfl | rfl | rfl | rfl | rfl
    · exact absurd h hc
    · exact absurd h hl
    · exact absurd h hp
    all_goals nofun
  · intro h
    obtain ⟨kind, hkind⟩ := Option.ne_none_iff_exists'.mp h
    rw [← name_of_ofName? hkind]
    cases kind <;> decide

/-- A step whose type is none of those that hold steps. -/
theorem finds_compileLeaf {f : StepFields} {type : String} (ht : f.type = some type)
    (hc : type ≠ "conditional") (hl : type ≠ "loop") (hp : type ≠ "parallel") :
    Finds f.flaw? (fun s => s.outline = .node f.headline []) (compileLeaf f type) := by
  have hretired : isRetired type = true ↔
      Text.asciiLower type = "subworkflow" ∨ Text.asciiLower type = "slot" := by
    simp [isRetired, retiredTypes]
  rw [StepFields.flaw?, ht]
  simp only [← hretired, mem_typeNames_iff hc hl hp, if_neg hl, not_not, ← displayId_headOf]
  unfold compileLeaf
  cases isRetired type with
  | true => rfl
  | false =>
    cases hk : LeafKind.ofName? type with
    | none => rfl
    | some kind =>
      refine ⟨rfl, ?_⟩
      simp only [Step.outline, StepFields.headline, ht, Option.getD_some, name_of_ofName? hk]
      rfl

/-- Of the steps that hold steps, only a loop can have a flaw. -/
theorem flaw?_of_type {f : StepFields} {type : String} (ht : f.type = some type)
    (h : type = "conditional" ∨ type = "loop" ∨ type = "parallel") :
    f.flaw? = if type = "loop" then f.onErrorFlaw?.or f.boundFlaw? else none := by
  have hretired : ¬(Text.asciiLower type = "subworkflow" ∨ Text.asciiLower type = "slot") := by
    rcases h with rfl | rfl | rfl <;> decide +kernel
  have hmem : ¬type ∉ StepFields.typeNames := by
    rcases h with rfl | rfl | rfl <;> decide
  rw [StepFields.flaw?, ht]
  simp only [if_neg hretired, if_neg hmem]

-- The block of theorems below follows the block of functions that it is about.

mutual
/-- **A step is compiled to a step of the same form**, unless there is a flaw in it. -/
theorem finds_compile : ∀ node : StepNode,
    Finds (node.outline.preorder.findSome? StepFields.flaw?)
      (fun s => s.outline = node.outline.map StepFields.headline) (compile node)
  | .mk f ifSteps elseSteps cases defaultSteps steps => by
    rw [compile]
    split
    next ht =>
      have hflaw : f.flaw? = some (.missingType (displayId (headOf f).id)) := by
        rw [StepFields.flaw?, ht, displayId_headOf]
      simp only [outline, ht, Outline.findSome?_preorder, hflaw]
      rfl
    next ht =>
      -- the branches of a conditional, one after the other
      have hflaw : f.flaw? = none := flaw?_of_type ht (.inl rfl)
      simp only [outline, ht, Outline.findSome?_preorder, hflaw, preorderBranches_append,
        List.findSome?_append, Option.or_assoc, Option.none_or]
      refine (finds_compileOption .whenTrue ifSteps).bind fun i hi => ?_
      refine (finds_compileOption .whenFalse elseSteps).bind fun e he => ?_
      refine (finds_compileCases cases).bind fun c hcases => ?_
      refine (finds_compileOption .otherwise defaultSteps).map fun d hd => ?_
      simp only [Step.outline, hi, he, hcases, hd, Outline.map, Outline.mapBranches_append,
        StepFields.headline, ht]
      rfl
    next ht =>
      -- a loop is the only step that may have a flaw itself and holds others
      have hflaw : f.flaw? = f.onErrorFlaw?.or f.boundFlaw? := flaw?_of_type ht (.inr (.inl rfl))
      simp only [outline, ht, Outline.findSome?_preorder, hflaw, preorderBranches, List.append_nil]
      refine (finds_compileLoopRule f).bind fun rule _ => ?_
      refine (finds_compileBody steps).map fun body hbody => ?_
      simp only [Step.outline, hbody, Outline.map, Outline.mapBranches, StepFields.headline, ht]
      rfl
    next ht =>
      have hflaw : f.flaw? = none := flaw?_of_type ht (.inr (.inr rfl))
      simp only [outline, ht, Outline.findSome?_preorder, hflaw, preorderBranches, List.append_nil,
        Option.none_or]
      refine (finds_compileBody steps).map fun body hbody => ?_
      simp only [Step.outline, hbody, Outline.map, Outline.mapBranches, StepFields.headline, ht]
      rfl
    next type hc hl hp ht =>
      -- whatever lists a step of any other type has, none belongs to its type
      have hnode : outline (.mk f ifSteps elseSteps cases defaultSteps steps) = .node f [] := by
        rw [outline, ht]
        split
        next h => exact absurd (Option.some.inj h) hc
        next h => exact absurd (Option.some.inj h) hl
        next h => exact absurd (Option.some.inj h) hp
        next => rfl
      simp only [hnode, Outline.findSome?_preorder, preorderBranches, List.findSome?_nil,
        Option.or_none]
      exact finds_compileLeaf ht hc hl hp

theorem finds_compileOption (branch : Branch) : ∀ nodes : Option (List StepNode),
    Finds ((preorderBranches (outlineOption branch nodes)).findSome? StepFields.flaw?)
      (fun steps => Step.outlineOption branch steps =
        Outline.mapBranches StepFields.headline (outlineOption branch nodes)) (compileOption nodes)
  | none => ⟨rfl, rfl⟩
  | some nodes => by
    simp only [outlineOption, preorderBranches, List.append_nil]
    refine (finds_compileList nodes).map fun steps hsteps => ?_
    rw [Step.outlineOption, hsteps]
    rfl

theorem finds_compileBody : ∀ nodes : Option (List StepNode),
    Finds ((preorderList (outlineBody nodes)).findSome? StepFields.flaw?)
      (fun steps => Step.outlineList (steps.getD []) =
        Outline.mapList StepFields.headline (outlineBody nodes)) (compileOption nodes)
  | none => ⟨rfl, rfl⟩
  | some nodes => (finds_compileList nodes).map fun _ hsteps => hsteps

theorem finds_compileCases : ∀ cases : Option (List (String × List StepNode)),
    Finds ((preorderBranches (outlineCases cases)).findSome? StepFields.flaw?)
      (fun c => Step.outlineCases c = Outline.mapBranches StepFields.headline (outlineCases cases))
      (compileCases cases)
  | none => ⟨rfl, rfl⟩
  | some cases => (finds_compileCaseList cases).map fun _ hcases => hcases

theorem finds_compileCaseList : ∀ cases : List (String × List StepNode),
    Finds ((preorderBranches (outlineCaseList cases)).findSome? StepFields.flaw?)
      (fun c => Step.outlineCaseList c =
        Outline.mapBranches StepFields.headline (outlineCaseList cases)) (compileCaseList cases)
  | [] => ⟨rfl, rfl⟩
  | (key, nodes) :: cases => by
    simp only [outlineCaseList, preorderBranches, List.findSome?_append]
    refine (finds_compileList nodes).bind fun steps hsteps => ?_
    refine (finds_compileCaseList cases).map fun rest hrest => ?_
    rw [Step.outlineCaseList, hsteps, hrest]
    rfl

/-- **Steps are compiled to steps of the same form**, unless there is a flaw in one of them. -/
theorem finds_compileList : ∀ nodes : List StepNode,
    Finds ((preorderList (outlineList nodes)).findSome? StepFields.flaw?)
      (fun steps => Step.outlineList steps =
        Outline.mapList StepFields.headline (outlineList nodes)) (compileList nodes)
  | [] => ⟨rfl, rfl⟩
  | node :: nodes => by
    simp only [outlineList, preorderList, List.findSome?_append]
    refine (finds_compile node).bind fun s hs => ?_
    refine (finds_compileList nodes).map fun steps hsteps => ?_
    rw [Step.outlineList, hs, hsteps]
    rfl
end

end StepNode

namespace Document

/-- **The steps of a document** in pre-order, as far as they stand in lists that belong to the types
of the steps that hold them. -/
def typedSteps (d : Document) : List StepFields := preorderList (StepNode.outlineList d.steps)

/-- **What compilation finds and what it keeps.** A document is refused exactly if one of its steps
has a flaw, and then for the flaw of the first such step. Otherwise it becomes a workflow whose
steps have the same ids and types, in the same order and in the same lists, and are as many. -/
theorem compile_keeps_outline (d : Document) :
    ((∃ e, d.compile = .error e) ↔ ∃ f ∈ d.typedSteps, f.flaw? ≠ none) ∧
    (∀ e, d.compile = .error e ↔ ∃ before f after, d.typedSteps = before ++ f :: after ∧
      f.flaw? = some e ∧ ∀ g ∈ before, g.flaw? = none) ∧
    ∀ w, d.compile = .ok w →
      Step.outlineList w.steps =
        Outline.mapList StepFields.headline (StepNode.outlineList d.steps) ∧
      preorderList (Step.outlineList w.steps) = d.typedSteps.map StepFields.headline ∧
      w.stepCount = d.typedSteps.length := by
  have hfinds : Finds (d.typedSteps.findSome? StepFields.flaw?)
      (fun w => Step.outlineList w.steps =
        Outline.mapList StepFields.headline (StepNode.outlineList d.steps)) d.compile :=
    (StepNode.finds_compileList d.steps).map fun _ h => h
  have hfirst (e : CompileError) : d.compile = .error e ↔
      d.typedSteps.findSome? StepFields.flaw? = some e := by
    cases hc : d.compile with
    | error e' =>
      rw [hc] at hfinds
      rw [show d.typedSteps.findSome? StepFields.flaw? = some e' from hfinds, Except.error.injEq,
        Option.some.injEq]
    | ok w =>
      rw [hc] at hfinds
      simp only [hfinds.1, reduceCtorEq]
  refine ⟨?_, fun e => ?_, fun w hw => ?_⟩
  · simp only [hfirst, ← Option.ne_none_iff_exists', ne_eq, List.findSome?_eq_none_iff, not_forall,
      exists_prop]
  · rw [hfirst, List.findSome?_eq_some_iff]
  · rw [hw] at hfinds
    have hpreorder : preorderList (Step.outlineList w.steps) =
        d.typedSteps.map StepFields.headline := by
      rw [hfinds.2, Outline.preorderList_mapList]
      rfl
    refine ⟨hfinds.2, hpreorder, ?_⟩
    rw [Workflow.stepCount, ← Step.length_preorder_outlineList, hpreorder, List.length_map]

/-- A command in a case of a conditional in a loop, and a review beside the loop. -/
def reviewedLoop : Document :=
  let command := StepNode.mk { id := some "run", type := some "command" } none none none none none
  let choice := StepNode.mk { id := some "choice", type := some "conditional" } none none
    (some [("yes", [command])]) none none
  { steps := [
      .mk { id := some "again", type := some "loop", onError := some "break" } none none none none
        (some [choice]),
      .mk { type := some "review" } none none none none none] }

/-- The steps of a nested document, and those of its workflow. -/
theorem compile_keeps_outline_reviewedLoop : ∃ w, reviewedLoop.compile = .ok w ∧
    preorderList (Step.outlineList w.steps) =
      [("again", "loop"), ("choice", "conditional"), ("run", "command"), ("", "review")] ∧
    w.stepCount = 4 := by
  have hcompile : ∃ w, reviewedLoop.compile = .ok w := ⟨_, rfl⟩
  obtain ⟨w, hw⟩ := hcompile
  obtain ⟨-, hpreorder, hcount⟩ := (compile_keeps_outline reviewedLoop).2.2 w hw
  exact ⟨w, hw, hpreorder, hcount⟩

end Document

end WorkflowEngine
