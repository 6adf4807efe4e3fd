import WorkflowEngine.Workflow.Compile

/-!
# Documents that are no workflows

A document is a workflow if nothing is wrong with any of its steps. Of the lists of steps that a
step may hold, only those that belong to its type are looked at, so that what is wrong in another
one is never found: a step of a retired type is refused wherever it is looked at, and passed over
elsewhere.

## Main definitions

* `StepNode.lists`, `StepNode.ownLists`: the lists that a step holds, and those that belong to its
  type
* `StepNode.Reaches`: a step is in one of the lists, or in a list of a step in them, and so on
* `StepNode.defect?`: what is wrong with a step itself
* `StepNode.Judges`: a compilation tells of the defects of some steps

## Main results

* `StepNode.judges_compile`: a step is compiled if nothing is wrong with it and what it reaches
* `Document.refuses_retired`: the same for documents, and which retired steps are refused
* `Document.accepts_misplaced_slot`: a retired step that is passed over
-/

namespace WorkflowEngine

namespace StepNode

/-- The lists of steps that a step holds, in whichever fields. -/
def lists : StepNode → List (List StepNode)
  | .mk _ ifSteps elseSteps cases defaultSteps steps =>
    ifSteps.toList ++ elseSteps.toList ++ (cases.getD []).map Prod.snd ++ defaultSteps.toList ++
      steps.toList

/-- **The lists of steps that belong to the type of a step.** -/
def ownLists : StepNode → List (List StepNode)
  | .mk f ifSteps elseSteps cases defaultSteps steps =>
    match f.type with
    | some "conditional" =>
      ifSteps.toList ++ elseSteps.toList ++ (cases.getD []).map Prod.snd ++ defaultSteps.toList
    | some "loop" => steps.toList
    | some "parallel" => steps.toList
    | _ => []

/-- **A step is reached from another one** through lists of a kind, at whatever depth. -/
inductive Reaches (kind : StepNode → List (List StepNode)) : StepNode → StepNode → Prop where
  | self (node) : Reaches kind node node
  | nested {node nodes child n} (hl : nodes ∈ kind node) (hc : child ∈ nodes)
      (h : Reaches kind child n) : Reaches kind node n

/-- The type of a step is one that there is no more, whatever the case of its letters. -/
def IsRetired (node : StepNode) : Prop :=
  ∃ type ∈ node.fields.type, Text.asciiLower type = "subworkflow" ∨ Text.asciiLower type = "slot"

/-- What is wrong with a step that holds no steps. -/
def leafDefect? (id type : String) : Option CompileError :=
  if isRetired type then some (.retiredType id type)
  else if (LeafKind.ofName? type).isNone then some (.unknownType id type)
  else none

/-- **What is wrong with a step itself**, the steps that it holds apart. -/
def defect? (node : StepNode) : Option CompileError :=
  let id := displayId (headOf node.fields).id
  match node.fields.type with
  | none => some (.missingType id)
  | some "conditional" => none
  | some "loop" =>
    match compileLoopRule (headOf node.fields).id node.fields with
    | .ok _ => none
    | .error e => some e
  | some "parallel" => none
  | some type => leafDefect? id type

/-- **A compilation tells of the defects of some steps**: it succeeds if there are none, and fails
with one of them if there are any. -/
def Judges {α : Type} (nodes : StepNode → Prop) : Except CompileError α → Prop
  | .ok _ => ∀ node, nodes node → node.defect? = none
  | .error e => ∃ node, nodes node ∧ node.defect? = some e

section

variable {α β : Type} {P Q R : StepNode → Prop} {x : Except CompileError α}

theorem Judges.congr (hx : Judges P x) (h : ∀ node, Q node ↔ P node) : Judges Q x := by
  cases x with
  | error e =>
    obtain ⟨node, hn, he⟩ := hx
    exact ⟨node, (h node).mpr hn, he⟩
  | ok a => exact fun node hn => hx node ((h node).mp hn)

theorem Judges.nothing {a : α} (h : ∀ node, ¬ P node) : Judges P (.ok a) :=
  fun node hn => absurd hn (h node)

/-- One compilation after the other. -/
theorem Judges.bind {f : α → Except CompileError β} (hx : Judges P x) (hf : ∀ a, Judges Q (f a))
    (hR : ∀ node, R node ↔ P node ∨ Q node) : Judges R (x >>= f) := by
  cases x with
  | error e =>
    obtain ⟨node, hn, he⟩ := hx
    exact ⟨node, (hR node).mpr (.inl hn), he⟩
  | ok a =>
    have hf := hf a
    show Judges R (f a)
    cases hb : f a with
    | error e =>
      rw [hb] at hf
      obtain ⟨node, hn, he⟩ := hf
      exact ⟨node, (hR node).mpr (.inr hn), he⟩
    | ok b =>
      rw [hb] at hf
      intro node hn
      exact ((hR node).mp hn).elim (hx node) (hf node)

/-- What is made of a result has no defects. -/
theorem Judges.map {f : α → β} (hx : Judges P x) : Judges P (x.map f) := by
  cases x <;> exact hx

end

/-! ### What is looked at -/

/-- A step of the list is reached, or one that such a step reaches. -/
def ReachedFrom (nodes : List StepNode) (n : StepNode) : Prop :=
  ∃ node ∈ nodes, Reaches ownLists node n

/-- A step is reached from one of the lists. -/
def ReachedThrough (ls : List (List StepNode)) (n : StepNode) : Prop :=
  ∃ nodes ∈ ls, ReachedFrom nodes n

theorem reaches_iff {node n : StepNode} :
    Reaches ownLists node n ↔ n = node ∨ ReachedThrough node.ownLists n := by
  constructor
  · rintro (_ | ⟨hl, hc, h⟩)
    · exact .inl rfl
    · exact .inr ⟨_, hl, _, hc, h⟩
  · rintro (rfl | ⟨nodes, hl, child, hc, h⟩)
    · exact .self n
    · exact .nested hl hc h

theorem reachedFrom_cons {node n : StepNode} {nodes : List StepNode} :
    ReachedFrom (node :: nodes) n ↔ Reaches ownLists node n ∨ ReachedFrom nodes n := by
  simp only [ReachedFrom, List.mem_cons, or_and_right, exists_or, exists_eq_left]

theorem reachedThrough_cons {nodes : List StepNode} {ls : List (List StepNode)} {n : StepNode} :
    ReachedThrough (nodes :: ls) n ↔ ReachedFrom nodes n ∨ ReachedThrough ls n := by
  simp only [ReachedThrough, List.mem_cons, or_and_right, exists_or, exists_eq_left]

theorem reachedThrough_append {l l' : List (List StepNode)} {n : StepNode} :
    ReachedThrough (l ++ l') n ↔ ReachedThrough l n ∨ ReachedThrough l' n := by
  simp only [ReachedThrough, List.mem_append, or_and_right, exists_or]

theorem not_reachedThrough_nil (n : StepNode) : ¬ ReachedThrough [] n := by
  rintro ⟨nodes, h, -⟩
  cases h

/-! ### Compilations and defects -/

/-- A step that is looked at by itself. -/
theorem Judges.ofDefect {α : Type} {node : StepNode} {x : Except CompileError α}
    (hok : ∀ a, x = .ok a → node.defect? = none)
    (herror : ∀ e, x = .error e → node.defect? = some e) : Judges (· = node) x := by
  cases x with
  | ok a =>
    rintro _ rfl
    exact hok a rfl
  | error e => exact ⟨node, rfl, herror e rfl⟩

/-- A step with which nothing is wrong itself is judged by the lists that belong to its type. -/
theorem Judges.ofLists {α : Type} {node : StepNode} {x : Except CompileError α}
    (hnode : node.defect? = none) (hx : Judges (ReachedThrough node.ownLists) x) :
    Judges (Reaches ownLists node) x := by
  have hself : Judges (· = node) (Except.ok () : Except CompileError Unit) := by
    rintro _ rfl
    exact hnode
  exact hself.bind (f := fun _ => x) (fun _ => hx) fun _ => reaches_iff

/-- A step with a type that holds no steps. -/
theorem judges_compileLeaf (node : StepNode) {f : StepFields} {type : String}
    (h : node.defect? = leafDefect? (displayId (headOf f).id) type) :
    Judges (· = node) (compileLeaf f type) := by
  unfold leafDefect? at h
  unfold compileLeaf
  dsimp only
  split
  next hr =>
    rw [if_pos hr] at h
    exact ⟨node, rfl, h⟩
  next hr =>
    rw [if_neg hr] at h
    cases hk : LeafKind.ofName? type with
    | none =>
      rw [hk] at h
      exact ⟨node, rfl, h⟩
    | some kind =>
      rw [hk] at h
      rintro _ rfl
      exact h

-- The block of theorems below follows the block of functions that it is about.

mutual
/-- **A step is compiled if nothing is wrong with it and with the steps that it reaches** through
the lists that belong to their types. Otherwise the compilation fails with one of the defects. -/
theorem judges_compile : ∀ node, Judges (Reaches ownLists node) (compile node)
  | .mk f ifSteps elseSteps cases defaultSteps steps => by
    rw [compile]
    split
    next ht => exact ⟨_, .self _, by simp only [defect?, fields, ht]⟩
    next ht =>
      -- the branches of a conditional, one after the other
      refine .ofLists (by simp only [defect?, fields, ht]) ?_
      simp only [ownLists, ht]
      refine .bind (judges_compileOption ifSteps) (fun _ => ?_) fun _ => by
        rw [reachedThrough_append, reachedThrough_append, reachedThrough_append, or_assoc, or_assoc]
      refine .bind (judges_compileOption elseSteps) (fun _ => ?_) fun _ => Iff.rfl
      refine .bind (judges_compileCases cases) (fun _ => ?_) fun _ => Iff.rfl
      exact (judges_compileOption defaultSteps).map
    next ht =>
      -- a loop is the only step that may be wrong itself and holds others
      refine .bind (P := (· = _)) (.ofDefect (fun _ hr => ?_) fun _ hr => ?_) (fun _ => ?_)
        fun _ => reaches_iff
      · simp only [defect?, fields, ht, hr]
      · simp only [defect?, fields, ht, hr]
      · simp only [ownLists, ht]
        exact (judges_compileOption steps).map
    next ht =>
      refine .ofLists (by simp only [defect?, fields, ht]) ?_
      simp only [ownLists, ht]
      exact (judges_compileOption steps).map
    next type hc hl hp ht =>
      -- whatever lists a step of any other type has, it reaches none through them
      have hnil : ownLists (.mk f ifSteps elseSteps cases defaultSteps steps) = [] := by
        rw [ownLists, ht]
        split
        next h => exact absurd (Option.some.inj h) hc
        next h => exact absurd (Option.some.inj h) hl
        next h => exact absurd (Option.some.inj h) hp
        next => rfl
      refine (judges_compileLeaf (.mk f ifSteps elseSteps cases defaultSteps steps) ?_).congr
        fun n => ?_
      · simp only [defect?, fields, ht]
      · simp only [reaches_iff, hnil, not_reachedThrough_nil, or_false]

theorem judges_compileOption : ∀ nodes : Option (List StepNode),
    Judges (ReachedThrough nodes.toList) (compileOption nodes)
  | none => by
    rw [compileOption]
    exact .nothing not_reachedThrough_nil
  | some nodes => by
    rw [compileOption]
    refine (judges_compileList nodes).map.congr fun n => ?_
    simp only [Option.toList_some, reachedThrough_cons, not_reachedThrough_nil, or_false]

theorem judges_compileCases : ∀ cases : Option (List (String × List StepNode)),
    Judges (ReachedThrough ((cases.getD []).map Prod.snd)) (compileCases cases)
  | none => by
    rw [compileCases]
    exact .nothing not_reachedThrough_nil
  | some cases => by
    rw [compileCases]
    exact (judges_compileCaseList cases).map

theorem judges_compileCaseList : ∀ cases : List (String × List StepNode),
    Judges (ReachedThrough (cases.map Prod.snd)) (compileCaseList cases)
  | [] => by
    rw [compileCaseList]
    exact .nothing not_reachedThrough_nil
  | (key, nodes) :: cases => by
    rw [compileCaseList]
    exact .bind (judges_compileList nodes) (fun _ => (judges_compileCaseList cases).map)
      fun _ => reachedThrough_cons

theorem judges_compileList : ∀ nodes : List StepNode, Judges (ReachedFrom nodes) (compileList nodes)
  | [] => by
    rw [compileList]
    refine .nothing ?_
    rintro n ⟨node, h, -⟩
    cases h
  | node :: nodes => by
    rw [compileList]
    exact .bind (judges_compile node) (fun _ => (judges_compileList nodes).map)
      fun _ => reachedFrom_cons
end

/-- A step of a retired type is defective by that, and the defect names it. -/
theorem IsRetired.defect? {node : StepNode} (h : node.IsRetired) : ∃ type ∈ node.fields.type,
    node.defect? = some (.retiredType (displayId (node.fields.id.getD "")) type) := by
  obtain ⟨type, ht, hr⟩ := h
  have hretired : isRetired type = true := by
    simpa [isRetired, retiredTypes, List.contains_iff_mem] using hr
  refine ⟨type, ht, ?_⟩
  unfold StepNode.defect?
  rw [show node.fields.type = some type from ht]
  dsimp only
  -- none of the types that hold steps is retired
  split
  next h => cases h
  next h => cases h; exact absurd hr (by decide +kernel)
  next h => cases h; exact absurd hr (by decide +kernel)
  next h => cases h; exact absurd hr (by decide +kernel)
  next h =>
    cases h
    rw [leafDefect?, if_pos hretired]
    rfl

end StepNode

namespace Document

/-- **A step is looked at when a document is compiled**: each list on the way to it belongs to the
type of the step that holds it. -/
def LooksAt (d : Document) (node : StepNode) : Prop :=
  ∃ root ∈ d.steps, StepNode.Reaches StepNode.ownLists root node

/-- A step stands in a document, in whichever list and at whatever depth. -/
def Holds (d : Document) (node : StepNode) : Prop :=
  ∃ root ∈ d.steps, StepNode.Reaches StepNode.lists root node

/-- **A document is compiled if nothing is wrong with the steps that are looked at**, and otherwise
refused for something that is wrong with one of them. So a document in which a step of a retired
type is looked at is refused; a step is not looked at if a list on the way to it does not belong to
the type of the step that holds it. -/
theorem refuses_retired (d : Document) :
    ((∃ w, d.compile = .ok w) ↔ ∀ node, d.LooksAt node → node.defect? = none) ∧
    (∀ e, d.compile = .error e → ∃ node, d.LooksAt node ∧ node.defect? = some e) ∧
    ∀ node, d.LooksAt node → node.IsRetired →
      (∃ e, d.compile = .error e) ∧ ∃ type ∈ node.fields.type, node.defect? =
        some (.retiredType (StepNode.displayId (node.fields.id.getD "")) type) := by
  have hjudges : StepNode.Judges d.LooksAt d.compile := (StepNode.judges_compileList d.steps).map
  cases hc : d.compile with
  | ok w =>
    rw [hc] at hjudges
    refine ⟨⟨fun _ => hjudges, fun _ => ⟨w, rfl⟩⟩, nofun, fun node hn hr => ?_⟩
    obtain ⟨type, -, hd⟩ := hr.defect?
    rw [hjudges node hn] at hd
    cases hd
  | error e =>
    rw [hc] at hjudges
    refine ⟨⟨nofun, fun h => ?_⟩, ?_, fun node hn hr => ⟨⟨e, rfl⟩, hr.defect?⟩⟩
    · obtain ⟨node, hn, he⟩ := hjudges
      rw [h node hn] at he
      cases he
    · rintro _ ⟨⟩
      exact hjudges

end Document

/-- A step of a type with an id. -/
def StepNode.ofType (id type : String) (cases : Option (List (String × List StepNode)))
    (steps : Option (List StepNode)) : StepNode :=
  .mk { id := some id, type := some type, action := some "run" } none none cases none steps

namespace Document

/-- A slot in a case of a conditional in a loop. -/
def nestedSlot : Document :=
  { steps := [.ofType "l" "loop" none
      (some [.ofType "c" "conditional" (some [("k", [.ofType "s" "Slot" none none])]) none])] }

/-- A slot that is found in a case of a conditional in a loop. -/
theorem refuses_retired_nested :
    nestedSlot.LooksAt (.ofType "s" "Slot" none none) ∧
      (StepNode.ofType "s" "Slot" none none).IsRetired ∧ ∃ e, nestedSlot.compile = .error e := by
  have hretired : (StepNode.ofType "s" "Slot" none none).IsRetired :=
    ⟨"Slot", rfl, .inr (by decide +kernel)⟩
  have hlooks : nestedSlot.LooksAt (.ofType "s" "Slot" none none) :=
    ⟨_, List.mem_singleton_self _, .nested (List.mem_singleton_self _) (List.mem_singleton_self _)
      (.nested (List.mem_singleton_self _) (List.mem_singleton_self _) (.self _))⟩
  exact ⟨hlooks, hretired, ((refuses_retired nestedSlot).2.2 _ hlooks hretired).1⟩

/-- A slot among the steps of a command, whose type has no use for steps. -/
def misplacedSlot : Document :=
  { steps := [.ofType "a" "command" none (some [.ofType "s" "slot" none none])] }

/-- **A slot that is passed over**: it stands in a list that does not belong to the type of the step
that holds it, and the document is compiled without it. -/
theorem accepts_misplaced_slot :
    misplacedSlot.Holds (.ofType "s" "slot" none none) ∧
      (StepNode.ofType "s" "slot" none none).IsRetired ∧
      ∃ w, misplacedSlot.compile = .ok w ∧ w.steps.map Step.id = ["a"] := by
  refine ⟨⟨_, List.mem_singleton_self _, .nested (List.mem_singleton_self _)
    (List.mem_singleton_self _) (.self _)⟩, ⟨"slot", rfl, .inr (by decide +kernel)⟩, ?_⟩
  exact ⟨_, rfl, rfl⟩

end Document

end WorkflowEngine
