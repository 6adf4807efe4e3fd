import WorkflowEngine.Proofs.Workflow.Resolution
import WorkflowEngine.Workflow.Compile
import WorkflowEngine.Workflow.Decompile

/-!
# Workflows as documents, and back

A workflow that comes from documents, directly or by resolution, is the same again after it has been
written as a document and compiled. All fields but one are written in a form that is read back
whatever their values are. The exception is the bound of a loop: a count has to be in range, and a
template must not read as a count. Compiled bounds are like that, and merges make no new ones.

## Main definitions

* `Bound.Expressible`, `Step.Expressible`: a bound, and the bounds in a tree, that a document can
  express
* `Workflow.Authored`: a workflow that comes from documents

## Main results

* `StepNode.expressible_of_compileList`: what is compiled is expressible
* `Step.compileList_decompileList`: what is expressible is read back from what is written
* `Workflow.compile_decompile_of_authored`: workflows that come from documents are read back
-/

namespace WorkflowEngine

/-! ### Names and fields -/

@[simp] theorem ParameterType.ofName?_name (t : ParameterType) : ofName? t.name = some t := by
  cases t <;> rfl

@[simp] theorem LeafKind.ofName?_name (k : LeafKind) : ofName? k.name = some k := by
  cases k <;> rfl

@[simp] theorem LoopType.ofName?_name (t : LoopType) : ofName? t.name = some t := by
  cases t <;> rfl

@[simp] theorem OnError.ofName?_name (e : OnError) : ofName? e.name = some e := by
  cases e <;> rfl

@[simp] theorem getD_nonEmpty? (s : String) : (nonEmpty? s).getD "" = s := by
  unfold nonEmpty?
  split
  next h => exact (String.isEmpty_iff.mp h).symm
  next => rfl

@[simp] theorem getD_flag? (b : Bool) : (flag? b).getD false = b := by
  cases b <;> rfl

@[simp] theorem Parameter.compile_decompile (p : Parameter) : p.decompile.compile = p := by
  obtain ⟨type, description, default, required⟩ := p
  cases type <;> simp [Parameter.decompile, ParameterNode.compile]

/-! ### Bounds -/

/-- **A bound that a document can express.** -/
def Bound.Expressible : Bound → Prop
  | .count n => n ≤ StepNode.maxCount
  | .template text => StepNode.countOfText? (Text.trim text) = none

namespace Step

/-- The bound of a loop. -/
def bound? : Step → Option Bound
  | .loop _ rule _ => rule.bound
  | _ => none

/-- **A tree of steps whose bounds a document can express.** -/
inductive Expressible : Step → Prop where
  | intro {s} (bound : ∀ b ∈ s.bound?, b.Expressible)
    (nested : ∀ steps ∈ s.children, ∀ x ∈ steps, Expressible x) : Expressible s

/-- Trees whose bounds a document can express. -/
def AreExpressible (steps : List Step) : Prop := ∀ s ∈ steps, s.Expressible

theorem expressible_iff {s : Step} :
    s.Expressible ↔
      (∀ b ∈ s.bound?, b.Expressible) ∧ ∀ steps ∈ s.children, AreExpressible steps :=
  ⟨fun ⟨bound, nested⟩ => ⟨bound, nested⟩, fun ⟨bound, nested⟩ => ⟨bound, nested⟩⟩

/-- An absent body is an empty one. -/
theorem areExpressible_getD {body : Option (List Step)}
    (h : ∀ steps ∈ body.toList, AreExpressible steps) : AreExpressible (body.getD []) := by
  cases body with
  | none => nofun
  | some steps => exact h steps (List.mem_singleton_self _)

end Step

open Step

namespace StepNode

theorem countOfNumber_le : ∀ n, countOfNumber n ≤ maxCount
  | .int _ => Nat.min_le_right ..
  | .float x => by
    rw [countOfNumber, countOfFloat]
    split
    · exact Nat.zero_le _
    · exact Nat.min_le_right ..

theorem countOfText?_le {s : String} {n : Nat} (h : countOfText? s = some n) : n ≤ maxCount := by
  obtain ⟨-, hn⟩ := Option.filter_eq_some_iff.mp h
  exact of_decide_eq_true hn

theorem expressible_of_compileBound {id : String} {v : Option Json} {b : Option Bound}
    (h : compileBound id v = .ok b) : ∀ x ∈ b, x.Expressible := by
  unfold compileBound at h
  split at h
  · cases h; nofun
  · cases h; nofun
  · cases h
    rintro _ ⟨⟩
    exact countOfNumber_le _
  · split at h
    next n hn =>
      cases h
      rintro _ ⟨⟩
      exact countOfText?_le hn
    next hn =>
      cases h
      rintro _ ⟨⟩
      exact hn
  · cases h

theorem compileBound_toJson {id : String} {b : Bound} (h : b.Expressible) :
    compileBound id (some b.toJson) = .ok (some b) := by
  cases b with
  | count n => exact congrArg (fun k => Except.ok (some (Bound.count k))) (Nat.min_eq_left h)
  | template text =>
    rw [Bound.toJson, compileBound, show countOfText? (Text.trim text) = none from h]

/-! ### What is compiled is expressible -/

theorem exists_of_bind_eq_ok {ε α β : Type} {x : Except ε α} {f : α → Except ε β} {b : β}
    (h : x >>= f = .ok b) : ∃ a, x = .ok a ∧ f a = .ok b := by
  cases x with
  | error e => cases h
  | ok a => exact ⟨a, rfl, h⟩

theorem expressible_of_compileLeaf {f : StepFields} {type : String} {s : Step}
    (h : compileLeaf f type = .ok s) : s.Expressible := by
  unfold compileLeaf at h
  split at h
  · cases h
  · split at h
    · cases h
    · cases h
      exact expressible_iff.mpr ⟨nofun, nofun⟩

theorem expressible_of_compileLoopRule {id : String} {f : StepFields} {rule : LoopRule}
    (h : compileLoopRule id f = .ok rule) : ∀ b ∈ rule.bound, b.Expressible := by
  obtain ⟨onError, -, h⟩ := exists_of_bind_eq_ok h
  obtain ⟨bound, hb, h⟩ := exists_of_bind_eq_ok h
  cases h
  exact expressible_of_compileBound hb

-- The blocks of theorems below follow the block of functions that they are about.

mutual
/-- A compiled step is expressible. -/
theorem expressible_of_compile : ∀ (node : StepNode) {s : Step},
    compile node = .ok s → s.Expressible
  | .mk f ifSteps elseSteps cases defaultSteps steps, s, h => by
    rw [compile] at h
    split at h
    · cases h
    · obtain ⟨i, hi, h⟩ := exists_of_bind_eq_ok h
      obtain ⟨e, he, h⟩ := exists_of_bind_eq_ok h
      obtain ⟨c, hc, h⟩ := exists_of_bind_eq_ok h
      obtain ⟨d, hd, h⟩ := exists_of_bind_eq_ok h
      cases h
      refine expressible_iff.mpr ⟨nofun, ?_⟩
      simp only [children, List.forall_mem_append]
      exact ⟨⟨⟨expressible_of_compileOption ifSteps hi, expressible_of_compileOption elseSteps he⟩,
        expressible_of_compileCases cases hc⟩, expressible_of_compileOption defaultSteps hd⟩
    · obtain ⟨rule, hr, h⟩ := exists_of_bind_eq_ok h
      obtain ⟨body, hb, h⟩ := exists_of_bind_eq_ok h
      cases h
      exact expressible_iff.mpr ⟨expressible_of_compileLoopRule hr, List.forall_mem_singleton.mpr
        (areExpressible_getD (expressible_of_compileOption steps hb))⟩
    · obtain ⟨body, hb, h⟩ := exists_of_bind_eq_ok h
      cases h
      exact expressible_iff.mpr ⟨nofun, List.forall_mem_singleton.mpr
        (areExpressible_getD (expressible_of_compileOption steps hb))⟩
    · exact expressible_of_compileLeaf h

/-- A compiled branch that may be absent is expressible. -/
theorem expressible_of_compileOption : ∀ (nodes : Option (List StepNode)) {b : Option (List Step)},
    compileOption nodes = .ok b → ∀ steps ∈ b.toList, AreExpressible steps
  | none, b, h => by
    rw [compileOption] at h
    cases h
    nofun
  | some nodes, b, h => by
    rw [compileOption] at h
    cases hs : compileList nodes with
    | error e =>
      rw [hs] at h
      cases h
    | ok steps =>
      rw [hs] at h
      cases h
      exact List.forall_mem_singleton.mpr (expressible_of_compileList nodes hs)

/-- Compiled cases that may be absent are expressible. -/
theorem expressible_of_compileCases : ∀ (nodes : Option (List (String × List StepNode)))
    {c : Option (List (String × List Step))}, compileCases nodes = .ok c →
      ∀ steps ∈ (c.getD []).map Prod.snd, AreExpressible steps
  | none, c, h => by
    rw [compileCases] at h
    cases h
    nofun
  | some nodes, c, h => by
    rw [compileCases] at h
    cases hs : compileCaseList nodes with
    | error e =>
      rw [hs] at h
      cases h
    | ok steps =>
      rw [hs] at h
      cases h
      exact expressible_of_compileCaseList nodes hs

/-- Compiled cases are expressible. -/
theorem expressible_of_compileCaseList : ∀ (nodes : List (String × List StepNode))
    {c : List (String × List Step)}, compileCaseList nodes = .ok c →
      ∀ steps ∈ c.map Prod.snd, AreExpressible steps
  | [], c, h => by
    rw [compileCaseList] at h
    cases h
    nofun
  | (key, nodes) :: rest, c, h => by
    rw [compileCaseList] at h
    obtain ⟨steps, hs, h⟩ := exists_of_bind_eq_ok h
    obtain ⟨tail, ht, h⟩ := exists_of_bind_eq_ok h
    cases h
    exact List.forall_mem_cons.mpr
      ⟨expressible_of_compileList nodes hs, expressible_of_compileCaseList rest ht⟩

/-- **What is compiled is expressible.** -/
theorem expressible_of_compileList : ∀ (nodes : List StepNode) {steps : List Step},
    compileList nodes = .ok steps → AreExpressible steps
  | [], steps, h => by
    rw [compileList] at h
    cases h
    nofun
  | node :: nodes, steps, h => by
    rw [compileList] at h
    obtain ⟨s, hs, h⟩ := exists_of_bind_eq_ok h
    obtain ⟨ss, hss, h⟩ := exists_of_bind_eq_ok h
    cases h
    exact List.forall_mem_cons.mpr
      ⟨expressible_of_compile node hs, expressible_of_compileList nodes hss⟩
end

/-! ### What is expressible is read back -/

@[simp] theorem headOf_decompile (h : Head) (type : String) : headOf (h.decompile type) = h := by
  obtain ⟨id, name, timeoutSecs, retryCount, continueOnError⟩ := h
  simp [Head.decompile, headOf]

theorem isRetired_name (k : LeafKind) : isRetired k.name = false := by
  cases k <;> decide

/-- No category has the name of a type that holds steps. -/
theorem compile_of_leafKind {f : StepFields} {k : LeafKind} (h : f.type = some k.name)
    (ifSteps elseSteps cases defaultSteps steps) :
    compile (.mk f ifSteps elseSteps cases defaultSteps steps) = compileLeaf f k.name := by
  rw [compile]
  cases k <;> rw [h] <;> rfl

theorem compileOnError_name (id : String) (e : OnError) :
    compileOnError id (if e = .fail then none else some e.name) = .ok e := by
  cases e <;> rfl

theorem compileBound_map_toJson {id : String} {b : Option Bound} (h : ∀ x ∈ b, x.Expressible) :
    compileBound id (b.map Bound.toJson) = .ok b := by
  cases b with
  | none => rfl
  | some b => exact compileBound_toJson (h b rfl)

theorem compileLoopRule_eq {id : String} {f : StepFields} {rule : LoopRule}
    (htype : f.loopType = rule.type.map LoopType.name) (hcondition : f.condition = rule.condition)
    (hbound : f.maxIterations = rule.bound.map Bound.toJson) (hbreak : f.breakOn = rule.breakOn)
    (honError : f.onError = if rule.onError = .fail then none else some rule.onError.name)
    (h : ∀ b ∈ rule.bound, b.Expressible) : compileLoopRule id f = .ok rule := by
  have ht : (rule.type.map LoopType.name).bind LoopType.ofName? = rule.type := by
    cases rule.type <;> simp
  rw [compileLoopRule, honError, compileOnError_name, hbound, compileBound_map_toJson h, htype, ht,
    hcondition, hbreak]
  rfl

end StepNode

namespace Step

open StepNode

mutual
/-- An expressible step is read back. -/
theorem compile_decompile : ∀ s : Step, s.Expressible → compile s.decompile = .ok s
  | .simple head leaf, _ => by
    rw [decompile, compile_of_leafKind rfl, compileLeaf, isRetired_name, LeafKind.ofName?_name]
    show Except.ok (Step.simple (headOf (head.decompile leaf.kind.name))
      { leaf with action := (nonEmpty? leaf.action).getD "" }) = _
    rw [headOf_decompile, getD_nonEmpty?]
  | .conditional head condition ifSteps elseSteps cases defaultSteps, h => by
    have hn := (expressible_iff.mp h).2
    simp only [children, List.forall_mem_append] at hn
    obtain ⟨⟨⟨hi, he⟩, hc⟩, hd⟩ := hn
    rw [decompile, compile]
    simp only [Head.decompile]
    rw [compileOption_decompileOption ifSteps hi, compileOption_decompileOption elseSteps he,
      compileCases_decompileCases cases hc, compileOption_decompileOption defaultSteps hd]
    show Except.ok (Step.conditional (headOf (head.decompile "conditional"))
      ((nonEmpty? condition).getD "") ifSteps elseSteps cases defaultSteps) = _
    rw [headOf_decompile, getD_nonEmpty?]
  | .loop head rule body, h => by
    obtain ⟨hb, hn⟩ := expressible_iff.mp h
    rw [decompile, compile]
    simp only [Head.decompile, compileOption,
      compileList_decompileList body (List.forall_mem_singleton.mp hn)]
    rw [compileLoopRule_eq rfl rfl rfl rfl rfl hb]
    show Except.ok (Step.loop (headOf (head.decompile "loop")) rule body) = _
    rw [headOf_decompile]
  | .parallel head rule body, h => by
    have hn := (expressible_iff.mp h).2
    rw [decompile, compile]
    simp only [Head.decompile, compileOption,
      compileList_decompileList body (List.forall_mem_singleton.mp hn)]
    show Except.ok (Step.parallel (headOf (head.decompile "parallel"))
      { rule with failFast := (flag? rule.failFast).getD false } body) = _
    rw [headOf_decompile, getD_flag?]

/-- An expressible branch that may be absent is read back. -/
theorem compileOption_decompileOption : ∀ branch : Option (List Step),
    (∀ steps ∈ branch.toList, AreExpressible steps) →
      compileOption (decompileOption branch) = .ok branch
  | none, _ => by rw [decompileOption, compileOption]
  | some steps, h => by
    rw [decompileOption, compileOption,
      compileList_decompileList steps (List.forall_mem_singleton.mp h)]
    rfl

/-- Expressible cases that may be absent are read back. -/
theorem compileCases_decompileCases : ∀ cases : Option (List (String × List Step)),
    (∀ steps ∈ (cases.getD []).map Prod.snd, AreExpressible steps) →
      compileCases (decompileCases cases) = .ok cases
  | none, _ => by rw [decompileCases, compileCases]
  | some cases, h => by
    rw [decompileCases, compileCases, compileCaseList_decompileCaseList cases h]
    rfl

/-- Expressible cases are read back. -/
theorem compileCaseList_decompileCaseList : ∀ cases : List (String × List Step),
    (∀ steps ∈ cases.map Prod.snd, AreExpressible steps) →
      compileCaseList (decompileCaseList cases) = .ok cases
  | [], _ => by rw [decompileCaseList, compileCaseList]
  | (key, steps) :: cases, h => by
    obtain ⟨hs, hc⟩ := List.forall_mem_cons.mp h
    rw [decompileCaseList, compileCaseList, compileList_decompileList steps hs,
      compileCaseList_decompileCaseList cases hc]
    rfl

/-- **What is expressible is read back from what is written.** -/
theorem compileList_decompileList : ∀ steps : List Step,
    AreExpressible steps → compileList (decompileList steps) = .ok steps
  | [], _ => by rw [decompileList, compileList]
  | s :: ss, h => by
    obtain ⟨hs, hss⟩ := List.forall_mem_cons.mp h
    rw [decompileList, compileList, compile_decompile s hs, compileList_decompileList ss hss]
    rfl
end

/-! ### Workflows that come from documents -/

theorem AreExpressible.merge {parent child : List Step} (hp : AreExpressible parent)
    (hc : AreExpressible child) : AreExpressible (mergeSteps parent child) := by
  intro s hs
  rcases mem_mergeSteps.mp hs with ⟨hs, -⟩ | ⟨p, hpm, rfl⟩
  · exact hc s hs
  · rcases Merge.replacement_cases child p with ⟨hr, -⟩ | ⟨hr, -⟩
    · exact hc _ hr
    · exact hr.symm ▸ hp p hpm

end Step

namespace Catalog

variable {catalog : Catalog}

/-- Merges along a walk have the bounds of the workflows on it. -/
theorem areExpressible_compose (hc : ∀ x ∈ catalog, AreExpressible x.2.steps) {n : Nat}
    {w u : Workflow} (hw : AreExpressible w.steps) (h : catalog.compose n w = .ok u) :
    AreExpressible u.steps := by
  -- Induction on the walk from the workflow to the one that extends nothing.
  induction n generalizing w u with
  | zero =>
    rcases compose_cases h with ⟨-, rfl⟩ | ⟨_, _, _, _, hk, -⟩
    · exact hw
    · cases hk
  | succ n ih =>
    rcases compose_cases h with ⟨-, rfl⟩ | ⟨k, p, v, u, hk, -, hv, hu, rfl⟩
    · exact hw
    · obtain rfl := Nat.succ.inj hk
      exact (ih (hc _ (Dict.mem_of_find? hv)) hu).merge hw

theorem areExpressible_resolve (hc : ∀ x ∈ catalog, AreExpressible x.2.steps) {id : String}
    {w : Workflow} (h : catalog.resolve id = .ok w) : AreExpressible w.steps := by
  obtain ⟨-, v, hv, h⟩ := resolve_eq_ok_iff.mp h
  exact areExpressible_compose hc (hc _ (Dict.mem_of_find? hv)) h

end Catalog

namespace Workflow

/-- **A workflow that comes from documents**: compiled, or resolved where all workflows come from
documents. -/
inductive Authored : Workflow → Prop where
  | compiled {d w} (h : Document.compile d = .ok w) : Authored w
  | resolved {catalog : Catalog} {id w} (hc : ∀ x ∈ catalog, Authored x.2)
    (h : catalog.resolve id = .ok w) : Authored w

theorem Authored.areExpressible {w : Workflow} (h : w.Authored) : AreExpressible w.steps := by
  induction h with
  | compiled h =>
    obtain ⟨steps, hs, h⟩ := StepNode.exists_of_bind_eq_ok h
    cases h
    exact StepNode.expressible_of_compileList _ hs
  | resolved _ h ih => exact Catalog.areExpressible_resolve ih h

theorem map_compile_decompile (parameters : Dict Parameter) :
    ((parameters.map fun (name, p) => (name, p.decompile)).map fun (name, p) =>
      (name, p.compile)) = parameters := by
  rw [List.map_map]
  refine (List.map_congr_left fun x _ => ?_).trans (List.map_id parameters)
  exact Prod.ext rfl x.2.compile_decompile

/-- **Workflows that come from documents are read back**: what is written for one compiles, and to
the same workflow. -/
theorem compile_decompile_of_authored {w : Workflow} (h : w.Authored) :
    w.decompile.compile = .ok w := by
  obtain ⟨id, name, description, version, parent, isAbstract, reusable, parameters, vars, steps,
    metadata, createdAt, updatedAt⟩ := w
  simp only [Document.compile, decompile, compileList_decompileList steps h.areExpressible,
    getD_nonEmpty?, getD_flag?, map_compile_decompile]
  rfl

end Workflow

namespace Document

/-- A document with a switch in a loop, whose count is written as a text. -/
def counting : Document :=
  { id := some "base"
    parameters := [("p", { type := some "number", required := some true })]
    steps := [.mk { id := some "l", type := some "loop", loopType := some "for",
                    maxIterations := some (.str " +7 "), onError := some "break" }
      none none none none
      (some [.mk { id := some "c", type := some "conditional", condition := some "{{ x }}" }
        none none (some [("k", [.mk { type := some "llm", prompt := some "?" }
          none none none none none])]) none none])] }

/-- A document that extends it, with a loop whose bound is a template. -/
def templated : Document :=
  { id := some "leaf"
    parent := some "base"
    steps := [.mk { id := some "m", type := some "loop", maxIterations := some (.str "{{ n }}") }
      none none none none none] }

end Document

/-- The workflows of those documents that compile. -/
def Catalog.ofDocuments (documents : List (String × Document)) : Catalog :=
  documents.filterMap fun x => x.2.compile.toOption.map (x.1, ·)

theorem Catalog.authored_ofDocuments (documents : List (String × Document)) :
    ∀ x ∈ ofDocuments documents, x.2.Authored := by
  intro x hx
  obtain ⟨y, -, hd⟩ := List.mem_filterMap.mp hx
  cases hw : y.2.compile with
  | error e =>
    rw [hw] at hd
    cases hd
  | ok w =>
    rw [hw] at hd
    cases hd
    exact .compiled hw

/-- A workflow that is resolved from two documents. -/
theorem Workflow.compile_decompile_of_authored_leaf : ∃ w,
    (Catalog.ofDocuments [("base", .counting), ("leaf", .templated)]).resolve "leaf" = .ok w ∧
      w.steps.map Step.bound? = [some (.count 7), some (.template "{{ n }}")] ∧
      w.decompile.compile = .ok w := by
  have hr : (Catalog.ofDocuments [("base", .counting), ("leaf", .templated)]).resolve "leaf" =
    .ok _ := rfl
  exact ⟨_, hr, rfl, compile_decompile_of_authored (.resolved (Catalog.authored_ofDocuments _) hr)⟩

end WorkflowEngine
