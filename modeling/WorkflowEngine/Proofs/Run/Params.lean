import Mathlib.Data.List.Forall2
import WorkflowEngine.Proofs.Run.Leaf
import WorkflowEngine.Proofs.Template.Texts

/-!
# What simple steps are asked with

The configuration of a simple step is a tree of values whose texts are templates. Each template is
evaluated once, where it stands, and its value takes its place; whatever texts that value holds are
not looked at again.

## Main definitions

* `Json.strings`: the texts in a value
* `Leaf.templates`: the templates of a simple step

## Main results

* `Leaf.resolve_arr_iff`, `Leaf.resolve_obj_iff`: arrays keep their length, and objects their keys
* `Leaf.resolve_of_plain`: a value without placeholders stays as it is
* `Leaf.exists_of_resolve_error`: a value fails with one of its templates
* `Leaf.request_congr`, `Leaf.run_congr`: what is asked for a simple step depends on the texts of
  its templates
-/

namespace WorkflowEngine

namespace Json

mutual
/-- The texts in a value, at any depth. -/
def strings : Json → List String
  | .str s => [s]
  | .arr items => stringsOfItems items
  | .obj fields => stringsOfFields fields
  | _ => []

/-- The texts in elements. -/
def stringsOfItems : List Json → List String
  | [] => []
  | v :: vs => strings v ++ stringsOfItems vs

/-- The texts in the values of fields. -/
def stringsOfFields : List (String × Json) → List String
  | [] => []
  | (_, v) :: fs => strings v ++ stringsOfFields fs
end

end Json

namespace Leaf

/-- The templates of a simple step: the texts of its configuration, and its prompt. -/
def templates (leaf : Leaf) : List String :=
  Json.stringsOfFields leaf.config ++ leaf.prompt.toList

variable {engine engine' : Expr.Engine} {scope : Json}

/-! ### The form of values -/

theorem resolveItems_eq_ok_iff {items vs : List Json} :
    resolveItems engine scope items = .ok vs ↔
      List.Forall₂ (fun x y => resolve engine scope x = .ok y) items vs := by
  induction items generalizing vs with
  | nil => cases vs <;> simp [resolveItems]
  | cons x items ih =>
    rw [resolveItems]
    cases hx : resolve engine scope x with
    | error e => cases vs <;> simp [bind, Except.bind, hx]
    | ok y =>
      cases hs : resolveItems engine scope items with
      | error e => cases vs <;> simp [bind, Except.bind, ← ih, hs]
      | ok ys => cases vs <;> simp [bind, Except.bind, pure, Except.pure, ← ih, hs, hx]

theorem resolveFields_eq_ok_iff {fields fs : List (String × Json)} :
    resolveFields engine scope fields = .ok fs ↔
      List.Forall₂ (fun f g => f.1 = g.1 ∧ resolve engine scope f.2 = .ok g.2) fields fs := by
  induction fields generalizing fs with
  | nil => cases fs <;> simp [resolveFields]
  | cons f fields ih =>
    obtain ⟨k, x⟩ := f
    rw [resolveFields]
    cases hx : resolve engine scope x with
    | error e => cases fs <;> simp [bind, Except.bind, hx]
    | ok y =>
      cases hs : resolveFields engine scope fields with
      | error e => cases fs <;> simp [bind, Except.bind, ← ih, hs]
      | ok ys =>
        cases fs <;>
          simp [bind, Except.bind, pure, Except.pure, ← ih, hs, hx, Prod.ext_iff, and_assoc]

/-- **An array keeps its length**: each of its elements is resolved where it stands. -/
theorem resolve_arr_iff {items : List Json} {v : Json} :
    resolve engine scope (.arr items) = .ok v ↔
      ∃ vs, v = .arr vs ∧ List.Forall₂ (fun x y => resolve engine scope x = .ok y) items vs := by
  rw [resolve]
  simp only [← resolveItems_eq_ok_iff]
  cases resolveItems engine scope items <;> simp [Except.map, eq_comm]

/-- **An object keeps its keys**: each of its values is resolved where it stands. -/
theorem resolve_obj_iff {fields : List (String × Json)} {v : Json} :
    resolve engine scope (.obj fields) = .ok v ↔
      ∃ fs, v = .obj fs ∧
        List.Forall₂ (fun f g => f.1 = g.1 ∧ resolve engine scope f.2 = .ok g.2) fields fs := by
  rw [resolve]
  simp only [← resolveFields_eq_ok_iff]
  cases resolveFields engine scope fields <;> simp [Except.map, eq_comm]

mutual
/-- **A value without placeholders stays as it is.** -/
theorem resolve_of_plain (engine : Expr.Engine) (hscope : scope.isObj = true) : ∀ v : Json,
    (∀ t ∈ v.strings, Template.hasPlaceholder t.toList = false) → resolve engine scope v = .ok v
  | .null, _ | .bool _, _ | .num _, _ => by rw [resolve]; all_goals rintro _ ⟨⟩
  | .str t, h => by
    rw [resolve, Template.evaluate_of_plain engine hscope (h t (List.mem_singleton_self t))]
  | .arr items, h => by
    rw [resolve, resolveItems_of_plain engine hscope items h]
    rfl
  | .obj fields, h => by
    rw [resolve, resolveFields_of_plain engine hscope fields h]
    rfl

theorem resolveItems_of_plain (engine : Expr.Engine) (hscope : scope.isObj = true) :
    ∀ items : List Json,
      (∀ t ∈ Json.stringsOfItems items, Template.hasPlaceholder t.toList = false) →
        resolveItems engine scope items = .ok items
  | [], _ => rfl
  | v :: vs, h => by
    rw [Json.stringsOfItems, List.forall_mem_append] at h
    rw [resolveItems, resolve_of_plain engine hscope v h.1,
      resolveItems_of_plain engine hscope vs h.2]
    rfl

theorem resolveFields_of_plain (engine : Expr.Engine) (hscope : scope.isObj = true) :
    ∀ fields : List (String × Json),
      (∀ t ∈ Json.stringsOfFields fields, Template.hasPlaceholder t.toList = false) →
        resolveFields engine scope fields = .ok fields
  | [], _ => rfl
  | (k, v) :: fs, h => by
    rw [Json.stringsOfFields, List.forall_mem_append] at h
    rw [resolveFields, resolve_of_plain engine hscope v h.1,
      resolveFields_of_plain engine hscope fs h.2]
    rfl
end

/-! ### Failures -/

mutual
/-- **A value fails with one of its templates.** -/
theorem exists_of_resolve_error {e : Template.EvalError} : ∀ v : Json,
    resolve engine scope v = .error e →
      ∃ t ∈ v.strings, Template.evaluate engine t scope = .error e
  | .null, h | .bool _, h | .num _, h => by simp [resolve] at h
  | .str t, h => ⟨t, List.mem_singleton_self t, by rwa [resolve] at h⟩
  | .arr items, h => by
    refine exists_of_resolveItems_error items ?_
    rw [resolve] at h
    cases hs : resolveItems engine scope items with
    | ok vs => simp [hs, Except.map] at h
    | error e' => simpa [hs, Except.map] using h
  | .obj fields, h => by
    refine exists_of_resolveFields_error fields ?_
    rw [resolve] at h
    cases hs : resolveFields engine scope fields with
    | ok fs => simp [hs, Except.map] at h
    | error e' => simpa [hs, Except.map] using h

theorem exists_of_resolveItems_error {e : Template.EvalError} : ∀ items : List Json,
    resolveItems engine scope items = .error e →
      ∃ t ∈ Json.stringsOfItems items, Template.evaluate engine t scope = .error e
  | [], h => by cases h
  | v :: vs, h => by
    simp only [Json.stringsOfItems, List.mem_append]
    rw [resolveItems] at h
    cases hv : resolve engine scope v with
    | error e' =>
      obtain rfl : e' = e := by simpa [hv, bind, Except.bind] using h
      obtain ⟨t, ht, he⟩ := exists_of_resolve_error v hv
      exact ⟨t, .inl ht, he⟩
    | ok v' =>
      cases hs : resolveItems engine scope vs with
      | ok vs' => simp [hv, hs, bind, Except.bind, pure, Except.pure] at h
      | error e' =>
        obtain rfl : e' = e := by simpa [hv, hs, bind, Except.bind] using h
        obtain ⟨t, ht, he⟩ := exists_of_resolveItems_error vs hs
        exact ⟨t, .inr ht, he⟩

theorem exists_of_resolveFields_error {e : Template.EvalError} :
    ∀ fields : List (String × Json), resolveFields engine scope fields = .error e →
      ∃ t ∈ Json.stringsOfFields fields, Template.evaluate engine t scope = .error e
  | [], h => by cases h
  | (k, v) :: fs, h => by
    simp only [Json.stringsOfFields, List.mem_append]
    rw [resolveFields] at h
    cases hv : resolve engine scope v with
    | error e' =>
      obtain rfl : e' = e := by simpa [hv, bind, Except.bind] using h
      obtain ⟨t, ht, he⟩ := exists_of_resolve_error v hv
      exact ⟨t, .inl ht, he⟩
    | ok v' =>
      cases hs : resolveFields engine scope fs with
      | ok vs' => simp [hv, hs, bind, Except.bind, pure, Except.pure] at h
      | error e' =>
        obtain rfl : e' = e := by simpa [hv, hs, bind, Except.bind] using h
        obtain ⟨t, ht, he⟩ := exists_of_resolveFields_error fs hs
        exact ⟨t, .inr ht, he⟩
end

/-! ### Two engines -/

mutual
/-- **What becomes of a value depends on the texts of its templates.** -/
theorem resolve_congr : ∀ v : Json,
    engine.Agree engine' (Template.textsOf v.strings) scope →
      resolve engine scope v = resolve engine' scope v
  | .null, _ | .bool _, _ | .num _, _ => by simp [resolve]
  | .str t, h => by
    rw [resolve, resolve, Template.evaluate_congr (h.of_mem (List.mem_singleton_self t))]
  | .arr items, h => by rw [resolve, resolve, resolveItems_congr items h]
  | .obj fields, h => by rw [resolve, resolve, resolveFields_congr fields h]

theorem resolveItems_congr : ∀ items : List Json,
    engine.Agree engine' (Template.textsOf (Json.stringsOfItems items)) scope →
      resolveItems engine scope items = resolveItems engine' scope items
  | [], _ => rfl
  | v :: vs, h => by
    rw [Json.stringsOfItems, Template.agree_append] at h
    rw [resolveItems, resolveItems, resolve_congr v h.1, resolveItems_congr vs h.2]

theorem resolveFields_congr : ∀ fields : List (String × Json),
    engine.Agree engine' (Template.textsOf (Json.stringsOfFields fields)) scope →
      resolveFields engine scope fields = resolveFields engine' scope fields
  | [], _ => rfl
  | (k, v) :: fs, h => by
    rw [Json.stringsOfFields, Template.agree_append] at h
    rw [resolveFields, resolveFields, resolve_congr v h.1, resolveFields_congr fs h.2]
end

section

variable {head : Head} {leaf : Leaf}

theorem promptText_congr
    (h : engine.Agree engine' (Template.textsOf leaf.prompt.toList) scope) :
    promptText engine leaf scope = promptText engine' leaf scope := by
  unfold promptText
  split
  next template hp =>
    rw [hp] at h
    rw [Template.render_congr (h.of_mem (List.mem_singleton_self template))]
  next => rfl

/-- **What is asked for a simple step depends on the texts of its templates.** -/
theorem request_congr (h : engine.Agree engine' (Template.textsOf leaf.templates) scope) :
    request engine head leaf scope = request engine' head leaf scope := by
  obtain ⟨hconfig, hprompt⟩ := Template.agree_append.mp h
  rw [request, request, resolveFields_congr _ hconfig, promptText_congr hprompt]

/-- **How a simple step is done depends on the texts of its templates.** -/
theorem run_congr {config : Config} {a : Assignment} {depth : Nat} {c : Context}
    (h : engine.Agree engine' (Template.textsOf leaf.templates) c.toJson) :
    Leaf.run engine config a head leaf depth c = Leaf.run engine' config a head leaf depth c := by
  have hprompt := promptText_congr (Template.agree_append.mp h).2
  rw [Leaf.run, Leaf.run, awaitApproval_eq, awaitApproval_eq, dispatch, dispatch,
    request_congr h, hprompt]

end

end Leaf

end WorkflowEngine
