import Mathlib.Data.List.Forall2
import WorkflowEngine.Proofs.Task.Schedule

/-!
# Traces of steps

Each time a step is run it is over once, with an outcome. The steps that were run for it, in their
order, make a tree. Two lists can be read off this tree: the order in which results are recorded,
and the order in which the ends of steps are told, which differ where steps are run side by side.

## Main definitions

* `Ending`: a step that is over, with the result that is kept of it
* `Trace`: what was run for a step
* `Step.MayRun`: the steps that may be run for a step, in their order
* `Trace.Fits`: a trace fits the steps
* `Trace.postorder`: each step behind those that were run for it, one part after the other
* `Trace.Told`: an order in which the ends of steps may be told
* `Motion`, `Task.follow`: what moves a task, whatever the schedule, the answers and the moment at
  which the run is cancelled

## Main results

* `Trace.perm_postorder_of_told`: what is told is each step of a trace, once
* `interleaves_toldBy`: what was told of some steps is put together from what was told of each
-/

namespace WorkflowEngine

/-! ### Ends of steps -/

/-- A step that is over. -/
structure Ending where
  step : Step
  depth : Nat
  outcome : Outcome
  durationMs : Nat

namespace Ending

/-- The result that is kept of a step that is over, unless the run was cancelled. -/
def result? (e : Ending) : Option StepResult :=
  if e.outcome.isCancelled then none
  else some (.ofOutcome e.step.id e.outcome e.durationMs)

/-- The results that are kept of steps that are over. -/
def results (es : List Ending) : List StepResult := es.filterMap result?

/-- The end of a step at the top level, from what its program goes on with: the outcome, and the
duration that was recorded last. -/
def ofTop (s : Step) (x : Outcome × Context) : Ending := ⟨s, 0, x.1, x.2.lastDurationMs⟩

theorem results_ofTop {s : Step} {x : Outcome × Context} (h : x.1.isCancelled = false) :
    results [ofTop s x] = [.ofOutcome s.id x.1 x.2.lastDurationMs] := by
  simp [results, result?, ofTop, h]

@[simp] theorem results_append (l m : List Ending) : results (l ++ m) = results l ++ results m :=
  List.filterMap_append

end Ending

/-- The end of a step that an effect tells of. -/
def Effect.ending? : Effect → Option Ending
  | .finished step depth o ms => some ⟨step, depth, o, ms⟩
  | _ => none

/-! ### Traces -/

/-- **What was run for a step**: how it ended, and the traces of the steps that were run for it. -/
inductive Trace where
  | node (ending : Ending) (parts : List Trace)

/-- A step whose steps run side by side. -/
def Step.isParallel : Step → Bool
  | .parallel .. => true
  | _ => false

/-- **The steps that may be run for a step** that comes to an outcome, in their order. A conditional
runs one of its lists from the front, a loop runs its body a number of times, the last time perhaps
not to the end, and a parallel step runs all of its steps, unless the run is cancelled. -/
def Step.MayRun (s : Step) (o : Outcome) (ran : List Step) : Prop :=
  match s with
  | .simple .. => ran = []
  | .conditional .. => ran = [] ∨ ∃ steps ∈ s.children, ran <+: steps
  | .loop _ _ body => ∃ n last, last <+: body ∧ ran = (List.replicate n body).flatten ++ last
  | .parallel _ _ body => ran.Sublist body ∧ (o.isCancelled = false → ran = body)

/-- Lists that are put together, each in its own order. -/
inductive Interleaves {α : Type} : List (List α) → List α → Prop where
  | nil {ls} (h : ∀ l ∈ ls, l = []) : Interleaves ls []
  | cons {ls ls' x l m} (h : Interleaves (ls ++ l :: ls') m) :
      Interleaves (ls ++ (x :: l) :: ls') (x :: m)

namespace Trace

/-- How the step of a trace ended. -/
def ending : Trace → Ending
  | .node ending _ => ending

/-- The steps of traces. -/
def steps (parts : List Trace) : List Step := parts.map fun p => p.ending.step

/-- **A trace fits the steps**: those that were run for a step are the ones that may be, one level
deeper. -/
inductive Fits : Trace → Prop where
  | intro {e parts} (h : e.step.MayRun e.outcome (steps parts))
      (hd : ∀ p ∈ parts, p.ending.depth = e.depth + 1) (hp : ∀ p ∈ parts, Fits p) :
      Fits (.node e parts)

mutual
/-- **Each step behind those that were run for it**, one part after the other. -/
def postorder : Trace → List Ending
  | .node ending parts => postorders parts ++ [ending]

/-- Each step behind those that were run for it, for traces one after the other. -/
def postorders : List Trace → List Ending
  | [] => []
  | p :: ps => postorder p ++ postorders ps
end

/-- **An order in which the ends of steps may be told**: each step behind those that were run for
it, and these one after the other, unless they were run side by side. -/
inductive Told : Trace → List Ending → Prop where
  | inTurn {e parts tolds} (hs : e.step.isParallel = false) (h : List.Forall₂ Told parts tolds) :
      Told (.node e parts) (tolds.flatten ++ [e])
  | sideBySide {e parts tolds told} (hs : e.step.isParallel = true)
      (h : List.Forall₂ Told parts tolds) (hi : Interleaves tolds told) :
      Told (.node e parts) (told ++ [e])

@[simp] theorem postorders_append (l m : List Trace) :
    postorders (l ++ m) = postorders l ++ postorders m := by
  induction l with
  | nil => simp [postorders]
  | cons p l ih => simp [postorders, ih]

@[simp] theorem postorders_nil : postorders [] = [] := by
  rw [postorders]

theorem postorders_singleton (p : Trace) : postorders [p] = postorder p := by
  simp [postorders]

end Trace

/-- Lists that are put together lose nothing. -/
theorem Interleaves.perm {α : Type} {ls : List (List α)} {m : List α} (h : Interleaves ls m) :
    m.Perm ls.flatten := by
  induction h with
  | nil h => rw [List.flatten_eq_nil_iff.mpr h]
  | @cons ls ls' x l m _ ih =>
    rw [List.flatten_append, List.flatten_cons, List.cons_append] at *
    exact (ih.cons x).trans List.perm_middle.symm

namespace Trace

mutual
/-- **What is told is each step of a trace, once.** -/
theorem perm_postorder_of_told : ∀ (tr : Trace) {told : List Ending},
    tr.Told told → told.Perm tr.postorder
  | .node e parts, _, h => by
    rw [postorder]
    cases h with
    | inTurn _ h => exact (perm_postorders_of_told parts h).append_right _
    | sideBySide _ h hi => exact (hi.perm.trans (perm_postorders_of_told parts h)).append_right _

/-- The same of traces one after the other. -/
theorem perm_postorders_of_told : ∀ (parts : List Trace) {tolds : List (List Ending)},
    List.Forall₂ Told parts tolds → tolds.flatten.Perm (postorders parts)
  | [], _, h => by
    cases h
    rw [postorders_nil]
    exact .nil
  | p :: ps, _, h => by
    cases h with
    | cons hp hps =>
      rw [postorders, List.flatten_cons]
      exact (perm_postorder_of_told p hp).append (perm_postorders_of_told ps hps)
end

end Trace

/-! ### What is told of each of some steps -/

/-- What was told of the step at a place of a list. -/
def toldBy (told : List (Nat × Ending)) (index : Nat) : List Ending :=
  (told.filter fun x => x.1 = index).map Prod.snd

@[simp] theorem toldBy_nil (index : Nat) : toldBy [] index = [] := rfl

@[simp] theorem toldBy_append (l m : List (Nat × Ending)) (index : Nat) :
    toldBy (l ++ m) index = toldBy l index ++ toldBy m index := by
  simp [toldBy]

theorem toldBy_cons_self (index : Nat) (e : Ending) (told : List (Nat × Ending)) :
    toldBy ((index, e) :: told) index = e :: toldBy told index := by
  simp [toldBy]

theorem toldBy_cons_of_ne {index other : Nat} (h : other ≠ index) (e : Ending)
    (told : List (Nat × Ending)) : toldBy ((other, e) :: told) index = toldBy told index := by
  simp [toldBy, h]

theorem toldBy_eq_nil {told : List (Nat × Ending)} {index : Nat} (h : ∀ x ∈ told, x.1 ≠ index) :
    toldBy told index = [] := by
  rw [toldBy, List.filter_eq_nil_iff.mpr fun x hx => by simpa using h x hx, List.map_nil]

/-- **What was told of some steps is put together** from what was told of each of them. -/
theorem interleaves_toldBy {indices : List Nat} (hn : indices.Nodup) {told : List (Nat × Ending)}
    (h : ∀ x ∈ told, x.1 ∈ indices) :
    Interleaves (indices.map (toldBy told)) (told.map Prod.snd) := by
  -- Induction on what was told: the first of it is the first that was told of its own step.
  induction told with
  | nil => exact .nil (by simp)
  | cons x told ih =>
    obtain ⟨index, e⟩ := x
    obtain ⟨hindex, htold⟩ := List.forall_mem_cons.mp h
    obtain ⟨l, r, rfl⟩ := List.append_of_mem hindex
    obtain ⟨hl, hr⟩ : index ∉ l ∧ index ∉ r := by
      rw [List.nodup_append, List.nodup_cons] at hn
      exact ⟨fun hmem => hn.2.2 index hmem index (List.mem_cons_self ..) rfl, hn.2.1.1⟩
    have hothers {is : List Nat} (his : index ∉ is) :
        is.map (toldBy ((index, e) :: told)) = is.map (toldBy told) :=
      List.map_congr_left fun i hi => toldBy_cons_of_ne (by rintro rfl; exact his hi) e told
    have hrest := ih htold
    rw [List.map_append, List.map_cons] at hrest ⊢
    rw [hothers hl, hothers hr, toldBy_cons_self]
    exact .cons hrest

/-! ### Motions -/

/-- **What moves a task**: a thread moves by itself, at a moment that tells whether the run is
cancelled, or its simple step is answered. -/
inductive Motion where
  | moves (path : List Nat) (m : Moment)
  | answers (path : List Nat) (r : Except StepError Json)

namespace Task

/-- One motion of a task. -/
def step (env : Env) : Motion → Task → Option (Task × Effect)
  | .moves path m, t => advanceAt env m path t
  | .answers path r, t => (answerAt r path t).map (·, .silent)

/-- **A number of motions**, and the ends of steps that they tell of. Nothing is assumed of the
schedule, of the answers or of the moments, so that the run may be cancelled at any time. -/
def follow (env : Env) : List Motion → Task → Option (Task × List Ending)
  | [], t => some (t, [])
  | x :: xs, t => do
    let (t, e) ← step env x t
    let (t, es) ← follow env xs t
    return (t, e.ending?.toList ++ es)

theorem follow_cons_eq_some_iff {env : Env} {x : Motion} {xs : List Motion} {t t' : Task}
    {es : List Ending} :
    follow env (x :: xs) t = some (t', es) ↔
      ∃ u e es', step env x t = some (u, e) ∧ follow env xs u = some (t', es') ∧
        es = e.ending?.toList ++ es' := by
  simp only [follow, Option.bind_eq_bind, Option.bind_eq_some_iff, Prod.exists, Option.pure_def,
    Option.some.injEq, Prod.mk.injEq]
  constructor
  · rintro ⟨u, e, hu, t'', es', ht, rfl, rfl⟩
    exact ⟨u, e, es', hu, ht, rfl⟩
  · rintro ⟨u, e, es', hu, ht, rfl⟩
    exact ⟨u, e, hu, t', es', ht, rfl, rfl⟩

/-- One more motion. -/
theorem follow_snoc {env : Env} {ys : List Motion} {x : Motion} {t u v : Task} {es : List Ending}
    {e : Effect} (ht : follow env ys t = some (u, es)) (h : step env x u = some (v, e)) :
    follow env (ys ++ [x]) t = some (v, es ++ e.ending?.toList) := by
  induction ys generalizing t es with
  | nil =>
    cases ht
    exact follow_cons_eq_some_iff.mpr ⟨v, e, [], h, rfl, by simp⟩
  | cons y ys ih =>
    obtain ⟨w, e', es', hw, hrest, rfl⟩ := follow_cons_eq_some_iff.mp ht
    refine follow_cons_eq_some_iff.mpr ⟨w, e', _, hw, ih hrest, ?_⟩
    rw [List.append_assoc]

end Task

end WorkflowEngine
