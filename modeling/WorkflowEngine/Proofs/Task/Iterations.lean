import WorkflowEngine.Proofs.Task.Above
import WorkflowEngine.Proofs.Task.Price

/-!
# Iterations of loops

A loop tells in which iteration it has ended and why. What it tells is compared with what can be
seen of its run: the iterations that it has begun, what the steps of its body have told it in each
of them, and in which context the body was through. The bound of the loop is a number here, less
than the greatest count; one that is an expression may change from one iteration to the next.

## Main definitions

* `Iteration`, `Task.iterations`: the iterations of a loop, as they are seen in its run
* `LoopExit.Tells`: what the exit of a loop says of its iterations
* `Task.Ends`: the ways in which a loop ends
* `Task.Watched`: what is known of a loop in the course of its run

## Main results

* `Task.Watched.step`, `Task.Watched.follow`: what is known of a loop stays so
* `Task.loop_tells`: a loop comes to its end, and tells the truth of its iterations
-/

namespace WorkflowEngine

/-- **An iteration of a loop**: the context in which it began, the outcomes of the steps of the body
in it, in order, and the context in which the body was through, if it came to that. -/
structure Iteration where
  begun : Context
  outcomes : List Outcome
  through? : Option Context

namespace Iteration

/-- A step of the body has an outcome. -/
def returns (i : Iteration) (o : Outcome) : Iteration := { i with outcomes := i.outcomes ++ [o] }

/-- The body is through. -/
def ends (i : Iteration) (c : Context) : Iteration := { i with through? := some c }

/-- A step of the body has failed. The loop is not told of failures that do not count for the step
itself. -/
def HasFailure (i : Iteration) : Prop := ∃ e, .error e ∈ i.outcomes

end Iteration

/-- Whether a loop breaks off after an iteration. -/
def LoopRule.breaksOff (rule : LoopRule) (env : Env) (id : String) (c : Context) :
    Except StepError Bool :=
  match rule.breakOn with
  | none => .ok false
  | some template => env.condition id template c

/-- Whether the condition of a loop holds. -/
def LoopRule.holds (rule : LoopRule) (env : Env) (id : String) (c : Context) :
    Except StepError Bool :=
  env.condition id (rule.condition.getD "false") c

theorem Task.breaksOff_eq (env : Env) (c : Context) (f : LoopFrame) :
    breaksOff env c f = f.rule.breaksOff env f.head.id c := rfl

/-- The run is cancelled at the moment of a motion. -/
def Motion.IsCancelled : Motion → Prop
  | .moves _ m => m.cancelled = true
  | .answers .. => False

namespace Task

/-! ### Iterations in a run -/

/-- The loop that a task runs by itself, between the steps of the body. -/
def loopFrame? : Task → Option LoopFrame
  | .mk _ _ [.loop f, .finish ..] => some f
  | _ => none

/-- What one motion of a loop adds to its iterations; the latest comes first. -/
def note (t t' : Task) (is : List Iteration) : List Iteration :=
  match t.control, t.loopFrame?, t'.control with
  | .iterate, some _, .proceed => ⟨t'.context, [], none⟩ :: is
  | .settled o, some _, _ => is.modifyHead (·.returns o)
  | .proceed, some f, _ => if f.rest.isEmpty then is.modifyHead (·.ends t.context) else is
  | _, _, _ => is

/-- **The iterations that a loop has begun** in a number of motions; the latest comes first. -/
def iterations (env : Env) : List Motion → Task → List Iteration → List Iteration
  | [], _, is => is
  | x :: xs, t, is =>
    match step env x t with
    | some (t', _) => iterations env xs t' (note t t' is)
    | none => is

/-- The context after some iterations. -/
def contextAfter (c₀ : Context) : List Iteration → Context
  | [] => c₀
  | i :: _ => i.through?.getD c₀

end Task

/-- **What the exit of a loop says of its iterations**, if it begins in a context and has a bound.
The latest iteration comes first. -/
def LoopExit.Tells (env : Env) (head : Head) (rule : LoopRule) (c₀ : Context) (n : Nat)
    (is : List Iteration) : LoopExit → Prop
  | .countReached => rule.effectiveType = .count ∧ is.length = n
  | .maxIterations =>
    is.length = n ∧ (rule.effectiveType = .count → n = 0) ∧
      (rule.effectiveType = .retry → ∀ i ∈ is, i.HasFailure)
  | .conditionFalse =>
    rule.effectiveType = .whileTrue ∧ is.length < n ∧
      rule.holds env head.id ((Task.contextAfter c₀ is).enterLoop head.id (is.length + 1)) =
        .ok false
  | .breakOn =>
    ∃ last earlier c, is = last :: earlier ∧ last.through? = some c ∧
      rule.breaksOff env head.id c = .ok true ∧
      ∀ i ∈ earlier, ∃ c, i.through? = some c ∧ rule.breaksOff env head.id c = .ok false
  | .errorBreak =>
    rule.onError = .leave ∧ ∃ last earlier outcomes e, is = last :: earlier ∧
      last.outcomes = outcomes ++ [.error e] ∧ (∀ e, .error e ∉ outcomes) ∧
      ∀ i ∈ earlier, ¬ i.HasFailure
  | .succeeded =>
    rule.effectiveType = .retry ∧ ∃ last earlier, is = last :: earlier ∧ ¬ last.HasFailure ∧
      ∀ i ∈ earlier, i.HasFailure

/-! ### Iterations after which a loop goes on -/

/-- **An iteration in which a loop goes on**: it began under the condition of the loop, and no
failure in it has ended the loop. -/
structure Iteration.IsOpen (env : Env) (head : Head) (rule : LoopRule) (i : Iteration) : Prop where
  holds : rule.effectiveType = .whileTrue → rule.holds env head.id i.begun = .ok true
  tolerates : ∀ e, .error e ∈ i.outcomes → rule.onError = .proceed

/-- **An iteration after which a loop goes on**: the body is through, the loop does not break off
and, if it is to be repeated until nothing fails, a step has failed. -/
structure Iteration.GoesOn (env : Env) (head : Head) (rule : LoopRule) (i : Iteration) : Prop
    extends i.IsOpen env head rule where
  through : ∃ c, i.through? = some c ∧ rule.breaksOff env head.id c = .ok false
  retries : rule.effectiveType = .retry → i.HasFailure

namespace Iteration

variable {env : Env} {head : Head} {rule : LoopRule} {i : Iteration}

theorem hasFailure_returns_ok (v : StepOutput) : (i.returns (.ok v)).HasFailure ↔ i.HasFailure := by
  simp [HasFailure, returns]

theorem hasFailure_returns_error (e : StepError) : (i.returns (.error e)).HasFailure :=
  ⟨e, List.mem_append_right _ (List.mem_singleton_self _)⟩

theorem IsOpen.not_hasFailure (h : i.IsOpen env head rule) (hrule : rule.onError ≠ .proceed) :
    ¬ i.HasFailure :=
  fun ⟨e, he⟩ => hrule (h.tolerates e he)

theorem IsOpen.ends (h : i.IsOpen env head rule) (c : Context) : (i.ends c).IsOpen env head rule :=
  ⟨h.holds, h.tolerates⟩

theorem IsOpen.returns (h : i.IsOpen env head rule) {o : Outcome}
    (ho : ∀ e, o = .error e → rule.onError = .proceed) : (i.returns o).IsOpen env head rule := by
  refine ⟨h.holds, fun e he => ?_⟩
  rcases List.mem_append.mp he with he | he
  · exact h.tolerates e he
  · exact ho e (List.mem_singleton.mp he).symm

end Iteration

namespace Task

variable {env : Env} {head : Head} {rule : LoopRule} {body : List Step} {c₀ : Context} {d n : Nat}

/-! ### Ways to end -/

/-- **The ways in which a loop ends** after some motions: before an iteration, within one, or after
one. -/
inductive Ends (env : Env) (head : Head) (rule : LoopRule) (c₀ : Context) (n : Nat)
    (xs : List Motion) : List Iteration → Outcome → Prop where
  | stopped {is} (hx : ∃ x ∈ xs, x.IsCancelled) (hgo : ∀ i ∈ is, i.GoesOn env head rule) :
      Ends env head rule c₀ n xs is (.error .cancelled)
  | maxIterations {is} (hgo : ∀ i ∈ is, i.GoesOn env head rule) (hlen : is.length = n)
      (hcount : rule.effectiveType = .count → n = 0) :
      Ends env head rule c₀ n xs is (.ok (.loop is.length .maxIterations))
  | undecided {is e} (hgo : ∀ i ∈ is, i.GoesOn env head rule)
      (htype : rule.effectiveType = .whileTrue) :
      Ends env head rule c₀ n xs is (.error e)
  | conditionFalse {is} (hgo : ∀ i ∈ is, i.GoesOn env head rule) (hlen : is.length < n)
      (htype : rule.effectiveType = .whileTrue)
      (hholds : rule.holds env head.id ((contextAfter c₀ is).enterLoop head.id (is.length + 1)) =
        .ok false) :
      Ends env head rule c₀ n xs is (.ok (.loop is.length .conditionFalse))
  /-- The run is cancelled between two steps of the body. -/
  | broken {i : Iteration} {is} (hx : ∃ x ∈ xs, x.IsCancelled)
      (hopen : i.IsOpen env head rule) (hgo : ∀ i ∈ is, i.GoesOn env head rule) :
      Ends env head rule c₀ n xs (i :: is) (.error .cancelled)
  | failed {i : Iteration} {is e} (hopen : i.IsOpen env head rule)
      (hgo : ∀ i ∈ is, i.GoesOn env head rule) :
      Ends env head rule c₀ n xs (i.returns (.error e) :: is) (.error e)
  | errorBreak {i : Iteration} {is e} (hrule : rule.onError = .leave)
      (hopen : i.IsOpen env head rule) (hgo : ∀ i ∈ is, i.GoesOn env head rule) :
      Ends env head rule c₀ n xs (i.returns (.error e) :: is)
        (.ok (.loop (is.length + 1) .errorBreak))
  | undecidedBreak {i : Iteration} {is c e} (hopen : i.IsOpen env head rule)
      (hgo : ∀ i ∈ is, i.GoesOn env head rule) (hbreak : rule.breaksOff env head.id c = .error e) :
      Ends env head rule c₀ n xs (i.ends c :: is) (.error e)
  | breakOn {i : Iteration} {is c} (hopen : i.IsOpen env head rule)
      (hgo : ∀ i ∈ is, i.GoesOn env head rule) (hbreak : rule.breaksOff env head.id c = .ok true) :
      Ends env head rule c₀ n xs (i.ends c :: is) (.ok (.loop (is.length + 1) .breakOn))
  | succeeded {i : Iteration} {is c} (hopen : i.IsOpen env head rule)
      (hgo : ∀ i ∈ is, i.GoesOn env head rule) (htype : rule.effectiveType = .retry)
      (hfail : ¬ i.HasFailure) :
      Ends env head rule c₀ n xs (i.ends c :: is) (.ok (.loop (is.length + 1) .succeeded))
  | countReached {i : Iteration} {is c} (hopen : i.IsOpen env head rule)
      (hgo : ∀ i ∈ is, i.GoesOn env head rule) (htype : rule.effectiveType = .count)
      (hlen : is.length + 1 = n) :
      Ends env head rule c₀ n xs (i.ends c :: is)
        (.ok (.loop (is.length + 1) .countReached))

namespace Ends

variable {xs : List Motion} {is : List Iteration} {o : Outcome}

/-- **A loop that does not fail tells the truth.** -/
theorem tells {v : StepOutput} (h : Ends env head rule c₀ n xs is (.ok v)) :
    ∃ exit, v = .loop is.length exit ∧ exit.Tells env head rule c₀ n is := by
  cases h with
  | maxIterations hgo hlen hcount =>
    exact ⟨_, rfl, hlen, hcount, fun htype i hi => (hgo i hi).retries htype⟩
  | conditionFalse hgo hlen htype hholds => exact ⟨_, rfl, htype, hlen, hholds⟩
  | @errorBreak i is e hrule hopen hgo =>
    have hne : rule.onError ≠ .proceed := by rw [hrule]; decide
    exact ⟨_, rfl, hrule, _, is, i.outcomes, e, rfl, rfl,
      fun e he => hopen.not_hasFailure hne ⟨e, he⟩, fun j hj => (hgo j hj).not_hasFailure hne⟩
  | @breakOn i is c hopen hgo hbreak =>
    exact ⟨_, rfl, _, is, c, rfl, rfl, hbreak, fun j hj => (hgo j hj).through⟩
  | @succeeded i is c hopen hgo htype hfail =>
    exact ⟨_, rfl, htype, _, is, rfl, hfail, fun j hj => (hgo j hj).retries htype⟩
  | countReached hopen hgo htype hlen => exact ⟨_, rfl, htype, hlen⟩

/-- The condition of a loop has held in each iteration. -/
theorem holds (h : Ends env head rule c₀ n xs is o) (htype : rule.effectiveType = .whileTrue) :
    ∀ i ∈ is, rule.holds env head.id i.begun = .ok true := by
  cases h with
  | stopped _ hgo | maxIterations hgo | undecided hgo | conditionFalse hgo =>
    exact fun i hi => (hgo i hi).holds htype
  | broken _ hopen hgo | failed hopen hgo | errorBreak _ hopen hgo | undecidedBreak hopen hgo
  | breakOn hopen hgo | succeeded hopen hgo | countReached hopen hgo =>
    exact List.forall_mem_cons.mpr ⟨hopen.holds htype, fun i hi => (hgo i hi).holds htype⟩

/-- **A loop that counts has all its iterations** if nothing ends it before. -/
theorem eq_count (h : Ends env head rule c₀ n xs is o) (htype : rule.effectiveType = .count)
    (hx : ∀ x ∈ xs, ¬ x.IsCancelled) (hfail : ∀ i ∈ is, ¬ i.HasFailure)
    (hbreak : ∀ i ∈ is, ∀ c ∈ i.through?, rule.breaksOff env head.id c = .ok false) :
    is.length = n ∧ ∃ exit, o = .ok (.loop n exit) := by
  cases h with
  | stopped h | broken h =>
    obtain ⟨x, hmem, hc⟩ := h
    exact absurd hc (hx x hmem)
  | maxIterations hgo hlen => exact ⟨hlen, _, by rw [hlen]⟩
  | undecided _ hwhile | conditionFalse _ _ hwhile => rw [htype] at hwhile; cases hwhile
  | failed | errorBreak =>
    exact absurd (Iteration.hasFailure_returns_error _) (hfail _ (List.mem_cons_self ..))
  | undecidedBreak _ _ h | breakOn _ _ h =>
    rw [hbreak _ (List.mem_cons_self ..) _ rfl] at h
    cases h
  | succeeded _ _ hretry => rw [htype] at hretry; cases hretry
  | countReached _ _ _ hlen => exact ⟨hlen, _, by rw [hlen]⟩

/-- **A loop that fails with the steps of its body** fails with the first of them that does. -/
theorem eq_error (h : Ends env head rule c₀ n xs is o) (hrule : rule.onError = .fail)
    {i : Iteration} {e : StepError} (hi : i ∈ is) (he : .error e ∈ i.outcomes) :
    o = .error e ∧ is.head? = some i ∧ i.outcomes.getLast? = some (.error e) := by
  have hne : rule.onError ≠ .proceed := by rw [hrule]; decide
  -- no failure is met by a loop that goes on
  have hopen {j : Iteration} (hj : j.IsOpen env head rule) (he : .error e ∈ j.outcomes) : False :=
    hj.not_hasFailure hne ⟨e, he⟩
  have hmem {j : Iteration} {is : List Iteration} (hj : j.IsOpen env head rule)
      (hgo : ∀ i ∈ is, i.GoesOn env head rule) (hi : i ∈ j :: is) : False := by
    rcases List.mem_cons.mp hi with rfl | hi
    · exact hopen hj he
    · exact hopen (hgo i hi).toIsOpen he
  cases h with
  | stopped _ hgo | maxIterations hgo | undecided hgo | conditionFalse hgo =>
    exact (hopen (hgo i hi).toIsOpen he).elim
  | broken _ hj hgo => exact (hmem hj hgo hi).elim
  | undecidedBreak hj hgo | breakOn hj hgo | succeeded hj hgo | countReached hj hgo =>
    exact (hmem (hj.ends _) hgo hi).elim
  | errorBreak h => rw [hrule] at h; cases h
  | failed hj hgo =>
    rcases List.mem_cons.mp hi with rfl | hi
    · -- the failure is the one that the loop ends with
      rcases List.mem_append.mp he with he | he
      · exact (hopen hj he).elim
      · cases List.mem_singleton.mp he
        exact ⟨rfl, rfl, List.getLast?_concat⟩
    · exact (hopen (hgo i hi).toIsOpen he).elim

end Ends

/-! ### The run of a loop -/

/-- The frames of a loop that is run by itself, in an iteration. -/
def loopFrames (head : Head) (rule : LoopRule) (body : List Step) (d k : Nat) (rest : List Step)
    (failed : Bool) : List Frame :=
  [.loop ⟨head, rule, body, d + 1, k, rest, failed⟩, .finish (.loop head rule body) d]

/-- **The steps of a body come to their end within a number of motions**, in whatever context they
begin, with whatever schedule and answers. -/
def StepsWithin (env : Env) (body : List Step) (d N : Nat) : Prop :=
  ∀ s ∈ body, ∀ c ys t es, follow env ys (start s c d) = some (t, es) → ys.length ≤ N

/-- **Steps whose loops have literal bounds come to their end** within their work. -/
theorem stepsWithin_of_literal (hdefault : env.defaultMaxIterations < Env.maxCount)
    (hbody : ∀ s ∈ body, s.All Step.IsLiteral) : StepsWithin env body d (Step.workList body) := by
  intro s hs c ys t es h
  rcases Counted.follow hdefault.le (hbody s hs).expressible (.start s c d) (.start s c d) h with
    hlen | ⟨_, u, us, f, -, hu, ⟨-, -, c', hmax⟩, path, c'', fs, hat⟩
  · have := Step.work_le_workList hs
    rw [work_start] at hlen
    omega
  · -- a loop whose counter overflows has the greatest count for a bound, in some context
    obtain ⟨l, hl⟩ := ((Placed.start s c d).follow hu).lineage_of_iterate hat
    have hliteral := ((hbody s hs).of_lineage hl).own
    cases hb : f.rule.bound with
    | none =>
      rw [Env.bound_of_literal (.inr ⟨hb, rfl⟩)] at hmax
      exact absurd (Except.ok.inj hmax) hdefault.ne
    | some b =>
      obtain ⟨k, rfl, hk⟩ := hliteral b hb
      rw [Env.bound_of_literal (.inl hb)] at hmax
      exact absurd (Except.ok.inj hmax) hk.ne

/-- The motions of a loop after some iterations, if each step of the body makes no more than some:
an iteration begins, each of its steps begins and returns, and it ends. -/
def motionsAfter (body : List Step) (n k N : Nat) : Nat := (n - k) * (body.length * (N + 2) + 2)

theorem motionsAfter_eq (body : List Step) {k : Nat} (h : k < n) (N : Nat) :
    motionsAfter body n k N = body.length * (N + 2) + 2 + motionsAfter body n (k + 1) N := by
  have hsub : n - k = n - (k + 1) + 1 := by omega
  rw [motionsAfter, motionsAfter, hsub, Nat.add_mul, Nat.one_mul, Nat.add_comm]

/-- The motions so far and those that are left are no more than those of all iterations. -/
def Affordable (env : Env) (body : List Step) (d n : Nat) (xs : List Motion) (left : Nat → Nat) :
    Prop :=
  ∀ N, StepsWithin env body (d + 1) N →
    xs.length + left N ≤ motionsAfter body n 0 N + 3

theorem Affordable.snoc {xs : List Motion} {x : Motion} {left left' : Nat → Nat}
    (h : Affordable env body d n xs left)
    (hlt : ∀ N, StepsWithin env body (d + 1) N → left' N < left N) :
    Affordable env body d n (xs ++ [x]) left' := by
  intro N hN
  have := h N hN
  have := hlt N hN
  rw [List.length_append, List.length_singleton]
  omega

/-- **What is known of a loop within an iteration**, with what is left of the body. -/
structure Underway (env : Env) (head : Head) (rule : LoopRule) (body : List Step) (n : Nat)
    (rest : List Step) (failed : Bool) (i : Iteration) (is : List Iteration) : Prop where
  isOpen : i.IsOpen env head rule
  earlier : ∀ i ∈ is, i.GoesOn env head rule
  length_lt : is.length < n
  failed_iff : failed = true ↔ i.HasFailure
  rest_suffix : rest <:+ body

/-- **What is known of a loop in the course of its run**: what it does next, the motions so far and
its iterations. -/
inductive Watched (env : Env) (head : Head) (rule : LoopRule) (body : List Step) (c₀ : Context)
    (d n : Nat) : List Motion → Task → List Iteration → Prop where
  | enters : Watched env head rule body c₀ d n [] (start (.loop head rule body) c₀ d) []
  | between {xs is rest failed} (hgo : ∀ i ∈ is, i.GoesOn env head rule) (hlen : is.length ≤ n)
      (hcount : rule.effectiveType = .count → is.length = n → n = 0)
      (hleft : Affordable env body d n xs fun N => motionsAfter body n is.length N + 2) :
      Watched env head rule body c₀ d n xs
        (.mk (contextAfter c₀ is) .iterate (loopFrames head rule body d is.length rest failed)) is
  | within {xs c rest failed i is} (hi : Underway env head rule body n rest failed i is)
      (hleft : Affordable env body d n xs fun N =>
        motionsAfter body n (is.length + 1) N + rest.length * (N + 2) + 3) :
      Watched env head rule body c₀ d n xs
        (.mk c .proceed (loopFrames head rule body d (is.length + 1) rest failed)) (i :: is)
  | running {xs rest failed i is s c ys t es} (hi : Underway env head rule body n rest failed i is)
      (hs : s ∈ body) (ht : follow env ys (start s c (d + 1)) = some (t, es))
      (ho : t.outcome? = none)
      (hleft : Affordable env body d n xs fun N =>
        motionsAfter body n (is.length + 1) N + rest.length * (N + 2) +
          (N - ys.length) + 4) :
      Watched env head rule body c₀ d n xs
        (t.above (loopFrames head rule body d (is.length + 1) rest failed)) (i :: is)
  | returned {xs c o rest failed i is} (hi : Underway env head rule body n rest failed i is)
      (hleft : Affordable env body d n xs fun N =>
        motionsAfter body n (is.length + 1) N + rest.length * (N + 2) + 4) :
      Watched env head rule body c₀ d n xs
        (.mk c (.settled o) (loopFrames head rule body d (is.length + 1) rest failed)) (i :: is)
  | ended {xs c o is} (h : Ends env head rule c₀ n xs is o) (hlen : is.length ≤ n)
      (hleft : Affordable env body d n xs fun _ => 1) :
      Watched env head rule body c₀ d n xs
        (.mk c (.settled o) [.finish (.loop head rule body) d]) is
  | told {xs ys c o is} (h : Ends env head rule c₀ n ys is o) (hys : ys ⊆ xs) (hlen : is.length ≤ n)
      (hleft : Affordable env body d n xs fun _ => 0) :
      Watched env head rule body c₀ d n xs (.mk c (.settled o) []) is

/-- A task that waits neither for workers nor for an answer moves by itself. -/
theorem exists_advance_of_step {x : Motion} {t t' : Task} {e : Effect}
    (h : step env x t = some (t', e)) (hjoining : ∀ b, t.control ≠ .joining b)
    (hcalling : ∀ head leaf d, t.control ≠ .calling head leaf d) :
    ∃ path m, x = .moves path m ∧ t.advance env m = some (t', e) := by
  cases x with
  | moves path m => exact ⟨path, m, rfl, (advanceAt_eq_some_iff.mp h).advance_eq hjoining⟩
  | answers path r =>
    obtain ⟨u, hu, -⟩ := Option.map_eq_some_iff.mp h
    cases answerAt_eq_some_iff.mp hu with
    | here => exact absurd rfl (hcalling _ _ _)
    | inner => exact absurd rfl (hjoining _)

namespace Watched

variable {xs : List Motion} {path : List Nat} {m : Moment} {is : List Iteration} {i : Iteration}
  {c : Context} {rest : List Step} {failed : Bool}

/-- The run is cancelled at the last of some motions. -/
theorem exists_isCancelled (hm : m.cancelled = true) :
    ∃ x ∈ xs ++ [.moves path m], x.IsCancelled :=
  ⟨_, List.mem_append_right _ (List.mem_singleton_self _), hm⟩

/-- The loop begins. -/
theorem enter :
    Watched env head rule body c₀ d n ([] ++ [.moves path m])
      (Task.enter env m c₀ (.loop head rule body) d []).1 [] := by
  have hleft : Affordable env body d n [] fun N => motionsAfter body n 0 N + 3 :=
    fun N _ => (Nat.zero_add _).le
  have hgo : ∀ i ∈ ([] : List Iteration), i.GoesOn env head rule := List.forall_mem_nil _
  cases hm : m.cancelled with
  | true =>
    simp only [Task.enter, hm, if_true]
    exact .ended (.stopped (exists_isCancelled hm) hgo) (Nat.zero_le _)
      (hleft.snoc fun N _ => by omega)
  | false =>
    simp only [Task.enter, hm, Bool.false_eq_true, if_false]
    exact .between hgo (Nat.zero_le _) (fun _ h => h.symm)
      (hleft.snoc fun N _ => Nat.lt_succ_self _)

section

variable (hbound : ∀ c, env.bound head.id rule c = .ok n)

include hbound

/-- The loop ends before an iteration, or begins it. -/
theorem iterate (hn : n < Env.maxCount) (hgo : ∀ i ∈ is, i.GoesOn env head rule)
    (hlen : is.length ≤ n) (hcount : rule.effectiveType = .count → is.length = n → n = 0)
    (hleft : Affordable env body d n xs fun N => motionsAfter body n is.length N + 2)
    {t' : Task} {e : Effect}
    (h : (Task.mk (contextAfter c₀ is) .iterate
      (loopFrames head rule body d is.length rest failed)).advance env m = some (t', e)) :
    Watched env head rule body c₀ d n (xs ++ [.moves path m]) t'
      (note (.mk (contextAfter c₀ is) .iterate
        (loopFrames head rule body d is.length rest failed)) t' is) := by
  obtain rfl : Task.iterate env m _ _ _ = t' := congrArg Prod.fst (Option.some.inj h)
  -- the counter has room for the next iteration, since the bound is below the greatest count
  have hnext := nextIteration_eq (hlen.trans_lt hn)
  have hend : Affordable env body d n (xs ++ [.moves path m]) fun _ => 1 :=
    hleft.snoc fun N _ => by omega
  cases hm : m.cancelled with
  | true =>
    simp only [Task.iterate, hm, if_true]
    exact .ended (.stopped (exists_isCancelled hm) hgo) hlen hend
  | false =>
    by_cases hlt : n < is.length + 1
    · -- there has been the last iteration
      have he : is.length = n := by omega
      simp only [Task.iterate, hm, Bool.false_eq_true, if_false, hbound, hnext, hlt, if_true]
      exact .ended (.maxIterations hgo he fun htype => hcount htype he) hlen hend
    · have hlt' : is.length < n := by omega
      -- the iteration begins if the type of the loop lets it
      have hbegins (hholds : rule.effectiveType = .whileTrue → rule.holds env head.id
          ((contextAfter c₀ is).enterLoop head.id (is.length + 1)) = .ok true) :
          Watched env head rule body c₀ d n (xs ++ [.moves path m])
            (.mk ((contextAfter c₀ is).enterLoop head.id (is.length + 1)) .proceed
              (loopFrames head rule body d (is.length + 1) body false))
            (⟨(contextAfter c₀ is).enterLoop head.id (is.length + 1), [], none⟩ :: is) := by
        have hnone (e : StepError) : .error e ∉ ([] : List Outcome) := List.not_mem_nil
        refine .within ⟨⟨hholds, fun e he => absurd he (hnone e)⟩, hgo, hlt', ?_, List.suffix_rfl⟩
          (hleft.snoc fun N _ => ?_)
        · simp [Iteration.HasFailure]
        · have := motionsAfter_eq body hlt' N
          omega
      simp only [Task.iterate, hm, Bool.false_eq_true, if_false, hbound, hnext, hlt]
      split
      next htype =>
        cases hholds : rule.holds env head.id
          ((contextAfter c₀ is).enterLoop head.id (is.length + 1)) with
        | error e =>
          rw [LoopRule.holds] at hholds
          simp only [hholds]
          exact .ended (.undecided hgo htype) hlen hend
        | ok b =>
          rw [LoopRule.holds] at hholds
          simp only [hholds]
          cases b with
          | true => exact hbegins fun _ => hholds
          | false => exact .ended (.conditionFalse hgo hlt' htype hholds) hlen hend
      next htype => exact hbegins fun h => absurd h htype

/-- The loop ends after an iteration, or goes on. -/
theorem afterBody (hi : Underway env head rule body n [] failed i is)
    (hleft : Affordable env body d n xs fun N => motionsAfter body n (is.length + 1) N + 3) :
    Watched env head rule body c₀ d n (xs ++ [.moves path m])
      (Task.afterBody env c ⟨head, rule, body, d + 1, is.length + 1, [], failed⟩
        [.finish (.loop head rule body) d]) (i.ends c :: is) := by
  have hlen : (i.ends c :: is).length ≤ n := hi.length_lt
  have hend : Affordable env body d n (xs ++ [.moves path m]) fun _ => 1 :=
    hleft.snoc fun N _ => by omega
  -- what is needed for another iteration
  have hagain (hbreak : rule.breaksOff env head.id c = .ok false)
      (hretry : rule.effectiveType = .retry → i.HasFailure)
      (hcount : rule.effectiveType = .count → is.length + 1 < n) :
      Watched env head rule body c₀ d n (xs ++ [.moves path m])
        (.mk c .iterate (loopFrames head rule body d (is.length + 1) [] failed))
        (i.ends c :: is) := by
    have hlast : (i.ends c).GoesOn env head rule := ⟨hi.isOpen.ends c, ⟨c, rfl, hbreak⟩, hretry⟩
    exact .between (List.forall_mem_cons.mpr ⟨hlast, hi.earlier⟩) hlen
      (fun htype he => absurd he (hcount htype).ne) (hleft.snoc fun N _ => Nat.lt_succ_self _)
  unfold Task.afterBody
  simp only [breaksOff_eq]
  cases hbreak : rule.breaksOff env head.id c with
  | error e => exact .ended (.undecidedBreak hi.isOpen hi.earlier hbreak) hlen hend
  | ok b =>
    cases b with
    | true => exact .ended (.breakOn hi.isOpen hi.earlier hbreak) hlen hend
    | false =>
      cases htype : rule.effectiveType with
      | whileTrue => exact hagain hbreak (by simp [htype]) (by simp [htype])
      | retry =>
        -- the flag of the loop tells whether a step has failed
        cases failed with
        | true => exact hagain hbreak (fun _ => hi.failed_iff.mp rfl) (by simp [htype])
        | false =>
          have hfail : ¬ i.HasFailure := fun h => Bool.false_ne_true (hi.failed_iff.mpr h)
          exact .ended (.succeeded hi.isOpen hi.earlier htype hfail) hlen hend
      | count =>
        simp only [hbound]
        -- the bound is asked for once more
        split
        next hle =>
          have he : is.length + 1 = n := by have := hi.length_lt; omega
          exact .ended (.countReached hi.isOpen hi.earlier htype he) hlen hend
        next hlt => exact hagain hbreak (by simp [htype]) fun _ => by omega

/-- The body goes on. -/
theorem proceed (hi : Underway env head rule body n rest failed i is)
    (hleft : Affordable env body d n xs fun N =>
      motionsAfter body n (is.length + 1) N + rest.length * (N + 2) + 3)
    {t' : Task} {e : Effect}
    (h : (Task.mk c .proceed
      (loopFrames head rule body d (is.length + 1) rest failed)).advance env m = some (t', e)) :
    Watched env head rule body c₀ d n (xs ++ [.moves path m]) t'
      (note (.mk c .proceed (loopFrames head rule body d (is.length + 1) rest failed)) t'
        (i :: is)) := by
  obtain rfl : Task.proceedLoop env m _ _ _ = t' := congrArg Prod.fst (Option.some.inj h)
  cases rest with
  | nil => exact afterBody hbound hi (by simpa using hleft)
  | cons s rest =>
    cases hm : m.cancelled with
    | true =>
      simp only [Task.proceedLoop, hm, if_true]
      exact .ended (.broken (exists_isCancelled hm) hi.isOpen hi.earlier) hi.length_lt
        (hleft.snoc fun N _ => by omega)
    | false =>
      simp only [Task.proceedLoop, hm, Bool.false_eq_true, if_false]
      have hstart : Task.follow env [] (start s c (d + 1)) = some (start s c (d + 1), []) := rfl
      refine .running { hi with rest_suffix := ?_ } ?_ hstart rfl (hleft.snoc fun N _ => ?_)
      · exact (List.suffix_cons s rest).trans hi.rest_suffix
      · exact hi.rest_suffix.mem (List.mem_cons_self ..)
      · rw [List.length_cons, Nat.add_mul, List.length_nil]
        omega

end

/-- A step of the body returns to the loop. -/
theorem returns {o : Outcome} (hi : Underway env head rule body n rest failed i is)
    (hleft : Affordable env body d n xs fun N =>
      motionsAfter body n (is.length + 1) N + rest.length * (N + 2) + 4) :
    Watched env head rule body c₀ d n (xs ++ [.moves path m])
      (returnToLoop c ⟨head, rule, body, d + 1, is.length + 1, rest, failed⟩ o
        [.finish (.loop head rule body) d]) (i.returns o :: is) := by
  have hlen : (i.returns o :: is).length ≤ n := hi.length_lt
  have hend : Affordable env body d n (xs ++ [.moves path m]) fun _ => 1 :=
    hleft.snoc fun N _ => by omega
  have hwithin : Affordable env body d n (xs ++ [.moves path m]) fun N =>
      motionsAfter body n (is.length + 1) N + rest.length * (N + 2) + 3 :=
    hleft.snoc fun N _ => Nat.lt_succ_self _
  -- What the loop does with a failure is its rule; a cancelled step ends it whatever that says.
  rcases returnToLoop_cases c ⟨head, rule, body, d + 1, is.length + 1, rest, failed⟩ o
    [.finish (.loop head rule body) d] with
    ⟨⟨v, rfl⟩, he⟩ | ⟨e, rfl, he⟩ | ⟨e, rfl, -, hrule, he⟩ | ⟨e, rfl, -, hrule, he⟩ <;> rw [he]
  · refine .within { hi with isOpen := hi.isOpen.returns nofun, failed_iff := ?_ } hwithin
    exact hi.failed_iff.trans (i.hasFailure_returns_ok v).symm
  · exact .ended (.failed hi.isOpen hi.earlier) hlen hend
  · have hopen := hi.isOpen.returns (o := .error e) fun _ _ => hrule
    refine .within { hi with isOpen := hopen, failed_iff := ?_ } hwithin
    exact iff_of_true rfl (i.hasFailure_returns_error e)
  · exact .ended (.errorBreak hrule hi.isOpen hi.earlier) hlen hend

end Watched

/-- While a step of the body is run, no iteration changes. -/
theorem note_above {s : Step} {d₀ k : Nat} {t t' : Task} {rest : List Step} {failed : Bool}
    {is : List Iteration} (ht : Placed s d₀ t) (ho : t.outcome? = none) :
    note (t.above (loopFrames head rule body d k rest failed)) t' is = is := by
  -- the loop is not on top: there are frames of the step, or the step begins
  cases ht with
  | enter | calling | joining | branch | ended => rfl
  | @loop _ _ _ _ _ _ fs | @iterate _ _ _ _ _ _ fs => cases fs <;> rfl
  | returned hs =>
    cases hs with
    | root => cases ho
    | branch => rfl
    | @loop _ _ _ _ fs => cases fs <;> rfl

/-- A step of the body goes on, or is over. -/
theorem Watched.runs {xs ys : List Motion} {x : Motion} {is : List Iteration} {i : Iteration}
    {c : Context} {s : Step} {t t' : Task} {es : List Ending} {e : Effect} {rest : List Step}
    {failed : Bool} (hi : Underway env head rule body n rest failed i is) (hs : s ∈ body)
    (ht : Task.follow env ys (start s c (d + 1)) = some (t, es)) (ho : t.outcome? = none)
    (hleft : Affordable env body d n xs fun N =>
      motionsAfter body n (is.length + 1) N + rest.length * (N + 2) + (N - ys.length) + 4)
    (h : Task.step env x (t.above (loopFrames head rule body d (is.length + 1) rest failed)) =
      some (t', e)) :
    Watched env head rule body c₀ d n (xs ++ [x]) t'
      (note (t.above (loopFrames head rule body d (is.length + 1) rest failed)) t' (i :: is)) := by
  have hplaced := (Placed.start s c (d + 1)).follow ht
  rw [note_above hplaced ho]
  rw [hplaced.step_above ho] at h
  obtain ⟨⟨u, e⟩, hu, he⟩ := Option.map_eq_some_iff.mp h
  cases he
  have hfollow := follow_snoc ht hu
  -- the motion is one of those that the step makes by itself
  cases hou : u.outcome? with
  | none =>
    refine .running hi hs hfollow hou (hleft.snoc fun N hN => ?_)
    have := hN s hs c _ _ _ hfollow
    rw [List.length_append, List.length_singleton] at this ⊢
    omega
  | some o =>
    simp only [above_of_outcome? hou]
    refine .returned hi (hleft.snoc fun N hN => ?_)
    have := hN s hs c _ _ _ hfollow
    rw [List.length_append, List.length_singleton] at this
    omega

/-- **One motion of a loop.** -/
theorem Watched.step (hn : n < Env.maxCount) (hbound : ∀ c, env.bound head.id rule c = .ok n)
    {xs : List Motion} {x : Motion} {t t' : Task} {is : List Iteration} {e : Effect}
    (hw : Watched env head rule body c₀ d n xs t is) (h : Task.step env x t = some (t', e)) :
    Watched env head rule body c₀ d n (xs ++ [x]) t' (note t t' is) := by
  -- By what the loop does next: only while a step of the body is run may other threads move.
  cases hw with
  | enters =>
    obtain ⟨path, m, rfl, ha⟩ := exists_advance_of_step h (by rintro _ ⟨⟩) (by rintro _ _ _ ⟨⟩)
    obtain rfl : (Task.enter env m c₀ _ d []).1 = t' := congrArg Prod.fst (Option.some.inj ha)
    exact .enter
  | between hgo hlen hcount hleft =>
    obtain ⟨path, m, rfl, ha⟩ := exists_advance_of_step h (by rintro _ ⟨⟩) (by rintro _ _ _ ⟨⟩)
    exact .iterate hbound hn hgo hlen hcount hleft ha
  | within hi hleft =>
    obtain ⟨path, m, rfl, ha⟩ := exists_advance_of_step h (by rintro _ ⟨⟩) (by rintro _ _ _ ⟨⟩)
    exact .proceed hbound hi hleft ha
  | running hi hs ht ho hleft => exact .runs hi hs ht ho hleft h
  | returned hi hleft =>
    obtain ⟨path, m, rfl, ha⟩ := exists_advance_of_step h (by rintro _ ⟨⟩) (by rintro _ _ _ ⟨⟩)
    obtain rfl : returnToLoop _ _ _ _ = t' := congrArg Prod.fst (Option.some.inj ha)
    exact .returns hi hleft
  | ended hends hlen hleft =>
    obtain ⟨path, m, rfl, ha⟩ := exists_advance_of_step h (by rintro _ ⟨⟩) (by rintro _ _ _ ⟨⟩)
    cases ha
    exact .told hends (List.subset_append_left _ _) hlen (hleft.snoc fun N _ => Nat.zero_lt_one)
  | told => exact absurd (outcome?_of_step h) nofun

/-- **A number of motions of a loop.** -/
theorem Watched.follow (hn : n < Env.maxCount) (hbound : ∀ c, env.bound head.id rule c = .ok n)
    {xs ys : List Motion} {t t' : Task} {is : List Iteration} {es : List Ending}
    (hw : Watched env head rule body c₀ d n xs t is) (h : Task.follow env ys t = some (t', es)) :
    Watched env head rule body c₀ d n (xs ++ ys) t' (iterations env ys t is) := by
  -- Induction on the motions that are to come; those so far go with what is known.
  induction ys generalizing xs t is es with
  | nil =>
    cases h
    rwa [List.append_nil]
  | cons y ys ih =>
    obtain ⟨u, e, es', hu, hrest, rfl⟩ := follow_cons_eq_some_iff.mp h
    rw [List.append_cons]
    simpa only [iterations, hu] using ih (hw.step hn hbound hu) hrest

namespace Watched

variable {xs : List Motion} {t : Task} {is : List Iteration}

/-- A loop begins no more iterations than its bound. -/
theorem length_le (hw : Watched env head rule body c₀ d n xs t is) : is.length ≤ n := by
  cases hw with
  | enters => exact Nat.zero_le _
  | within hi | running hi | returned hi => exact hi.length_lt
  | between _ hlen | ended _ hlen | told _ _ hlen => exact hlen

/-- A loop with a condition begins an iteration only where that holds. -/
theorem holds (hw : Watched env head rule body c₀ d n xs t is)
    (htype : rule.effectiveType = .whileTrue) :
    ∀ i ∈ is, rule.holds env head.id i.begun = .ok true := by
  cases hw with
  | enters => exact List.forall_mem_nil _
  | between hgo => exact fun i hi => (hgo i hi).holds htype
  | within hi | running hi | returned hi =>
    exact List.forall_mem_cons.mpr ⟨hi.isOpen.holds htype, fun i h => (hi.earlier i h).holds htype⟩
  | ended h | told h => exact h.holds htype

/-- A loop whose steps come to their end makes a limited number of motions. -/
theorem length_motions_le (hw : Watched env head rule body c₀ d n xs t is) {N : Nat}
    (hN : StepsWithin env body (d + 1) N) :
    xs.length ≤ n * (body.length * (N + 2) + 2) + 3 := by
  cases hw with
  | enters => exact Nat.zero_le _
  | between _ _ _ hleft | within _ hleft | running _ _ _ _ hleft | returned _ hleft
  | ended _ _ hleft | told _ _ _ hleft => exact (Nat.le_add_right ..).trans (hleft N hN)

/-- A loop that is over has ended in one of the ways. -/
theorem exists_ends (hw : Watched env head rule body c₀ d n xs t is) {o : Outcome}
    (ho : t.outcome? = some o) : ∃ ys, ys ⊆ xs ∧ Ends env head rule c₀ n ys is o := by
  cases hw with
  | @running _ _ _ _ _ _ _ _ t _ _ _ _ ho' =>
    -- the frames of the loop are below those of the step
    obtain ⟨c, control, fs⟩ := t
    cases control with
    | settled => cases fs <;> cases ho
    | _ => cases ho
  | told h hys =>
    cases ho
    exact ⟨_, hys, h⟩
  | _ => cases ho

end Watched

/-- **Loops tell the truth of their iterations.** Let a loop have a bound that is a number, its own
or that of all loops, less than the greatest count; and let it be run in any context, with whatever
schedule and answers. It does within other steps what it does by itself. It begins no more
iterations than its bound, and one with a condition begins them only where that holds. It makes a
limited number of motions if the steps of its body do, and as long as it is not over, a thread of it
can move at any moment or takes any answer. When it is over,

* an outcome that is no failure has the number of the iterations that were begun and an exit that
  tells the truth of them;
* a loop that counts has had all its iterations, unless a step of its body has failed, it was to
  break off, or the run was cancelled;
* a loop that fails with the steps of its body has failed with the first of them that did. -/
theorem loop_tells (hn : n < Env.maxCount)
    (hbound : rule.bound = some (.count n) ∨ rule.bound = none ∧ env.defaultMaxIterations = n)
    {xs : List Motion} {t : Task} {es : List Ending} {is : List Iteration}
    (h : follow env xs (start (.loop head rule body) c₀ d) = some (t, es))
    (his : iterations env xs (start (.loop head rule body) c₀ d) [] = is) :
    (∀ base, follow env xs ((start (.loop head rule body) c₀ d).above base) =
      some (t.above base, es)) ∧
    is.length ≤ n ∧
    (rule.effectiveType = .whileTrue → ∀ i ∈ is, rule.holds env head.id i.begun = .ok true) ∧
    (∀ N, StepsWithin env body (d + 1) N →
      xs.length ≤ n * (body.length * (N + 2) + 2) + 3) ∧
    (t.outcome? = none → ∃ path, (∀ m, (step env (.moves path m) t).isSome = true) ∨
      ∀ r, (step env (.answers path r) t).isSome = true) ∧
    ∀ o, t.outcome? = some o →
      (∀ v, o = .ok v →
        ∃ exit, v = .loop is.length exit ∧ exit.Tells env head rule c₀ n is) ∧
      (rule.effectiveType = .count → (∀ i ∈ is, ¬ i.HasFailure) →
        (∀ i ∈ is, ∀ c ∈ i.through?, rule.breaksOff env head.id c = .ok false) →
        (∀ x ∈ xs, ¬ x.IsCancelled) → is.length = n ∧ ∃ exit, o = .ok (.loop n exit)) ∧
      (rule.onError = .fail → ∀ i ∈ is, ∀ e, .error e ∈ i.outcomes →
        o = .error e ∧ is.head? = some i ∧ i.outcomes.getLast? = some (.error e)) := by
  have hplaced := Placed.start (.loop head rule body) c₀ d
  have hw : Watched env head rule body c₀ d n xs t is :=
    his ▸ Watched.follow hn (Env.bound_of_literal hbound head.id) .enters h
  refine ⟨fun base => hplaced.follow_above h, hw.length_le, fun htype => hw.holds htype,
    fun N hN => hw.length_motions_le hN, (hplaced.follow h).exists_motion env, fun o ho => ?_⟩
  obtain ⟨ys, hys, hends⟩ := hw.exists_ends ho
  refine ⟨?_, fun htype hfail hbreak hx => ?_, fun hrule i hi e he => hends.eq_error hrule hi he⟩
  · rintro v rfl
    exact hends.tells
  · exact hends.eq_count htype (fun x hmem => hx x (hys hmem)) hfail hbreak

/-- A loop that is repeated until its step does not fail: its first iteration has a failure, and its
second one has none. -/
theorem loop_tells_retriedOnce : ∃ t es is,
    follow ⟨fun _ _ => .ok .null, 1⟩ Motion.retriedOnce
        (start (.retrying 2) (.ofWorkItem .null) 0) = some (t, es) ∧
      iterations ⟨fun _ _ => .ok .null, 1⟩ Motion.retriedOnce
        (start (.retrying 2) (.ofWorkItem .null) 0) [] = is ∧
      t.outcome? = some (.ok (.loop 2 .succeeded)) ∧ is.length = 2 ∧
      (∃ last earlier, is = last :: earlier ∧ ¬ last.HasFailure ∧ ∀ i ∈ earlier, i.HasFailure) ∧
      Motion.retriedOnce.length ≤ 2 * (1 * (5 + 2) + 2) + 3 := by
  obtain ⟨t, es, h, ho⟩ : ∃ t es, follow ⟨fun _ _ => .ok .null, 1⟩ Motion.retriedOnce
      (start (.retrying 2) (.ofWorkItem .null) 0) = some (t, es) ∧
      t.outcome? = some (.ok (.loop 2 .succeeded)) := ⟨_, _, rfl, rfl⟩
  have hn : 2 < Env.maxCount := by decide
  have hdefault : 1 < Env.maxCount := by decide
  obtain ⟨-, -, -, hmotions, -, hover⟩ := loop_tells hn (.inl rfl) h rfl
  obtain ⟨exit, he, htells⟩ := (hover _ ho).1 _ rfl
  obtain ⟨hlen, rfl⟩ := StepOutput.loop.inj he
  refine ⟨t, es, _, h, rfl, ho, hlen.symm, htells.2, ?_⟩
  refine hmotions 5 (stepsWithin_of_literal hdefault ?_)
  exact List.forall_mem_singleton.mpr (.intro nofun fun x ⟨_, hx, _⟩ => nomatch hx)

end Task

end WorkflowEngine
