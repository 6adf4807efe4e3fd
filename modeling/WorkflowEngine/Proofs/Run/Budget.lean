import WorkflowEngine.Proofs.Run.Costs

/-!
# Runs do bounded work

A run whose loops have bounds that are no expressions does a bounded amount of work. What it costs
is known when it has found its workflow: the prices of its steps, and what is done between them.
Whatever happens then is paid for out of that, in whatever order threads move, and however they are
answered. As long as the run is not over, some thread of it can move, or waits for the executor or
for an approval.

## Main definitions

* `Happening.cost`: what is paid for what happens
* `Passage.IsPaid`, `System.IsPaid`: what may still happen is paid for by a sum

## Main results

* `Passage.IsPaid.step`, `System.IsPaid.step`: what happens is paid for
* `run_does_bounded_work`: how often a run moves and calls the executor
-/

namespace WorkflowEngine

/-- The executor is asked to do a simple step. -/
def Request.isCall : Request → Bool
  | .execute .. => true
  | _ => false

/-- Whoever decides on approvals is asked for one. -/
def Request.isApproval : Request → Bool
  | .awaitApproval .. => true
  | _ => false

namespace Happening

/-- A thread has called the executor, and waits for its response. -/
def isCall (x : Happening) : Bool := x.opens?.any Request.isCall

/-- What is paid for what happens. -/
def cost (τ : Tariff) (x : Happening) : Nat :=
  (if x.isOwn then τ.motion else 0) + (if x.isCall then τ.call else 0)

theorem sum_cost_motions (h : List Happening) : (h.map (cost .motions)).sum = h.countP isOwn := by
  induction h with
  | nil => rfl
  | cons x h ih =>
    rw [List.map_cons, List.sum_cons, ih, List.countP_cons, Nat.add_comm]
    cases hx : x.isOwn <;> simp [cost, Tariff.motions, hx]

theorem sum_cost_calls (h : List Happening) : (h.map (cost .calls)).sum = h.countP isCall := by
  induction h with
  | nil => rfl
  | cons x h ih =>
    rw [List.map_cons, List.sum_cons, ih, List.countP_cons, Nat.add_comm]
    cases hx : x.isCall <;> simp [cost, Tariff.calls, hx]

end Happening

variable {config : Config} {τ : Tariff}

/-! ### Simple steps -/

namespace Program

variable {α : Type}

/-- What was paid for what a program waits for when it began to: its call. -/
def opening (τ : Tariff) : Program α → Nat
  | .done _ => 0
  | .ask r _ => if r.isCall then τ.call else 0

theorem opening_add_motion_le (r : Request) (k : r.Reply → Program α) :
    (Program.ask r k).opening τ + τ.motion ≤ r.price config τ := by
  cases r <;> simp [opening, Request.isCall, Request.price, Nat.add_comm]

/-- What is left when what a program waits for has been paid for. -/
theorem Costs.exists_opening {p : Program α} {n : Nat} (h : p.Costs (Request.price config τ) n) :
    ∃ m, p.Costs (Request.price config τ) (p.opening τ + m) ∧ p.opening τ + m ≤ n := by
  cases p with
  | done => exact ⟨0, trivial, Nat.zero_le _⟩
  | ask r k =>
    have hle : (Program.ask r k).opening τ + τ.motion ≤ n := (opening_add_motion_le r k).trans h.1
    obtain ⟨m, rfl⟩ := Nat.exists_eq_add_of_le ((Nat.le_add_right _ _).trans hle)
    exact ⟨m, h, le_rfl⟩

/-- **A program goes on**, and what it waits for then is paid for out of what was left. -/
theorem Costs.next {r : Request} {k : r.Reply → Program α} {n : Nat}
    (h : (Program.ask r k).Costs (Request.price config τ) ((Program.ask r k).opening τ + n))
    (reply : r.Reply) :
    ∃ m, (k reply).Costs (Request.price config τ) ((k reply).opening τ + m) ∧
      τ.motion + (k reply).opening τ + m ≤ n := by
  obtain ⟨m, hm, hle⟩ := (h.2 reply).exists_opening
  have hprice : (Program.ask r k).opening τ + τ.motion ≤ r.price config τ :=
    opening_add_motion_le r k
  have hpaid := h.1
  exact ⟨m, hm, by omega⟩

end Program

namespace Passage

/-- A thread that goes on with a simple step calls the executor if that comes next. -/
theorem any_isCall_waitsFor? (st : Passage) (path : Path) (p : LeafProgram) :
    (if ((st.setLeaf path p).waitsFor? path).any Request.isCall then τ.call else 0) =
      p.opening τ := by
  unfold waitsFor?
  rw [leaf?_setLeaf, if_pos rfl]
  cases p with
  | done => rfl
  | ask r k =>
    cases r with
    | execute => rfl
    | _ =>
      dsimp only
      split <;> rfl

theorem cost_moved (st : Passage) (path : Path) (p : LeafProgram)
    (around : List WorkflowEngine.Step) (e : Effect) :
    Happening.cost τ (.moved path around e ((st.setLeaf path p).waitsFor? path)) =
      τ.motion + p.opening τ := by
  rw [← any_isCall_waitsFor? st path p]
  rfl

theorem cost_told (st : Passage) (path : Path) (p : LeafProgram) :
    Happening.cost τ (.told path ((st.setLeaf path p).waitsFor? path)) =
      τ.motion + p.opening τ := by
  rw [← any_isCall_waitsFor? st path p]
  rfl

/-! ### While a step is run -/

/-- What is left for each simple step that is being done pays for its program. -/
structure Covers (config : Config) (τ : Tariff) (left : Path → Option Nat) (st : Passage) :
    Prop where
  of_none : ∀ path, st.leaf? path = none → left path = none
  of_some : ∀ path p, st.leaf? path = some p →
    ∃ m, left path = some m ∧ p.Costs (Request.price config τ) (p.opening τ + m)

section

variable {left : Path → Option Nat} {st : Passage} {path : Path}

theorem Covers.setLeaf (h : Covers config τ left st) {p : LeafProgram} {m : Nat}
    (hp : p.Costs (Request.price config τ) (p.opening τ + m)) :
    Covers config τ (Function.update left path (some m)) (st.setLeaf path p) := by
  constructor
  · intro path' hl
    rw [leaf?_setLeaf] at hl
    split at hl
    next => cases hl
    next hne => exact (Function.update_of_ne hne ..).trans (h.of_none path' hl)
  · intro path' p' hl
    rw [leaf?_setLeaf] at hl
    split at hl
    next he =>
      subst he
      cases hl
      exact ⟨m, Function.update_self .., hp⟩
    next hne =>
      rw [Function.update_of_ne hne]
      exact h.of_some path' p' hl

/-- A simple step that is done is no longer paid for. -/
theorem Covers.others (h : Covers config τ left st) (t : Task) :
    Covers config τ (Function.update left path none)
      { st with task := t, leaves := st.others path } := by
  constructor
  · intro path' hl
    have hl := (lookup_others st path path').symm.trans hl
    split at hl
    next he => exact he ▸ Function.update_self ..
    next hne => exact (Function.update_of_ne hne ..).trans (h.of_none path' hl)
  · intro path' p' hl
    have hl := (lookup_others st path path').symm.trans hl
    split at hl
    next => cases hl
    next hne =>
      rw [Function.update_of_ne hne]
      exact h.of_some path' p' hl

/-- A simple step that begins is paid for by its price. -/
theorem Covers.call (h : Covers config τ left st) (hl : st.leaf? path = none) {head : Head}
    {leaf : Leaf} {d : Nat} {c : Context} (hc : st.task.callAt? path = some (head, leaf, d, c))
    {p : LeafProgram} (hp : p.Costs (Request.price config τ) (head.price config τ)) :
    ∃ left', Covers config τ left' (st.setLeaf path p) ∧
      τ.motion + p.opening τ + st.task.ahead config τ left' ≤ st.task.ahead config τ left := by
  obtain ⟨m, hm, hle⟩ := hp.exists_opening
  have hahead := Task.ahead_update_of_callAt? config τ left hc (some m)
  rw [h.of_none path hl, Option.getD_none, Option.getD_some] at hahead
  exact ⟨_, h.setLeaf hm, by omega⟩

/-- A simple step that goes on is paid for by what is left for it. -/
theorem Covers.next (h : Covers config τ left st) (hst : st.Sound) {r : Request}
    {k : r.Reply → LeafProgram} (hl : st.leaf? path = some (.ask r k)) (reply : r.Reply) :
    ∃ left', Covers config τ left' (st.setLeaf path (k reply)) ∧
      τ.motion + (k reply).opening τ + st.task.ahead config τ left' ≤
        st.task.ahead config τ left := by
  obtain ⟨⟨head, leaf, d, c⟩, hc⟩ := Option.isSome_iff_exists.mp (hst path _ hl)
  obtain ⟨m, hm, hp⟩ := h.of_some path _ hl
  obtain ⟨m', hm', hle⟩ := hp.next reply
  have hahead := Task.ahead_update_of_callAt? config τ left hc (some m')
  rw [hm, Option.getD_some, Option.getD_some] at hahead
  exact ⟨_, h.setLeaf hm', by omega⟩

end

/-- **What may still happen while a step is run is paid for** by a sum. -/
structure IsPaid (engine : Expr.Engine) (config : Config) (τ : Tariff) (a : Assignment)
    (root : WorkflowEngine.Step) (st : Passage) (n : Nat) : Prop where
  placed : Task.Placed root 0 st.task
  sound : st.Sound
  asks : st.LeavesAsk a
  counted : Task.Counted (Setting.ofConfig engine config).env st.task
  ahead : ∃ left, Covers config τ left st ∧ st.task.ahead config τ left ≤ n

variable {engine : Expr.Engine} {id : Uuid} {rule : Execution → Execution → Prop} {a : Assignment}
  {root : WorkflowEngine.Step} {st st' : Passage} {x : Happening} {n : Nat}

theorem IsPaid.start (w : World) (s : WorkflowEngine.Step) (c : Context) :
    IsPaid engine config τ a s ⟨w, .start s c 0, []⟩ (s.price config τ) where
  placed := .start s c 0
  sound := .start w s c 0
  asks := by rintro path p ⟨⟩
  counted := .start s c 0
  ahead := ⟨fun _ => none, ⟨fun _ _ => rfl, nofun⟩, (Task.ahead_start s c 0).le⟩

/-- **What happens while a step is run is paid for.** -/
theorem IsPaid.step (hdefault : config.defaultMaxIterations < Env.maxCount)
    (hroot : root.All WorkflowEngine.Step.IsLiteral) (hst : IsPaid engine config τ a root st n)
    (h : Step (.ofRun engine config id rule) a st x st') :
    ∃ n', IsPaid engine config τ a root st' n' ∧ x.cost τ + n' ≤ n := by
  obtain ⟨left, hleft, hle⟩ := hst.ahead
  have hplaced := h.placed hst.placed
  have hsound := hst.sound.step h
  have hasks := hst.asks.step h
  cases h with
  | @advance path ms t e hl hm =>
    -- the only motion that needs loops to be within their limits
    have hcounted := hst.counted.moves hdefault.le hroot.expressible hst.placed hm
    have hlimits := Task.Counted.hasLimits rfl hdefault hroot hst.placed hst.counted
    have hpaid : t.ahead config τ left + τ.motion ≤ st.task.ahead config τ left :=
      hm.ahead_le hlimits (hleft.of_none path hl)
    have hcost : Happening.cost τ (.moved path (st.task.around path) e none) = τ.motion := rfl
    refine ⟨t.ahead config τ left, ⟨hplaced, hsound, hasks, hcounted, left, ?_, le_rfl⟩, by omega⟩
    exact ⟨hleft.of_none, hleft.of_some⟩
  | @call path head leaf d c hl hc =>
    obtain ⟨left', hleft', hpaid⟩ := hleft.call hl hc (Leaf.costs_run config τ engine a _ _ _ _)
    refine ⟨_, ⟨hplaced, hsound, hasks, hst.counted, left', hleft', le_rfl⟩, ?_⟩
    rw [cost_moved]
    exact hpaid.trans hle
  | @serve path r k reply w' hl hs =>
    -- the world changes, and with it nothing that is still to be paid for
    have hserved : Covers config τ left { st with world := w' } := ⟨hleft.of_none, hleft.of_some⟩
    obtain ⟨left', hleft', hpaid⟩ := hserved.next hst.sound hl reply
    refine ⟨_, ⟨hplaced, hsound, hasks, hst.counted, left', hleft', le_rfl⟩, ?_⟩
    rw [cost_moved]
    exact hpaid.trans hle
  | @answer path r t hl hr =>
    have hpaid : t.ahead config τ (Function.update left path none) + τ.motion ≤
      st.task.ahead config τ left := hr.ahead_le
    have hcost : Happening.cost τ (.moved path (st.task.around path) .silent none) = τ.motion := rfl
    refine ⟨t.ahead config τ (Function.update left path none),
      ⟨hplaced, hsound, hasks, hst.counted.answers hr, _, hleft.others t, le_rfl⟩, by omega⟩
  | @release path r k reply hl _ =>
    obtain ⟨left', hleft', hpaid⟩ := hleft.next hst.sound hl reply
    refine ⟨_, ⟨hplaced, hsound, hasks, hst.counted, left', hleft', le_rfl⟩, ?_⟩
    rw [cost_moved]
    exact hpaid.trans hle
  | @tell path r k reply hl hs =>
    obtain ⟨left', hleft', hpaid⟩ := hleft.next hst.sound hl reply
    refine ⟨_, ⟨hplaced, hsound, hasks, hst.counted, left', hleft', le_rfl⟩, ?_⟩
    rw [cost_told]
    exact hpaid.trans hle
  | cancel | outside =>
    -- others do that, and the run does not pay for it
    refine ⟨n, ⟨hplaced, hsound, hasks, hst.counted, left, ?_, hle⟩, (Nat.zero_add n).le⟩
    exact ⟨hleft.of_none, hleft.of_some⟩

/-- A step that is over leaves a motion to the run. -/
theorem IsPaid.motion_le (hst : IsPaid engine config τ a root st n) {o : Outcome}
    (ho : st.task.outcome? = some o) : τ.motion ≤ n := by
  obtain ⟨left, -, hle⟩ := hst.ahead
  rw [Task.ahead_of_outcome? ho] at hle
  omega

/-- **A simple step waits** for the executor or for an approval, and takes any answer. -/
theorem LeavesAsk.waits (hst : st.LeavesAsk a) {path : Path} {r : Request}
    (hw : st.waitsFor? path = some r) {α : Type} (next : Outcome × Context → Program α) :
    (r.isCall || r.isApproval) = true ∧ ∀ reply : (r : Request) → Option r.Reply,
      (reply r).isSome = true → ((st.toSystem a next).tell path reply).isSome = true := by
  unfold waitsFor? at hw
  split at hw
  next r' k hl =>
    split at hw
    · cases hw
    next hs =>
      cases hw
      refine ⟨?_, fun reply hreply => ?_⟩
      · cases (hst path _ hl).1 with
        | execute | awaitApproval => rfl
        | _ => exact absurd rfl hs
      · have hl : (st.toSystem a next).leaf? path = some (.ask r k) := hl
        rw [System.tell, hl]
        simpa using hreply
  next => cases hw

end Passage

/-! ### In a run -/

variable {engine : Expr.Engine} {id : Uuid} {rule : Execution → Execution → Prop}
  {w : World} {h : List Happening} {x : Happening} {s s' : System (Except RunError Summary)}
  {n : Nat}

/-- A program is paid for by a sum, and runs no steps but those whose bounds are no expressions. -/
structure Program.IsPaid {α : Type} (config : Config) (τ : Tariff) (n : Nat) (p : Program α) :
    Prop where
  costs : p.Costs (Request.price config τ) n
  asks : p.Asks (Request.Runs fun s => s.All Step.IsLiteral)

namespace System

/-- **What may still happen in a run is paid for** by a sum. -/
def IsPaid (engine : Expr.Engine) (config : Config) (τ : Tariff)
    (s : System (Except RunError Summary)) (n : Nat) : Prop :=
  match s.main with
  | .program p =>
    s.leaves = [] ∧ ∃ k m, p.Eventually (Program.IsPaid config τ m) k s.world ∧
      k * τ.motion + m ≤ n
  | .stepping a t k =>
    ∃ root i m, root.All WorkflowEngine.Step.IsLiteral ∧
      Passage.IsPaid engine config τ a root ⟨s.world, t, s.leaves⟩ i ∧
      (∀ y, (k y).IsPaid config τ m) ∧ i + m ≤ n

theorem cost_silent : Happening.cost τ .silent = τ.motion := rfl

/-- **What happens in a run is paid for.** -/
theorem IsPaid.step (hdefault : config.defaultMaxIterations < Env.maxCount)
    (hs : s.IsPaid engine config τ n) (hx : Step (.ofRun engine config id rule) s x s') :
    ∃ n', s'.IsPaid engine config τ n' ∧ x.cost τ + n' ≤ n := by
  obtain ⟨world, main, leaves⟩ := s
  cases main with
  | program p =>
    obtain ⟨rfl, k, m, hp, hle⟩ := hs
    obtain ⟨rfl, ⟨r, next, reply, w', rfl, hserve, rfl⟩ | ⟨a, step, c, next, rfl, rfl⟩⟩ :=
      hx.of_program
    · -- before the run has found its workflow, what is served is counted, and later it is paid for
      cases hp with
      | now hp =>
        have hprice := r.motion_le_price config τ
        have hpaid := hp.costs.1
        refine ⟨m - r.price config τ, ⟨rfl, 0, m - r.price config τ, ?_, by omega⟩, ?_⟩
        · exact .now ⟨hp.costs.2 reply, hp.asks.2 reply⟩
        · rw [cost_silent]
          omega
      | @serve k _ _ _ _ _ hr hserve' hp =>
        obtain ⟨rfl, rfl⟩ := Prod.mk.inj (Option.some.inj (hserve'.symm.trans hserve))
        refine ⟨k * τ.motion + m, ⟨rfl, k, m, hp, le_rfl⟩, ?_⟩
        rw [Nat.add_mul] at hle
        rw [cost_silent]
        omega
    · cases hp with
      | serve hr => cases hr.routine.isPlain
      | now hp =>
        have hpaid : τ.motion + step.price config τ ≤ m := hp.costs.1
        cases hp.asks.1 with
        | served h => cases h
        | runStep hroot =>
          -- the price of the step is split off, and the rest is kept for when it is over
          refine ⟨_, ⟨step, step.price config τ, m - (τ.motion + step.price config τ), hroot,
            .start world step c, fun y => ⟨hp.costs.2 y, hp.asks.2 y⟩, le_rfl⟩, ?_⟩
          rw [cost_silent]
          omega
  | stepping a t k =>
    obtain ⟨root, i, m, hroot, hst, hk, hle⟩ := hs
    have hx : Step (.ofRun engine config id rule) (Passage.toSystem ⟨world, t, leaves⟩ a k) x s' :=
      hx
    rcases hx.of_toSystem with
      ⟨st', hstep, rfl⟩ | ⟨o, ho, rfl, rfl⟩
    · obtain ⟨i', hst', hpaid⟩ := hst.step hdefault hroot hstep
      exact ⟨i' + m, ⟨root, i', m, hroot, hst', hk, le_rfl⟩, by omega⟩
    · have hmotion := hst.motion_le ho
      refine ⟨m, ⟨hst.sound.leaves_eq_nil ho, 0, m, .now (hk _), by omega⟩, ?_⟩
      have hcost : Happening.cost τ (.moved [] (t.around []) .silent none) = τ.motion := rfl
      show Happening.cost τ (.moved [] (t.around []) .silent none) + m ≤ n
      omega

/-- **Everything that happens in a history of a run is paid for.** -/
theorem Run.isPaid (hdefault : config.defaultMaxIterations < Env.maxCount)
    (hr : Run (.ofRun engine config id rule) s h s') (hs : s.IsPaid engine config τ n) :
    ∃ n', s'.IsPaid engine config τ n' ∧ (h.map (Happening.cost τ)).sum + n' ≤ n := by
  induction hr generalizing n with
  | refl => exact ⟨n, hs, (Nat.zero_add n).le⟩
  | step hx _ ih =>
    obtain ⟨n₁, hs₁, hle₁⟩ := hs.step hdefault hx
    obtain ⟨n', hs', hle⟩ := ih hs₁
    refine ⟨n', hs', ?_⟩
    rw [List.map_cons, List.sum_cons]
    omega

/-- **A run that is paid for goes on** until it is over, unless it waits for the executor or for an
approval. Then it takes any answer. -/
theorem IsPaid.goes_on (hs : s.IsPaid engine config τ n) (hresult : s.result? = none)
    (setting : Setting) :
    ∃ path, (s.move setting path).isSome = true ∨
      ∃ r, s.waitsFor? path = some r ∧ (r.isCall || r.isApproval) = true ∧
        ∀ reply, (reply r).isSome = true → (s.tell path reply).isSome = true := by
  obtain ⟨world, main, leaves⟩ := s
  cases main with
  | program p =>
    obtain ⟨rfl, k, m, hp, -⟩ := hs
    refine ⟨[], .inl ?_⟩
    cases p with
    | done => cases hresult
    | ask r next =>
      cases hp with
      | now hp => exact isSome_move_of_runs hp.asks.1 next
      | serve _ hserve => exact Option.isSome_of_mem (move_of_serve hserve)
  | stepping a t k =>
    obtain ⟨root, i, m, -, hst, -⟩ := hs
    obtain ⟨path, hmove | hwait⟩ := Passage.goes_on hst.sound hst.placed a k setting
    · exact ⟨path, .inl hmove⟩
    · obtain ⟨r, hr⟩ := Option.isSome_iff_exists.mp hwait
      exact ⟨path, .inr ⟨r, hr, hst.asks.waits hr k⟩⟩

end System

/-- **What a run costs is known when it begins**: a number of motions, and the prices of the steps
of its workflow. -/
theorem Orchestration.exists_isPaid (engine : Expr.Engine) (config : Config) (τ : Tariff)
    (id : Uuid) (w : World)
    (hw : ∀ v ∈ w.workflowOf id, ∀ s ∈ v.steps, s.All Step.IsLiteral) :
    ∃ c, System.IsPaid engine config τ (.ofProgram w (ExceptT.run (run engine id)))
      (c * τ.motion +
        ((w.workflowOf id).map fun v => Step.priceList config τ v.steps).getD 0) := by
  generalize hlength : ((w.workflowOf id).map fun v => v.steps.length).getD 0 = length
  generalize hprice :
    ((w.workflowOf id).map fun v => Step.priceList config τ v.steps).getD 0 = price
  -- what is done before the run begins waits for no one
  obtain ⟨k, hk⟩ : ∃ k, Program.Eventually
      (Program.IsPaid config τ (11 * τ.motion + length * (12 * τ.motion) + price)) k w
      (ExceptT.run (run engine id)) := by
    refine eventually_run engine id (fun _ => ⟨trivial, trivial⟩) (fun error => ⟨?_, ?_⟩) ?_
    · exact Costs.mono (costs_fail config τ id _ error) (by omega)
    · exact Asks.mono (.bind (isQuiet_markFailed id _) fun _ => .throw error) fun r hr =>
        .served hr.routine.isPlain.isOutside
    · intro e v he hv
      have hv := World.workflowOf_eq he hv
      rw [hv] at hlength hprice
      subst hlength hprice
      exact ⟨costs_begin config τ engine id e v, asks_begin engine id e (hw v hv)⟩
  refine ⟨k + 11 + length * 12, rfl, k, _, hk, ?_⟩
  rw [Nat.add_mul, Nat.add_mul, Nat.mul_assoc]
  omega

/-- **A run does bounded work.** If the bounds of all loops of its workflow are numbers below the
greatest count, and so is the default one, then there is a number such that in every history of the
run, whatever threads do and however they are answered,

* threads move and are answered no more often than that number tells;
* the executor is called no more often than the steps of the workflow tell;
* as long as the run is not over, a thread can move, or one waits for the executor or for an
  approval and takes any answer. -/
theorem run_does_bounded_work (engine : Expr.Engine) (config : Config) (id : Uuid) (w : World)
    (hdefault : config.defaultMaxIterations < Env.maxCount)
    (hw : ∀ v ∈ w.workflowOf id, ∀ s ∈ v.steps, s.All Step.IsLiteral) :
    ∃ n, ∀ rule h s, System.Run (.ofRun engine config id rule)
        (.ofProgram w (ExceptT.run (Orchestration.run engine id))) h s →
      h.countP Happening.isOwn ≤ n ∧
      h.countP Happening.isCall ≤
        ((w.workflowOf id).map fun v => Step.callsList config v.steps).getD 0 ∧
      (s.result? = none → ∃ path, (s.move (.ofConfig engine config) path).isSome = true ∨
        ∃ r, s.waitsFor? path = some r ∧ (r.isCall || r.isApproval) = true ∧
          ∀ reply, (reply r).isSome = true → (s.tell path reply).isSome = true) := by
  obtain ⟨n, hmotions⟩ : ∃ n, System.IsPaid engine config .motions
      (.ofProgram w (ExceptT.run (Orchestration.run engine id))) n :=
    (Orchestration.exists_isPaid engine config .motions id w hw).imp' _ fun _ h => h
  obtain ⟨c, hcalls⟩ := Orchestration.exists_isPaid engine config .calls id w hw
  refine ⟨n, fun rule h s hr => ⟨?_, ?_, fun hresult => ?_⟩⟩
  · obtain ⟨n', -, hle⟩ := hr.isPaid hdefault hmotions
    rw [Happening.sum_cost_motions] at hle
    exact (Nat.le_add_right ..).trans hle
  · obtain ⟨n', -, hle⟩ := hr.isPaid hdefault hcalls
    rw [Happening.sum_cost_calls] at hle
    simp only [Step.priceList_calls] at hle
    -- motions are free here
    exact (Nat.le_add_right ..).trans (hle.trans_eq (Nat.zero_add _))
  · obtain ⟨n', hs, -⟩ := hr.isPaid hdefault hmotions
    exact hs.goes_on hresult _

/-- A workflow with a loop of two iterations, whose step may be tried twice. -/
def Workflow.repeating : Workflow :=
  { Workflow.single default false with
    steps := [.loop ⟨"l", none, default⟩ ⟨some .count, none, some (.count 2), none, .fail⟩
      [.simple ⟨"a", none, { (default : Policy) with retryCount := some 1 }⟩
        ⟨.command, "run", [], none, none⟩]] }

/-- The step is tried twice in each iteration, so that the executor is called as often as it can
be. -/
theorem run_does_bounded_work_repeating : ∃ n h s,
    System.Run (.ofRun .null {} ⟨1⟩ Eq)
      (.ofProgram (.holding .repeating) (ExceptT.run (Orchestration.run .null ⟨1⟩))) h s ∧
    s.result?.isSome = true ∧ h.countP Happening.isOwn ≤ n ∧
    h.countP Happening.isCall = Step.callsList {} Workflow.repeating.steps := by
  have hliteral : ∀ v ∈ (World.holding .repeating).workflowOf ⟨1⟩, ∀ s ∈ v.steps,
      s.All Step.IsLiteral := by
    rintro v ⟨⟩
    refine List.forall_mem_singleton.mpr (.intro ?_ ?_)
    · rintro _ ⟨⟩
      exact ⟨2, rfl, by decide⟩
    · rintro x ⟨steps, hsteps, hx⟩
      obtain rfl := List.mem_singleton.mp hsteps
      obtain rfl := List.mem_singleton.mp hx
      refine .intro nofun ?_
      rintro y ⟨steps, hsteps, -⟩
      cases hsteps
  obtain ⟨n, hbounded⟩ :=
    run_does_bounded_work .null {} ⟨1⟩ (.holding .repeating) (by decide) hliteral
  have hplay : ((System.ofProgram (.holding .repeating)
      (ExceptT.run (Orchestration.run .null ⟨1⟩))).play (.ofRun .null {} ⟨1⟩ Eq)
        (System.moves 15 ++ .respond [] false :: System.moves 1 ++ .respond [] true ::
          System.moves 8 ++ .respond [] false :: System.moves 1 ++ .respond [] true ::
          System.moves 17)).any (fun x => x.2.result?.isSome &&
            decide (x.1.countP Happening.isCall = 4)) = true := by
    decide +kernel
  obtain ⟨⟨h, s⟩, hr, hx⟩ := (Option.any_eq_true _ _).mp hplay
  obtain ⟨hresult, hcalls⟩ := (Bool.and_eq_true _ _).mp hx
  have hr := System.Run.of_play hr
  obtain ⟨hmotions, -, -⟩ := hbounded Eq h s hr
  exact ⟨n, h, s, hr, hresult, hmotions, (of_decide_eq_true hcalls).trans (by decide +kernel)⟩

end WorkflowEngine
