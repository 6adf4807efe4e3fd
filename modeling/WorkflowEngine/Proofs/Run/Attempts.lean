import WorkflowEngine.Proofs.Run.Leaf
import WorkflowEngine.Proofs.Task.Price
import WorkflowEngine.Simulation.Machine

/-!
# How simple steps are tried again

A simple step is handed out until that is a success in time, but not more often than its policy and
the configuration allow. It is handed out in the same way each time. What it comes to depends on
two things outside: what comes of each call, and between which calls the run is cancelled.

## Main definitions

* `Arrival`: what comes of a call, and when
* `Arrival.reply`, `Arrival.toldAfterMs`: what is told of it to someone who waits only so long, and
  when
* `Counterpart`: what a simple step meets with, call after call
* `Program.against`: the calls of a program, and what it ends with
* `Counterpart.Fruitless`: the first calls come to nothing
* `Simulation.Wait.Awaits`: a thread waits for what comes of a call

## Main results

* `Simulation.Machine.beginWait_tells`: simulated calls are told of in the same way
* `Leaf.attempts_eq`: the number of tries, short of the greatest count
* `Leaf.against_fruitless`: what is left to do after calls that came to nothing
* `Counterpart.fruitless_or`: how often the first calls come to nothing
* `retries_follow_policy`: what a simple step comes to, and after how many calls
-/

namespace WorkflowEngine

/-- What comes of a call, and after how many milliseconds. -/
structure Arrival where
  response : StepResponse
  afterMs : Nat

/-- It arrives no later than after a number of seconds, if there is a limit. -/
def Arrival.inTime (timeoutSecs : Option Nat) (y : Arrival) : Bool :=
  timeoutSecs.all (y.afterMs ≤ · * 1000)

/-- What is told of a call to someone who waits for a number of seconds, if there is a limit: the
response, if it arrives in time. -/
def Arrival.reply (timeoutSecs : Option Nat) (y : Arrival) : Option StepResponse :=
  if y.inTime timeoutSecs then some y.response else none

/-- When someone is told of a call who waits for a number of seconds, if there is a limit. -/
def Arrival.toldAfterMs (timeoutSecs : Option Nat) (y : Arrival) : Nat :=
  match timeoutSecs with
  | some secs => min y.afterMs (secs * 1000)
  | none => y.afterMs

/-- A call is a success in time. -/
def Arrival.succeeds (timeoutSecs : Option Nat) (y : Arrival) : Bool :=
  y.inTime timeoutSecs && y.response.success

/-- What a simple step meets with: what comes of each of its calls, and which runs are cancelled by
the time when so many calls are over. -/
structure Counterpart where
  arrival : Nat → Arrival
  isCancelled : Nat → Uuid → Bool

/-- The calls of a program, of which there were `n` before, and what it ends with. -/
def Program.against {α : Type} (x : Counterpart) (n : Nat) :
    Program α → Option (List Request × α)
  | .done a => some ([], a)
  | .ask (.execute r caller secs) k =>
    ((k ((x.arrival n).reply secs)).against x (n + 1)).map fun (calls, a) =>
      (.execute r caller secs :: calls, a)
  | .ask (.isCancelled id) k => (k (x.isCancelled n id)).against x n
  | .ask .. => none

theorem Program.against_isCancelled {α : Type} (x : Counterpart) (n : Nat) (id : Uuid)
    (k : Bool → Program α) :
    (Program.ask (.isCancelled id) k).against x n = (k (x.isCancelled n id)).against x n := rfl

/-- The first calls of a simple step come to nothing, and its run is not cancelled between them. -/
structure Counterpart.Fruitless (x : Counterpart) (id : Uuid) (timeoutSecs : Option Nat) (n : Nat) :
    Prop where
  failed : ∀ i < n, (x.arrival i).succeeds timeoutSecs = false
  active : ∀ i, 0 < i → i < n → x.isCancelled i id = false

/-! ### Simulated calls -/

namespace Simulation

/-- A thread waits for what comes of a call that was made at a time. -/
structure Wait.Awaits (w : Wait) (y : Arrival) (timeoutSecs : Option Nat) (since : Nat) : Prop where
  isApproval : w.isApproval = false
  hangs : w.reaction.hangs = false
  answer : ∀ r caller, w.reaction.answer.reply (.execute r caller timeoutSecs) =
    some (some y.response)
  readyAt : w.readyAt = some (since + y.afterMs)
  timeoutAt : w.timeoutAt = timeoutSecs.map fun secs => since + secs * 1000

variable {α : Type} {m : Machine α} {w : Wait} {y : Arrival} {timeoutSecs : Option Nat}
  {since : Nat}

theorem Wait.Awaits.deadline? (h : w.Awaits y timeoutSecs since) :
    w.deadline? = some (since + y.toldAfterMs timeoutSecs) := by
  rw [Wait.deadline?, h.readyAt, h.timeoutAt]
  cases timeoutSecs with
  | none => rfl
  | some secs => exact congrArg some (Nat.add_min_add_left ..)

/-- A thread whose call is answered by a script waits for that from the time of the call. -/
theorem Machine.beginWait_execute (m : Machine α) (path : Path) (r : StepRequest) (caller : Caller)
    (timeoutSecs : Option Nat) {answer : LeafAnswer}
    (ha : (m.host.beginCall r caller timeoutSecs).reaction.answer = .leaf answer)
    (hh : (m.host.beginCall r caller timeoutSecs).reaction.hangs = false) :
    ∃ (m' : Machine α) (w : Wait), m.beginWait path (.execute r caller timeoutSecs) = m'.poll w ∧
      m'.clock = m.clock ∧
      w.Awaits ⟨answer.response, (m.host.beginCall r caller timeoutSecs).reaction.delayMs⟩
        timeoutSecs m.clock := by
  refine ⟨_, _, rfl, rfl, rfl, hh, fun r' caller' => ?_, rfl, ?_⟩
  · rw [ha]
    rfl
  · dsimp only [Host.beginCall]
    split <;> rfl

/-- Before someone is told of a call, it is waited for. -/
theorem Wait.Awaits.poll_before (h : w.Awaits y timeoutSecs since)
    (hm : m.clock < since + y.toldAfterMs timeoutSecs) : m.poll w = (m.setWait w).pause := by
  have hready : ¬ since + y.afterMs ≤ m.clock := by
    cases timeoutSecs <;> simp only [Arrival.toldAfterMs] at hm <;> omega
  have htime : w.timeoutAt.any (· ≤ m.clock) = false := by
    rw [h.timeoutAt]
    cases timeoutSecs with
    | none => rfl
    | some secs =>
      simp only [Option.map_some, Option.any_some, decide_eq_false_iff_not]
      simp only [Arrival.toldAfterMs] at hm
      omega
  rw [Machine.poll, h.readyAt]
  simp [Machine.waitOn, hready, h.isApproval, htime]

/-- When the time comes, what is told is the response if it is there, even if the time is up just
then. -/
theorem Wait.Awaits.poll (h : w.Awaits y timeoutSecs since)
    (hm : m.clock = since + y.toldAfterMs timeoutSecs) :
    ∃ (m' : Machine α) (reply : (r : Request) → Option r.Reply), m.poll w = m'.deliver w reply ∧
      ∀ r caller, reply (.execute r caller timeoutSecs) = some (y.reply timeoutSecs) := by
  by_cases hready : since + y.afterMs ≤ m.clock
  · refine ⟨m.affect w, w.reaction.answer.reply, ?_, fun r caller => ?_⟩
    · rw [Machine.poll, h.readyAt]
      simp [hready, h.hangs]
    · have hall : y.inTime timeoutSecs = true := by
        cases timeoutSecs with
        | none => rfl
        | some secs =>
          simp only [Arrival.inTime, Option.all_some, decide_eq_true_eq]
          simp only [Arrival.toldAfterMs] at hm
          omega
      rw [h.answer, Arrival.reply, if_pos hall]
  · cases timeoutSecs with
    | none => exact absurd hm.ge hready
    | some secs =>
      simp only [Arrival.toldAfterMs] at hm
      refine ⟨m, Machine.timeUp, ?_, fun r caller => ?_⟩
      · have htime : w.timeoutAt.any (· ≤ m.clock) = true := by
          simp only [h.timeoutAt, Option.map_some, Option.any_some, decide_eq_true_eq]
          omega
        rw [Machine.poll, h.readyAt]
        simp [Machine.waitOn, hready, h.isApproval, htime]
      · have hall : ¬ y.inTime (some secs) = true := by
          simp only [Arrival.inTime, Option.all_some, decide_eq_true_eq]
          omega
        rw [Arrival.reply, if_neg hall]
        rfl

/-- **A simulated call is told of like any other.** A thread whose call is answered by a script
waits until the response is there or the time is up. As long as the clock is not there, it goes on
waiting; then it is told of the response, if that is in time. -/
theorem Machine.beginWait_tells (m : Machine α) (path : Path) (r : StepRequest) (caller : Caller)
    (timeoutSecs : Option Nat) {answer : LeafAnswer}
    (ha : (m.host.beginCall r caller timeoutSecs).reaction.answer = .leaf answer)
    (hh : (m.host.beginCall r caller timeoutSecs).reaction.hangs = false) :
    let y : Arrival :=
      ⟨answer.response, (m.host.beginCall r caller timeoutSecs).reaction.delayMs⟩
    ∃ (m' : Machine α) (w : Wait), m.beginWait path (.execute r caller timeoutSecs) = m'.poll w ∧
      m'.clock = m.clock ∧ w.deadline? = some (m.clock + y.toldAfterMs timeoutSecs) ∧
      (∀ later : Machine α, later.clock < m.clock + y.toldAfterMs timeoutSecs →
        later.poll w = (later.setWait w).pause) ∧
      ∀ later : Machine α, later.clock = m.clock + y.toldAfterMs timeoutSecs →
        ∃ (next : Machine α) (reply : (r : Request) → Option r.Reply),
          later.poll w = next.deliver w reply ∧
          reply (.execute r caller timeoutSecs) = some (y.reply timeoutSecs) := by
  intro y
  obtain ⟨m', w, hbegin, hclock, hw⟩ := m.beginWait_execute path r caller timeoutSecs ha hh
  refine ⟨m', w, hbegin, hclock, hw.deadline?, fun later hl => hw.poll_before hl,
    fun later hl => ?_⟩
  obtain ⟨next, reply, hpoll, hreply⟩ := hw.poll hl
  exact ⟨next, reply, hpoll, hreply r caller⟩

end Simulation

/-! ### Calls of a simple step -/

/-- The run that a simple step belongs to, and the step within it. -/
def Assignment.caller (a : Assignment) (c : Context) (depth : Nat) : Caller :=
  { executionId := a.executionId
    workflowId := a.workflowId
    workItemId := a.workItemId
    branchName := c.identity.branchName
    workItem := c.workItem
    depth }

namespace Leaf

variable {x : Counterpart} {r : StepRequest} {caller : Caller} {timeoutSecs : Option Nat}

/-- **The number of tries**, short of the greatest count. -/
theorem attempts_eq {config : Config} {policy : Policy}
    (h : min (policy.retryCount.getD 0) config.maxLeafRetries < Env.maxCount) :
    attempts config policy = policy.tries config := by
  have hwords : Env.maxCount + 1 = Bits.words 32 := by decide
  exact Nat.mod_eq_of_lt (by omega)

/-- The error of the call before, of which there is none at first. -/
def lastError (x : Counterpart) (r : StepRequest) (timeoutSecs : Option Nat) :
    Nat → Option StepError
  | 0 => none
  | n + 1 => some (failure r timeoutSecs ((x.arrival n).reply timeoutSecs))

theorem isSome_lastError {n : Nat} : (lastError x r timeoutSecs n).isSome = decide (0 < n) := by
  cases n <;> rfl

/-- A step whose run is not cancelled before the next call is handed out. -/
theorem against_attempt {n tries : Nat} {last : Option StepError}
    (h : last.isSome = true → x.isCancelled n caller.executionId = false) :
    (attempt r caller timeoutSecs (tries + 1) last).against x n =
      ((afterResponse r caller timeoutSecs tries ((x.arrival n).reply timeoutSecs)).against x
        (n + 1)).map fun (calls, a) => (.execute r caller timeoutSecs :: calls, a) := by
  rw [attempt_succ]
  dsimp only
  split
  next hlast =>
    rw [Program.against_isCancelled, h hlast]
    rfl
  next => rfl

/-- A call that is no success in time has the step tried again. -/
theorem afterResponse_of_not_succeeds {n tries : Nat}
    (h : (x.arrival n).succeeds timeoutSecs = false) :
    afterResponse r caller timeoutSecs tries ((x.arrival n).reply timeoutSecs) =
      attempt r caller timeoutSecs tries (lastError x r timeoutSecs (n + 1)) := by
  rw [lastError, Arrival.reply]
  split
  next hin =>
    rw [Arrival.succeeds, hin, Bool.true_and] at h
    generalize (x.arrival n).response = response at h
    rcases response with ⟨_ | _, value, error⟩
    · rfl
    · cases h
  next => rfl

/-- A call that is a success in time ends the step. -/
theorem afterResponse_of_succeeds {n tries : Nat}
    (h : (x.arrival n).succeeds timeoutSecs = true) :
    afterResponse r caller timeoutSecs tries ((x.arrival n).reply timeoutSecs) =
      .done (.ok ((x.arrival n).response.value.getD .null)) := by
  obtain ⟨hin, hs⟩ := (Bool.and_eq_true ..).mp h
  rw [Arrival.reply, if_pos hin]
  generalize (x.arrival n).response = response at hs
  rcases response with ⟨_ | _, value, error⟩
  · cases hs
  · rfl

/-- **What is left to do after calls that came to nothing**: the step is tried as often as is left,
and the error is that of the call before. -/
theorem against_fruitless {n : Nat} (h : x.Fruitless caller.executionId timeoutSecs n)
    (tries : Nat) :
    (attempt r caller timeoutSecs (n + tries) none).against x 0 =
      ((attempt r caller timeoutSecs tries (lastError x r timeoutSecs n)).against x n).map
        fun (calls, a) => (List.replicate n (.execute r caller timeoutSecs) ++ calls, a) := by
  -- One more call is one more of the tries that are left after the others.
  induction n generalizing tries with
  | zero =>
    rw [Nat.zero_add, lastError]
    exact Option.map_id'.symm
  | succ n ih =>
    have hn : x.Fruitless caller.executionId timeoutSecs n :=
      ⟨fun i hi => h.failed i (by omega), fun i h0 hi => h.active i h0 (by omega)⟩
    have hactive (hlast : (lastError x r timeoutSecs n).isSome = true) :
        x.isCancelled n caller.executionId = false :=
      h.active n (by simpa [isSome_lastError] using hlast) (by omega)
    rw [show n + 1 + tries = n + (tries + 1) by omega, ih hn, against_attempt hactive,
      afterResponse_of_not_succeeds (h.failed n (by omega)), Option.map_map]
    simp [Function.comp_def, List.replicate_succ', List.append_assoc]

variable {engine : Expr.Engine} {config : Config} {a : Assignment} {head : Head} {leaf : Leaf}
  {depth : Nat} {c : Context}

/-- A simple step whose request can be made is tried as often as its policy and the configuration
allow. -/
theorem run_eq_attempt (hl : leaf.action ≠ approvalAction)
    (hr : request engine head leaf c.toJson = .ok r)
    (hn : min (head.policy.retryCount.getD 0) config.maxLeafRetries < Env.maxCount) :
    run engine config a head leaf depth c =
      attempt r (a.caller c depth) (timeout config head.policy) (head.policy.tries config)
        none := by
  rw [run, if_neg (by simpa using hl), dispatch, hr, attempts_eq hn]
  rfl

/-- What is asked names the step. -/
theorem request_stepId {scope : Json} (hr : request engine head leaf scope = .ok r) :
    r.stepId = head.id := by
  unfold request at hr
  cases hp : resolveFields engine scope leaf.config with
  | error e => simp [hp, bind, Except.bind] at hr
  | ok params =>
    cases ht : promptText engine leaf scope with
    | error e => simp [hp, ht, bind, Except.bind] at hr
    | ok prompt =>
      simp only [hp, ht, bind, Except.bind, pure, Except.pure, Except.ok.injEq] at hr
      exact hr ▸ rfl

end Leaf

/-- **The first calls come to nothing** as often as a step is tried, or until one that is a success
in time or that the run is cancelled before. -/
theorem Counterpart.fruitless_or (x : Counterpart) (id : Uuid) (timeoutSecs : Option Nat)
    (tries : Nat) :
    x.Fruitless id timeoutSecs tries ∨ ∃ n < tries, x.Fruitless id timeoutSecs n ∧
      (0 < n ∧ x.isCancelled n id = true ∨
        (0 < n → x.isCancelled n id = false) ∧ (x.arrival n).succeeds timeoutSecs = true) := by
  induction tries with
  | zero => exact .inl ⟨fun i hi => absurd hi (by omega), fun i _ hi => absurd hi (by omega)⟩
  | succ n ih =>
    rcases ih with h | ⟨k, hk, h⟩
    · by_cases hc : 0 < n ∧ x.isCancelled n id = true
      · exact .inr ⟨n, by omega, h, .inl hc⟩
      have hc : 0 < n → x.isCancelled n id = false := by simpa using hc
      cases hs : (x.arrival n).succeeds timeoutSecs with
      | true => exact .inr ⟨n, by omega, h, .inr ⟨hc, hs⟩⟩
      | false =>
        refine .inl ⟨fun i hi => ?_, fun i h0 hi => ?_⟩
        · rcases Nat.lt_succ_iff_lt_or_eq.mp hi with hi | rfl
          · exact h.failed i hi
          · exact hs
        · rcases Nat.lt_succ_iff_lt_or_eq.mp hi with hi | rfl
          · exact h.active i h0 hi
          · exact hc h0
    · exact .inr ⟨k, by omega, h⟩

namespace Leaf

variable {x : Counterpart} {r : StepRequest} {caller : Caller} {timeoutSecs : Option Nat}
  {n tries : Nat}

/-- A step that is a success after calls that came to nothing. -/
theorem against_of_succeeds (h : x.Fruitless caller.executionId timeoutSecs n) (hn : n < tries)
    (hc : 0 < n → x.isCancelled n caller.executionId = false)
    (hs : (x.arrival n).succeeds timeoutSecs = true) :
    (attempt r caller timeoutSecs tries none).against x 0 =
      some (List.replicate (n + 1) (.execute r caller timeoutSecs),
        .ok ((x.arrival n).response.value.getD .null)) := by
  obtain ⟨rest, rfl⟩ : ∃ rest, tries = n + (rest + 1) := ⟨tries - n - 1, by omega⟩
  rw [against_fruitless h, against_attempt (fun hl => hc (by simpa [isSome_lastError] using hl)),
    afterResponse_of_succeeds hs, List.replicate_succ']
  rfl

/-- A step whose calls all came to nothing. -/
theorem against_of_fruitless (h : x.Fruitless caller.executionId timeoutSecs (n + 1)) :
    (attempt r caller timeoutSecs (n + 1) none).against x 0 =
      some (List.replicate (n + 1) (.execute r caller timeoutSecs),
        .error (failure r timeoutSecs ((x.arrival n).reply timeoutSecs))) := by
  have hrun := against_fruitless (r := r) h 0
  rw [hrun, attempt, lastError]
  exact congrArg (fun calls => some (calls, _)) (List.append_nil _)

/-- A step whose run is cancelled after calls that came to nothing. -/
theorem against_of_isCancelled (h : x.Fruitless caller.executionId timeoutSecs n) (hn : n < tries)
    (h0 : 0 < n) (hc : x.isCancelled n caller.executionId = true) :
    (attempt r caller timeoutSecs tries none).against x 0 =
      some (List.replicate n (.execute r caller timeoutSecs), .error .cancelled) := by
  obtain ⟨rest, rfl⟩ : ∃ rest, tries = n + (rest + 1) := ⟨tries - n - 1, by omega⟩
  have hlast : (lastError x r timeoutSecs n).isSome = true := by simpa [isSome_lastError] using h0
  rw [against_fruitless h, attempt_succ]
  dsimp only
  rw [if_pos hlast, Program.against_isCancelled, hc]
  exact congrArg (fun calls => some (calls, _)) (List.append_nil _)

end Leaf

open Leaf in
/-- **Simple steps are tried again exactly as their policy tells.** Every call is the same. The
first that is a success in time ends the step with its value. If none is, the step is tried as often
as its retries and the cap on them allow, and once before that; its error is that of the last call,
which ran over or failed. A run that is cancelled between two calls makes no other. So a step always
comes to an end. -/
theorem retries_follow_policy (engine : Expr.Engine) (config : Config) (a : Assignment)
    (head : Head) (leaf : Leaf) (depth : Nat) (c : Context) (x : Counterpart) {r : StepRequest}
    (hl : leaf.action ≠ approvalAction) (hr : request engine head leaf c.toJson = .ok r)
    (hn : min (head.policy.retryCount.getD 0) config.maxLeafRetries < Env.maxCount) :
    let id := a.executionId
    let secs := head.policy.timeoutSecs <|> config.defaultStepTimeoutSecs
    let retries := min (head.policy.retryCount.getD 0) config.maxLeafRetries
    let calls n := List.replicate n (Request.execute r (a.caller c depth) secs)
    let course := (Leaf.run engine config a head leaf depth c).against x 0
    (∀ n ≤ retries, x.Fruitless id secs n → (0 < n → x.isCancelled n id = false) →
      (x.arrival n).succeeds secs = true →
      course = some (calls (n + 1), .ok ((x.arrival n).response.value.getD .null))) ∧
    (x.Fruitless id secs (retries + 1) →
      (∀ limit, secs = some limit → limit * 1000 < (x.arrival retries).afterMs →
        course = some (calls (retries + 1), .error (.timeout head.id limit))) ∧
      ((x.arrival retries).inTime secs = true →
        course = some (calls (retries + 1), .error (.executionFailed head.id
          ((x.arrival retries).response.error.getD "step executor reported failure"))))) ∧
    (∀ n ≤ retries, 0 < n → x.Fruitless id secs n → x.isCancelled n id = true →
      course = some (calls n, .error .cancelled)) ∧
    ∃ n ≤ retries + 1, ∃ result, course = some (calls n, result) := by
  intro id secs retries calls course
  have hrun : course = (attempt r (a.caller c depth) secs (retries + 1) none).against x 0 :=
    congrArg (Program.against x 0) (run_eq_attempt hl hr hn)
  have hid := request_stepId hr
  refine ⟨fun n hn hf hc hs => ?_, fun hf => ⟨fun limit hlimit hlate => ?_, fun hin => ?_⟩,
    fun n hn h0 hf hc => ?_, ?_⟩
  · rw [hrun]
    exact against_of_succeeds hf (Nat.lt_succ_of_le hn) hc hs
  · have hlate : ¬ (x.arrival retries).inTime secs = true := by
      rw [hlimit]
      simpa [Arrival.inTime] using hlate
    have herror : Leaf.failure r secs none = .timeout head.id limit := by
      rw [Leaf.failure, hid, hlimit]
      rfl
    rw [hrun, against_of_fruitless hf, Arrival.reply, if_neg hlate, herror]
  · rw [hrun, against_of_fruitless hf, Arrival.reply, if_pos hin, Leaf.failure, hid]
  · rw [hrun]
    exact against_of_isCancelled hf (Nat.lt_succ_of_le hn) h0 hc
  · rw [hrun]
    rcases x.fruitless_or id secs (retries + 1) with hf | ⟨n, hn, hf, ⟨h0, hc⟩ | ⟨hc, hs⟩⟩
    · exact ⟨_, le_rfl, _, against_of_fruitless hf⟩
    · exact ⟨n, hn.le, _, against_of_isCancelled hf hn h0 hc⟩
    · exact ⟨n + 1, hn, _, against_of_succeeds hf hn hc hs⟩

/-- A counterpart that answers too late, fails, and then answers just in time. -/
def Counterpart.slow : Counterpart :=
  { arrival := fun
      | 0 => ⟨⟨true, none, none⟩, 1001⟩
      | 1 => ⟨⟨false, none, some "no"⟩, 20⟩
      | _ => ⟨⟨true, some (.str "done"), none⟩, 1000⟩
    isCancelled := fun _ _ => false }

theorem Counterpart.fruitless_slow (id : Uuid) : slow.Fruitless id (some 1) 2 :=
  ⟨by decide, fun _ _ _ => rfl⟩

/-- A command that may take a second is tried twice more. -/
theorem retries_follow_policy_slow :
    let a : Assignment := ⟨⟨1⟩, "w", "i"⟩
    (Leaf.run .null {} a ⟨"a", none, ⟨some 1, some 2, false⟩⟩ ⟨.command, "run", [], none, none⟩ 0
        {}).against .slow 0 =
      some (List.replicate 3 (.execute ⟨"a", "command", "run", []⟩ (a.caller {} 0) (some 1)),
        .ok (.str "done")) :=
  (retries_follow_policy .null {} ⟨⟨1⟩, "w", "i"⟩ ⟨"a", none, ⟨some 1, some 2, false⟩⟩
    ⟨.command, "run", [], none, none⟩ 0 {} .slow (by decide) rfl (by decide)).1 2 (by decide)
    (Counterpart.fruitless_slow _) (fun _ => rfl) rfl

end WorkflowEngine
