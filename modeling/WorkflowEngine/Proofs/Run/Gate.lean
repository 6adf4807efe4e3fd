import WorkflowEngine.Proofs.Run.Suspension
import WorkflowEngine.Proofs.Task.Pass

/-!
# Gates

A thread that comes to an approval step stands at a gate: it tells that it pauses, waits for a
verdict, and tells that it resumes if that is an approval. What happens at the gate of one thread
follows a protocol of a few states, whatever other threads do at theirs in the meantime.

## Main definitions

* `Signal`: what happens at a gate
* `Gate`, `Gate.Step`, `Gate.Run`: the protocol of a gate
* `Signal.Guarded`: what happens at a gate that holds
* `System.Signals`, `System.Watch`: what happens at the gates in a history
* `Leaf.AtGate`, `Leaf.Guards`: the programs of simple steps, by where their threads stand

## Main results

* `Gate.Run.resumed_eq`: an approval is followed by its resumption, and by no other one
* `Gate.Run.guarded`: the protocol makes a gate hold
* `Leaf.guards_run`: every simple step begins at an idle gate
* `Leaf.Guards.serve`, `Leaf.Guards.tell`, `Leaf.Guards.done`: simple steps follow the protocol
-/

namespace WorkflowEngine

/-- The verdict is an approval. -/
def Verdict.approves : Verdict → Bool
  | .decided d => d.approved
  | _ => false

/-- What happens at the gate of a thread. -/
inductive Signal where
  | paused (stepId : String)
  /-- The wait for an approval is over. -/
  | answered (stepId : String) (verdict : Verdict)
  | resumed (stepId : String)
  /-- An approval step is over. -/
  | ended (stepId : String) (outcome : Outcome)

namespace Signal

/-- What happens is announced by an event. -/
def isAnnounced : Signal → Bool
  | .paused _ => true
  | .resumed _ => true
  | _ => false

/-- The step that is resumed. -/
def resumed? : Signal → Option String
  | .resumed id => some id
  | _ => none

/-- The step that is approved. -/
def approved? : Signal → Option String
  | .answered id v => if v.approves then some id else none
  | _ => none

/-- What happens at the gate of one thread. -/
def ofThread (path : Path) (l : List (Path × Signal)) : List Signal :=
  l.filterMap fun x => if x.1 = path then some x.2 else none

@[simp] theorem ofThread_append (path : Path) (l l' : List (Path × Signal)) :
    Signal.ofThread path (l ++ l') = Signal.ofThread path l ++ Signal.ofThread path l' :=
  List.filterMap_append

/-- What happens at one gate happens at no other one. -/
theorem ofThread_map (path q : Path) (l : List Signal) :
    Signal.ofThread q (l.map (path, ·)) = if path = q then l else [] := by
  unfold Signal.ofThread
  rw [List.filterMap_map]
  by_cases h : path = q
  · simp [h]
  · simp [h]

end Signal

/-! ### The protocol of a gate -/

/-- Where a thread stands at its gate. -/
inductive Gate where
  | idle
  | paused (stepId : String)
  | granted (stepId : String)
  | passed (stepId : String)
  | refused (stepId : String)

namespace Gate

/-- Where a thread stands when the wait for an approval is over. -/
def ofVerdict (id : String) (v : Verdict) : Gate := if v.approves then .granted id else .refused id

/-- **The protocol of a gate.** An approval step ends without failure only after it was resumed, and
it is resumed only after the approval that it paused for. It may fail without a pause. -/
inductive Step : Gate → Signal → Gate → Prop where
  | pause {id} : Step .idle (.paused id) (.paused id)
  | answer {id v} : Step (.paused id) (.answered id v) (.ofVerdict id v)
  | resume {id} : Step (.granted id) (.resumed id) (.passed id)
  | complete {id o} (ho : Outcome.failure? o = none) : Step (.passed id) (.ended id o) .idle
  | fail {id o} (ho : Outcome.failure? o ≠ none) : Step (.refused id) (.ended id o) .idle
  | unasked {id o} (ho : Outcome.failure? o ≠ none) : Step .idle (.ended id o) .idle

/-- Where a thread stands after one thing after the other at its gate. -/
inductive Run : Gate → List Signal → Gate → Prop where
  | refl (g) : Run g [] g
  | step {g x g' l g''} (hs : Step g x g') (hr : Run g' l g'') : Run g (x :: l) g''

variable {g g' g'' : Gate} {l l' : List Signal}

theorem Run.single {x : Signal} (h : g.Step x g') : g.Run [x] g' := .step h (.refl g')

theorem Run.trans (h : g.Run l g') (h' : g'.Run l' g'') : g.Run (l ++ l') g'' := by
  induction h with
  | refl => exact h'
  | step hs _ ih => exact .step hs (ih h')

/-- The step whose approval is not followed by its resumption yet. -/
def pending? : Gate → Option String
  | .granted id => some id
  | _ => none

/-- **Each approval is followed by its own resumption**, and no other step is resumed. -/
theorem Run.resumed_eq (h : g.Run l g') :
    g.pending?.toList ++ l.filterMap Signal.approved? =
      l.filterMap Signal.resumed? ++ g'.pending?.toList := by
  induction h with
  | refl => simp
  | @step g x g₁ l g₂ hs _ ih =>
    cases hs with
    | @answer id v =>
      unfold ofVerdict at ih
      cases hv : v.approves <;>
        simpa [pending?, List.filterMap_cons, Signal.approved?, Signal.resumed?, hv] using ih
    | _ => simpa [pending?, List.filterMap_cons, Signal.approved?, Signal.resumed?] using ih

theorem Run.split (h : g.Run (l ++ l') g') : ∃ g₁, g.Run l g₁ ∧ g₁.Run l' g' := by
  induction l generalizing g with
  | nil => exact ⟨g, .refl g, h⟩
  | cons x l ih =>
    cases h with
    | step hs hr =>
      obtain ⟨g₁, h₁, h₂⟩ := ih hr
      exact ⟨g₁, .step hs h₁, h₂⟩

/-- What has led to where a thread stands. -/
def Follows (l : List Signal) : Gate → Prop
  | .paused id => ∃ l₀, l = l₀ ++ [.paused id]
  | .granted id => ∃ l₀ v, l = l₀ ++ [.paused id, .answered id v] ∧ v.approves = true
  | .passed id => l.getLast? = some (.resumed id)
  | .idle | .refused _ => ∀ id, l.getLast? ≠ some (.resumed id)

theorem Follows.step {x : Signal} (hg : g.Follows l) (h : g.Step x g') :
    g'.Follows (l ++ [x]) := by
  cases h with
  | pause => exact ⟨l, rfl⟩
  | @answer id v =>
    obtain ⟨l₀, rfl⟩ := hg
    unfold ofVerdict
    split
    next hv => exact ⟨l₀, v, by simp, hv⟩
    next =>
      intro id'
      rw [List.getLast?_concat]
      exact nofun
  | resume => exact List.getLast?_concat
  | _ =>
    intro id'
    rw [List.getLast?_concat]
    exact nofun

theorem Run.follows {l₀ : List Signal} (hg : g.Follows l₀) (h : g.Run l g') :
    g'.Follows (l₀ ++ l) := by
  induction h generalizing l₀ with
  | refl =>
    rw [List.append_nil]
    exact hg
  | @step g x g₁ l g₂ hs _ ih =>
    have h := ih (hg.step hs)
    rwa [List.append_assoc] at h

end Gate

/-- **What happens at a gate that holds**: a step is resumed right after an approval that it has
paused for, it is resumed whenever it is approved, it ends when it has been resumed, and it ends
without failure exactly then. -/
structure Signal.Guarded (l : List Signal) : Prop where
  approved_of_resumed : ∀ l₁ id l₂, l = l₁ ++ .resumed id :: l₂ →
    ∃ l₀ v, l₁ = l₀ ++ [.paused id, .answered id v] ∧ v.approves = true
  resumed_of_approved : ∀ l₁ id v l₂, l = l₁ ++ .answered id v :: l₂ → v.approves = true →
    l₂ = [] ∨ ∃ l₃, l₂ = .resumed id :: l₃
  ended_of_resumed : ∀ l₁ id l₂, l = l₁ ++ .resumed id :: l₂ →
    l₂ = [] ∨ ∃ o l₃, l₂ = .ended id o :: l₃
  completed_iff : ∀ l₁ id o l₂, l = l₁ ++ .ended id o :: l₂ →
    (o.failure? = none ↔ l₁.getLast? = some (.resumed id))

/-- **The protocol makes a gate hold.** -/
theorem Gate.Run.guarded {l : List Signal} {g : Gate} (h : Gate.idle.Run l g) :
    Signal.Guarded l := by
  have hidle : Gate.idle.Follows [] := by
    intro id
    exact nofun
  constructor
  · rintro l₁ id l₂ rfl
    obtain ⟨g₁, h₁, h₂⟩ := h.split
    have hg := h₁.follows hidle
    cases h₂ with
    | step hs =>
      cases hs
      exact hg
  · rintro l₁ id v l₂ rfl hv
    obtain ⟨g₁, -, h₂⟩ := h.split
    cases h₂ with
    | step hs hr =>
      cases hs
      rw [Gate.ofVerdict, if_pos hv] at hr
      cases hr with
      | refl => exact .inl rfl
      | step hs =>
        cases hs
        exact .inr ⟨_, rfl⟩
  · rintro l₁ id l₂ rfl
    obtain ⟨g₁, -, h₂⟩ := h.split
    cases h₂ with
    | step hs hr =>
      cases hs
      cases hr with
      | refl => exact .inl rfl
      | step hs =>
        cases hs
        exact .inr ⟨_, _, rfl⟩
  · rintro l₁ id o l₂ rfl
    obtain ⟨g₁, h₁, h₂⟩ := h.split
    have hg := h₁.follows hidle
    cases h₂ with
    | step hs =>
      cases hs with
      | complete ho => exact ⟨fun _ => hg, fun _ => ho⟩
      | fail ho => exact ⟨fun h => absurd h ho, fun h => absurd h (hg id)⟩
      | unasked ho => exact ⟨fun h => absurd h ho, fun h => absurd h (hg id)⟩

/-! ### What happens at the gates in a history -/

/-- What an event tells of a gate. -/
def EventData.signal? : EventData → Option Signal
  | .paused id _ => some (.paused id)
  | .resumed id => some (.resumed id)
  | _ => none

/-- What the events of a run tell of its gates, in their order. -/
def World.signals (w : World) (id : Uuid) : List Signal :=
  (w.eventsOf id).filterMap fun ev => ev.data.signal?

/-- What a request means at the gate of the thread that is served. -/
def Request.signal? : Request → Option Signal
  | .emit _ data => data.signal?
  | _ => none

/-- What a reply means at the gate of the thread that is told. -/
def Request.answer? : (r : Request) → r.Reply → Option Signal
  | .awaitApproval _ stepId _ _, verdict => some (.answered stepId verdict)
  | _, _ => none

/-- What the end of a step means at the gate of its thread. -/
def Effect.signal? : Effect → Option Signal
  | .finished (.simple head leaf) _ o _ =>
    if leaf.action = Leaf.approvalAction then some (.ended head.id o) else none
  | _ => none

/-- No event tells what a reply means. -/
theorem Request.filter_answer? (r : Request) (reply : r.Reply) :
    (r.answer? reply).toList.filter Signal.isAnnounced = [] := by
  cases r <;> rfl

/-- No event tells of the end of a step at its gate. -/
theorem Effect.filter_signal? (e : Effect) :
    e.signal?.toList.filter Signal.isAnnounced = [] := by
  unfold signal?
  split
  · split <;> rfl
  · rfl

namespace System

variable {α : Type}

/-- What the move of a thread means at its gate. -/
def signal? (s : System α) (path : Path) (effect : Effect) : Option Signal :=
  match s.leaf? path with
  | some (.ask r _) =>
    match s.world.release r with
    | some reply => r.answer? reply
    | none => r.signal?
  | some (.done _) => none
  | none => effect.signal?

/-- **What a happening means at the gates.** -/
inductive Signals (s : System α) : Happening → System α → List (Path × Signal) → Prop where
  | moved {path l effect opens s'} :
      Signals s (.moved path l effect opens) s' ((s.signal? path effect).toList.map (path, ·))
  | told {path opens r k reply} (hl : s.leaf? path = some (.ask r k)) :
      Signals s (.told path opens) (s.setLeaf path (k reply))
        ((r.answer? reply).toList.map (path, ·))
  | cancelled {r s'} : Signals s (.cancelled r) s' []
  | outside {s'} : Signals s .outside s' []

/-- **A history with what happens at the gates.** -/
inductive Watch (S : Surroundings) :
    System α → List Happening → List (Path × Signal) → System α → Prop where
  | refl (s) : Watch S s [] [] s
  | step {s x s' l h l' s''} (hs : Step S s x s') (hx : Signals s x s' l)
      (hr : Watch S s' h l' s'') : Watch S s (x :: h) (l ++ l') s''

variable {S : Surroundings} {s s' : System α} {x : Happening} {h : List Happening}
  {l : List (Path × Signal)}

theorem Watch.run (hr : Watch S s h l s') : Run S s h s' := by
  induction hr with
  | refl => exact .refl _
  | step hs _ _ ih => exact .step hs ih

theorem Step.exists_signals (hs : Step S s x s') : ∃ l, Signals s x s' l := by
  cases hs with
  | move => exact ⟨_, .moved⟩
  | @tell s' path r reply hw h =>
    unfold System.tell at h
    split at h
    next r' k hl =>
      obtain ⟨reply', -, rfl⟩ := Option.map_eq_some_iff.mp h
      exact ⟨_, .told hl⟩
    next => cases h
  | cancel => exact ⟨_, .cancelled⟩
  | outside => exact ⟨_, .outside⟩

/-- Every history can be watched. -/
theorem Run.exists_watch (hr : Run S s h s') : ∃ l, Watch S s h l s' := by
  induction hr with
  | refl => exact ⟨[], .refl _⟩
  | step hs _ ih =>
    obtain ⟨l, hl⟩ := hs.exists_signals
    obtain ⟨l', hr⟩ := ih
    exact ⟨_, .step hs hl hr⟩

end System

/-! ### Events -/

namespace World

variable {w w' : World} {id : Uuid}

theorem signals_of_events (h : w'.eventsOf id = w.eventsOf id) : w'.signals id = w.signals id := by
  rw [signals, h, signals]

theorem signals_emit (data : EventData) :
    (w.emit id data).signals id = w.signals id ++ data.signal?.toList := by
  rw [signals, eventsOf_emit, List.filterMap_append]
  cases h : data.signal? <;> simp [signals, nextEvent, Event.announce, h]

theorem signals_announced (s : Step) (d : Nat) (o : Outcome) (ms : Nat) :
    (w.announced id s d o ms).signals id = w.signals id := by
  have he : (w.emit id (.ofOutcome s d o ms)).signals id = w.signals id := by
    rw [signals_emit]
    exact List.append_nil _
  unfold announced
  split
  · exact (signals_of_events (like_note rfl).events).trans he
  · exact he

end World

/-- Of the end of a step no event tells at a gate. -/
theorem Setting.signals_observe (engine : Expr.Engine) (config : Config) (a : Assignment)
    (w : World) (e : Effect) :
    ((Setting.ofConfig engine config).observe a w e).signals a.executionId =
      w.signals a.executionId := by
  cases e with
  | finished s d o ms =>
    have hnote : (w.note (.finished s.id d o)).signals a.executionId =
        w.signals a.executionId := World.signals_of_events (World.like_note rfl).events
    rw [Setting.observe_finished]
    split
    · exact hnote
    · rw [World.signals_announced, hnote]
  | _ => rfl

/-! ### Programs of simple steps -/

namespace Leaf

/-- **The program of an approval step**, by where its thread stands. -/
inductive AtGate (a : Assignment) (id : String) : Gate → LeafProgram → Prop where
  | look {k} (h : ∀ b, AtGate a id .idle (k b)) :
      AtGate a id .idle (.ask (.isCancelled a.executionId) k)
  | unasked {e} : AtGate a id .idle (.done (.error e))
  | pause {reason k} (h : ∀ x, AtGate a id (.paused id) (k x)) :
      AtGate a id .idle (.ask (.emit a.executionId (.paused id reason)) k)
  | wait {timeoutSecs prompt k} (h : ∀ v, AtGate a id (.ofVerdict id v) (k v)) :
      AtGate a id (.paused id) (.ask (.awaitApproval a.executionId id timeoutSecs prompt) k)
  | resume {k} (h : ∀ x, AtGate a id (.passed id) (k x)) :
      AtGate a id (.granted id) (.ask (.emit a.executionId (.resumed id)) k)
  | passed {v} : AtGate a id (.passed id) (.done (.ok v))
  | refused {e} : AtGate a id (.refused id) (.done (.error e))

end Leaf

/-- What is asked for a simple step that is handed out, which is no approval step. -/
inductive Request.OfDispatch : Request → Prop where
  | isCancelled {id} : OfDispatch (.isCancelled id)
  | execute {r caller timeoutSecs} (h : r.action ≠ Leaf.approvalAction) :
      OfDispatch (.execute r caller timeoutSecs)

namespace Leaf

/-- **The program of a simple step**, by where its thread stands at its gate. -/
inductive Guards (a : Assignment) (head : Head) (leaf : Leaf) : Gate → LeafProgram → Prop where
  | approval {g p} (ha : leaf.action = approvalAction) (h : AtGate a head.id g p) :
      Guards a head leaf g p
  | other {p} (ha : leaf.action ≠ approvalAction) (h : p.Asks Request.OfDispatch) :
      Guards a head leaf .idle p

variable {a : Assignment} {head : Head} {leaf : Leaf} {g : Gate}

theorem atGate_awaitApproval (engine : Expr.Engine) (config : Config) (a : Assignment)
    (head : Head) (leaf : Leaf) (c : Context) :
    AtGate a head.id .idle (awaitApproval engine config a head leaf c) := by
  rw [awaitApproval_eq]
  refine .look fun cancelled => ?_
  cases (cancelled : Bool) with
  | true => exact .unasked
  | false =>
    simp only [Bool.false_eq_true, if_false]
    split
    · exact .unasked
    · refine .pause fun _ => .wait fun verdict => ?_
      -- by the verdict, of which only an approval is no error
      match verdict with
      | .decided ⟨true, reason⟩ => exact .resume fun _ => .passed
      | .decided ⟨false, reason⟩ => exact .refused
      | .failed message => exact .refused
      | .timedOut => exact .refused
      | .cancelled => exact .refused

/-- What is asked for a simple step has its action. -/
theorem action_of_request {engine : Expr.Engine} {scope : Json} {r : StepRequest}
    (h : request engine head leaf scope = .ok r) : r.action = leaf.action := by
  unfold request at h
  cases hp : resolveFields engine scope leaf.config with
  | error e => simp [hp, bind, Except.bind] at h
  | ok params =>
    cases ht : promptText engine leaf scope with
    | error e => simp [hp, ht, bind, Except.bind] at h
    | ok prompt =>
      simp only [hp, ht, bind, Except.bind, pure, Except.pure, Except.ok.injEq] at h
      rw [← h]

/-- **Every simple step begins at an idle gate.** -/
theorem guards_run (engine : Expr.Engine) (config : Config) (a : Assignment) (head : Head)
    (leaf : Leaf) (depth : Nat) (c : Context) :
    Guards a head leaf .idle (Leaf.run engine config a head leaf depth c) := by
  unfold Leaf.run
  by_cases ha : leaf.action = approvalAction
  · rw [if_pos (by simpa using ha)]
    exact .approval ha (atGate_awaitApproval engine config a head leaf c)
  · rw [if_neg (by simpa using ha)]
    refine .other ha ?_
    unfold dispatch
    split
    · trivial
    next r hr =>
      exact asks_attempt .isCancelled (.execute (action_of_request hr ▸ ha)) _ _

/-- **What is served follows the protocol**, and its events tell what happens at the gate. -/
theorem Guards.serve {w w' : World} {r : Request} {k : r.Reply → LeafProgram} {reply : r.Reply}
    (h : Guards a head leaf g (.ask r k)) (hs : w.serve r = some (reply, w')) :
    ∃ g', g.Run r.signal?.toList g' ∧ Guards a head leaf g' (k reply) ∧
      w'.signals a.executionId =
        w.signals a.executionId ++ r.signal?.toList.filter Signal.isAnnounced := by
  cases h with
  | approval ha h =>
    cases h with
    | look h =>
      cases hs
      exact ⟨_, .refl _, .approval ha (h _), (List.append_nil _).symm⟩
    | pause h =>
      cases hs
      exact ⟨_, .single .pause, .approval ha (h _), World.signals_emit _⟩
    | wait h => cases hs
    | resume h =>
      cases hs
      exact ⟨_, .single .resume, .approval ha (h _), World.signals_emit _⟩
  | other ha h =>
    obtain ⟨hr, hk⟩ := h
    cases hr with
    | isCancelled =>
      cases hs
      exact ⟨_, .refl _, .other ha (hk _), (List.append_nil _).symm⟩
    | execute => cases hs

/-- **What is told follows the protocol.** -/
theorem Guards.tell {w : World} {r : Request} {k : r.Reply → LeafProgram}
    (h : Guards a head leaf g (.ask r k)) (hs : w.serve r = none) (reply : r.Reply) :
    ∃ g', g.Run (r.answer? reply).toList g' ∧ Guards a head leaf g' (k reply) := by
  cases h with
  | approval ha h =>
    cases h with
    | wait h => exact ⟨_, .single .answer, .approval ha (h reply)⟩
    | _ => cases hs
  | other ha h =>
    obtain ⟨hr, hk⟩ := h
    cases hr with
    | isCancelled => cases hs
    | execute => exact ⟨_, .refl _, .other ha (hk _)⟩

/-- **An approval step has failed unless it was resumed.** -/
theorem Guards.done {r : Except StepError Json} (h : Guards a head leaf g (.done r)) :
    leaf.action = approvalAction ∧ g.Step (.ended head.id (Task.leafOutcome head r)) .idle ∨
      leaf.action ≠ approvalAction ∧ g = .idle := by
  have herror : ∀ e, (Task.leafOutcome head (.error e)).failure? ≠ none := by
    intro e
    unfold Task.leafOutcome
    dsimp only
    split
    · exact nofun
    · split
      · exact nofun
      · exact nofun
  cases h with
  | approval ha h =>
    refine .inl ⟨ha, ?_⟩
    cases h with
    | unasked => exact .unasked (herror _)
    | passed => exact .complete rfl
    | refused => exact .fail (herror _)
  | other ha => exact .inr ⟨ha, rfl⟩

/-- **No approval step is handed out.** -/
theorem Guards.action_ne {r : StepRequest} {caller : Caller} {timeoutSecs : Option Nat}
    {k : Option StepResponse → LeafProgram}
    (h : Guards a head leaf g (.ask (.execute r caller timeoutSecs) k)) :
    r.action ≠ approvalAction := by
  cases h with
  | approval ha h => cases h
  | other ha h =>
    cases h.1 with
    | execute h => exact h

end Leaf

end WorkflowEngine
