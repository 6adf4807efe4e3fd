import Mathlib.Logic.Function.Basic
import WorkflowEngine.Proofs.Run.Gate
import WorkflowEngine.Proofs.Run.Results
import WorkflowEngine.Proofs.Run.Within

/-!
# Approval gates

An approval step is never handed out, and its gate is passed only with an approval. So whatever is
around it, the next step of its list begins only after an approval, or where the workflow itself
says that failures do not matter.

## Main definitions

* `Request.OfRun`: what a run asks for besides its simple steps
* `Passage.GatedAt`, `System.IsGated`: where threads stand at their gates
* `World.Gates`: what has happened at the gates since
* `System.HoldsBack`: a failure holds back what is next in its list

## Main results

* `Passage.Step.gated`: what happens while a step is run follows the protocol at every gate
* `System.Run.holdsBack`: a simple step that has failed holds back the next one
* `run_guards_approvals`: approval gates hold
-/

namespace WorkflowEngine

/-! ### What a run asks for besides its simple steps -/

/-- What a run asks for besides its simple steps. -/
inductive Request.OfRun : Request → Prop where
  | routine {r : Request} (hr : r.IsRoutine) : OfRun r
  | endRun {id} : OfRun (.endRun id)
  | runStep {a s c} : OfRun (.runStep a s c)

/-- What is routine means nothing at a gate. -/
theorem Request.IsRoutine.signal? {r : Request} (h : r.IsRoutine) : r.signal? = none := by
  cases h with
  | emit hd =>
    rename_i data
    cases data with
    | paused => cases hd
    | resumed => cases hd
    | _ => rfl
  | plain hr hd =>
    cases r with
    | emit id data => exact absurd rfl (hd id data)
    | _ => rfl

/-- What a request announces in a run means what the request means. -/
theorem Request.signal?_of_event? {r : Request} {id : Uuid} {w : World} {ev : Event}
    (h : r.event? id w = some ev) : ev.data.signal? = r.signal? := by
  cases r with
  | emit i data =>
    rw [event?] at h
    split at h
    next => cases h; rfl
    next => cases h
  | _ => cases h

namespace World

variable {w w' : World} {id : Uuid}

/-- **What is routine tells nothing of gates.** -/
theorem signals_serve {r : Request} {reply : r.Reply} (hr : r.OfRun)
    (hs : w.serve r = some (reply, w')) : w'.signals id = w.signals id := by
  have hquiet : r.signal? = none := by
    cases hr with
    | routine hr => exact hr.signal?
    | endRun | runStep => rfl
  rw [signals, eventsOf_serve hs, List.filterMap_append]
  cases h : r.event? id w with
  | none => exact List.append_nil _
  | some ev => simp [Request.signal?_of_event? h, hquiet, signals]

theorem signals_perform {α : Type} {p : Program α} {x : α} (hp : p.Asks Request.OfRun)
    (h : w.perform p = some (x, w')) : w'.signals id = w.signals id := by
  induction p generalizing w with
  | done y =>
    cases h
    rfl
  | ask r k ih =>
    rw [perform] at h
    cases hs : w.serve r with
    | none =>
      rw [hs] at h
      cases h
    | some y =>
      obtain ⟨reply, w₁⟩ := y
      rw [hs] at h
      exact (ih reply (hp.2 reply) h).trans (signals_serve hp.1 hs)

end World

namespace Orchestration

/-- What is routine is asked for. -/
theorem IsRoutine.ofRun {α : Type} {p : Orchestration α} (h : IsRoutine p) :
    Asks Request.OfRun p :=
  Asks.mono h fun _ => .routine

/-- **Besides its simple steps a run asks for routine things only.** -/
theorem asks_run (engine : Expr.Engine) (id : Uuid) : Asks Request.OfRun (run engine id) := by
  refine .bind (isQuiet_load id).isRoutine.ofRun fun e => ?_
  split
  · exact .throw _
  refine .bind (.lift (isQuiet_runnable e.workflowId).isRoutine.ofRun) fun r => ?_
  split
  · exact .bind (isQuiet_markFailed _ _).isRoutine.ofRun fun _ => .throw _
  · refine .bind (.lift (.request (.routine (.plain .beginRun nofun)))) fun _ => ?_
    exact Program.Asks.bind (asks_drive (fun _ => .routine) engine e fun _ _ _ _ => .runStep)
      fun r => ⟨.endRun, fun _ => trivial⟩

end Orchestration

/-! ### While a step is run -/

/-- **What has happened at the gates since**: it follows the protocol at each of them, and the
events of the run tell of it. -/
structure World.Gates (id : Uuid) (w w' : World) (gate gate' : Path → Gate)
    (l : List (Path × Signal)) : Prop where
  run : ∀ path, (gate path).Run (Signal.ofThread path l) (gate' path)
  signals : w'.signals id = w.signals id ++ (l.map Prod.snd).filter Signal.isAnnounced

namespace World.Gates

variable {id : Uuid} {w w' w'' : World} {gate gate' gate'' : Path → Gate}
  {l l' : List (Path × Signal)}

/-- Nothing has happened at the gates. -/
theorem nothing (h : w'.signals id = w.signals id) : Gates id w w' gate gate [] :=
  ⟨fun path => .refl (gate path), by rw [h]; exact (List.append_nil _).symm⟩

theorem trans (h : Gates id w w' gate gate' l) (h' : Gates id w' w'' gate' gate'' l') :
    Gates id w w'' gate gate'' (l ++ l') := by
  refine ⟨fun path => ?_, ?_⟩
  · rw [Signal.ofThread_append]
    exact (h.run path).trans (h'.run path)
  · rw [h'.signals, h.signals, List.map_append, List.filter_append, List.append_assoc]

/-- Something has happened at one gate. -/
theorem single {path : Path} {g : Gate} {xs : List Signal} (hr : (gate path).Run xs g)
    (hs : w'.signals id = w.signals id ++ xs.filter Signal.isAnnounced) :
    Gates id w w' gate (Function.update gate path g) (xs.map (path, ·)) := by
  refine ⟨fun q => ?_, ?_⟩
  · rw [Signal.ofThread_map]
    by_cases hq : path = q
    · subst hq
      rwa [if_pos rfl, Function.update_self]
    · rw [if_neg hq, Function.update_of_ne (Ne.symm hq)]
      exact .refl (gate q)
  · rw [hs, List.map_map]
    simp [Function.comp_def]

end World.Gates

namespace Passage

variable {engine : Expr.Engine} {config : Config} {id : Uuid}
  {rule : Execution → Execution → Prop} {a : Assignment} {st st' : Passage} {x : Happening}
  {path q : Path} {g : Gate} {gate : Path → Gate}

/-- **Where a thread stands at its gate**: in the middle of a simple step, after an approval step
whose end is about to be told, or at an idle gate. -/
inductive GatedAt (a : Assignment) (st : Passage) (path : Path) : Gate → Prop where
  | within {p head leaf d c g} (hl : st.leaf? path = some p)
      (hc : st.task.callAt? path = some (head, leaf, d, c)) (hg : Leaf.Guards a head leaf g p) :
      GatedAt a st path g
  | ended {head leaf o g} (hl : st.leaf? path = none)
      (he : st.task.ended? path = some (.simple head leaf, o))
      (ha : leaf.action = Leaf.approvalAction) (hg : g.Step (.ended head.id o) .idle) :
      GatedAt a st path g
  | idle (hl : st.leaf? path = none)
      (he : ∀ head leaf o, st.task.ended? path = some (.simple head leaf, o) →
        leaf.action ≠ Leaf.approvalAction) : GatedAt a st path .idle

/-- A thread stands where it stood as long as neither its simple step nor its outcome changes. -/
theorem GatedAt.of_eq (h : st.GatedAt a q g) (hl : st'.leaf? q = st.leaf? q)
    (hc : ∀ x, st.task.callAt? q = some x → st'.task.callAt? q = some x)
    (he : st'.task.ended? q = st.task.ended? q) : st'.GatedAt a q g := by
  cases h with
  | within hl' hc' hg => exact .within (hl.trans hl') (hc _ hc') hg
  | ended hl' he' ha hg => exact .ended (hl.trans hl') (he.trans he') ha hg
  | idle hl' he' => exact .idle (hl.trans hl') (he.symm ▸ he')

/-- A thread of which nothing is to be told stands at an idle gate. -/
theorem GatedAt.eq_idle (h : st.GatedAt a path g) (hl : st.leaf? path = none)
    (he : st.task.ended? path = none) : g = .idle := by
  cases h with
  | within hl' => cases hl.symm.trans hl'
  | ended _ he' => cases he.symm.trans he'
  | idle => rfl

/-- A thread that does a simple step is in the middle of it. -/
theorem GatedAt.guards {p : LeafProgram} (h : st.GatedAt a path g) (hl : st.leaf? path = some p) :
    ∃ head leaf d c, st.task.callAt? path = some (head, leaf, d, c) ∧
      Leaf.Guards a head leaf g p := by
  cases h with
  | within hl' hc hg =>
    obtain rfl := Option.some.inj (hl.symm.trans hl')
    exact ⟨_, _, _, _, hc, hg⟩
  | ended hl' => cases hl.symm.trans hl'
  | idle hl' => cases hl.symm.trans hl'

/-- A thread that does no simple step moves: what it tells follows the protocol. -/
theorem GatedAt.turns {e : Effect} (h : st.GatedAt a path g) (hl : st.leaf? path = none)
    (hl' : st'.leaf? path = none)
    (ht : Task.Turns e (st.task.ended? path) (st'.task.ended? path)) :
    ∃ g', g.Run e.signal?.toList g' ∧ st'.GatedAt a path g' := by
  generalize hx : st.task.ended? path = x at ht
  generalize hx' : st'.task.ended? path = x' at ht
  cases ht with
  | @told s d o ms he =>
    subst he
    have hidle : st'.GatedAt a path .idle := by
      refine .idle hl' fun head leaf o ho => ?_
      cases hx'.symm.trans ho
    cases h with
    | within hl₁ => cases hl.symm.trans hl₁
    | @ended head leaf _ _ _ he ha hg =>
      cases hx.symm.trans he
      rw [Effect.signal?, if_pos ha]
      exact ⟨_, .single hg, hidle⟩
    | idle _ he =>
      have hnone : (Effect.finished s d o ms).signal? = none := by
        cases s with
        | simple head leaf => exact if_neg (he head leaf o hx)
        | _ => rfl
      rw [hnone]
      exact ⟨_, .refl _, hidle⟩
  | untold he hcancelled =>
    obtain rfl := h.eq_idle hl hx
    have hnone : e.signal? = none := by
      cases e with
      | finished => cases he
      | _ => rfl
    rw [hnone]
    refine ⟨_, .refl _, ?_⟩
    -- the step may be over at once, if the run is cancelled
    by_cases hsimple : ∃ head leaf o, x' = some (.simple head leaf, o) ∧
        leaf.action = Leaf.approvalAction
    · obtain ⟨head, leaf, o, ho, ha⟩ := hsimple
      obtain rfl := hcancelled head leaf o ho
      exact .ended hl' (hx'.trans ho) ha (.unasked nofun)
    · refine .idle hl' fun head leaf o ho ha => hsimple ⟨head, leaf, o, hx'.symm.trans ho, ha⟩

/-- All threads stand at their gates. -/
def IsGated (a : Assignment) (st : Passage) (gate : Path → Gate) : Prop :=
  ∀ path, st.GatedAt a path (gate path)

/-- One thread has come to another place. -/
theorem IsGated.update (h : st'.GatedAt a path g)
    (hothers : ∀ q, q ≠ path → st'.GatedAt a q (gate q)) :
    st'.IsGated a (Function.update gate path g) := by
  intro q
  by_cases hq : q = path
  · subst hq
    rwa [Function.update_self]
  · rw [Function.update_of_ne hq]
    exact hothers q hq

/-- A simple step of a thread goes on. -/
theorem IsGated.setLeaf {p : LeafProgram} {head : Head} {leaf : Leaf} {d : Nat} {c : Context}
    (hst : st.IsGated a gate) (hc : st.task.callAt? path = some (head, leaf, d, c))
    (hg : Leaf.Guards a head leaf g p) (w : World) :
    (Passage.setLeaf { st with world := w } path p).IsGated a (Function.update gate path g) := by
  refine .update (.within ?_ hc hg) fun q hq => ?_
  · rw [leaf?_setLeaf, if_pos rfl]
  · refine (hst q).of_eq ?_ (fun _ h => h) rfl
    rw [leaf?_setLeaf, if_neg hq]
    rfl

/-- **What happens while a step is run follows the protocol at every gate**, and the events of the
run tell of it. -/
theorem Step.gated {α : Type} {next : Outcome × Context → Program α} {root : WorkflowEngine.Step}
    {d₀ : Nat} {l : List (Path × Signal)} (ha : a.executionId = id)
    (hp : Task.Placed root d₀ st.task) (hst : st.IsGated a gate)
    (h : Passage.Step (.ofRun engine config id rule) a st x st')
    (hx : (st.toSystem a next).Signals x (st'.toSystem a next) l) :
    ∃ gate', st'.IsGated a gate' ∧ World.Gates id st.world st'.world gate gate' l := by
  subst ha
  cases h with
  | @advance path ms t e hl h =>
    cases hx
    obtain ⟨hturns, hothers⟩ := hp.ended?_moves h
    obtain ⟨g, hr, hg⟩ : ∃ g, (gate path).Run e.signal?.toList g ∧
        GatedAt a ⟨(Setting.ofConfig engine config).observe a st.world e, t, st.leaves⟩ path g :=
      (hst path).turns hl hl hturns
    refine ⟨Function.update gate path g, .update hg fun q hq => ?_, ?_⟩
    · exact (hst q).of_eq rfl (fun _ hc => h.callAt?_eq hc) (hothers q hq)
    · have hs : (st.toSystem a next).signal? path e = e.signal? := by
        have hl : (st.toSystem a next).leaf? path = none := hl
        rw [System.signal?, hl]
      rw [hs]
      refine .single hr ((Setting.signals_observe engine config a st.world e).trans ?_)
      rw [e.filter_signal?, List.append_nil]
  | @call path head leaf d c hl hc =>
    cases hx
    have hidle := (hst path).eq_idle hl (Task.ended?_of_callAt? hc)
    have hg := Leaf.guards_run engine config a head leaf d c
    rw [← hidle] at hg
    refine ⟨_, hst.setLeaf hc hg st.world, ?_⟩
    have hs : (st.toSystem a next).signal? path .silent = none := by
      have hl : (st.toSystem a next).leaf? path = none := hl
      rw [System.signal?, hl]
      rfl
    rw [hs, Function.update_eq_self]
    exact .nothing rfl
  | @serve path r k reply w' hl h =>
    cases hx
    obtain ⟨head, leaf, d, c, hc, hg⟩ := (hst path).guards hl
    obtain ⟨g, hr, hg, hsignals⟩ := hg.serve h
    refine ⟨_, hst.setLeaf hc hg w', ?_⟩
    have hs : (st.toSystem a next).signal? path .silent = r.signal? := by
      have hl : (st.toSystem a next).leaf? path = some (.ask r k) := hl
      have hn : (st.toSystem a next).world.release r = none := World.release_eq_none_of_serve h
      simp only [System.signal?, hl, hn]
    rw [hs]
    exact .single hr hsignals
  | @answer path r t hl h =>
    cases hx
    obtain ⟨head, leaf, d, c, hc, hg⟩ := (hst path).guards hl
    obtain ⟨⟨head', leaf', d', c', hc', hended⟩, hothers⟩ := hp.ended?_answers h
    cases hc.symm.trans hc'
    have hs : (st.toSystem a next).signal? path .silent = none := by
      have hl : (st.toSystem a next).leaf? path = some (.done r) := hl
      rw [System.signal?, hl]
    rw [hs]
    refine ⟨gate, fun q => ?_, .nothing rfl⟩
    have hl' : (st.others path).lookup q = if q = path then none else st.leaf? q :=
      lookup_others st path q
    by_cases hq : q = path
    · subst hq
      rw [if_pos rfl] at hl'
      rcases hg.done with ⟨ha, hstep⟩ | ⟨ha, hidle⟩
      · exact .ended hl' hended ha hstep
      · rw [hidle]
        refine .idle hl' fun head' leaf' o ho => ?_
        cases hended.symm.trans ho
        exact ha
    · rw [if_neg hq] at hl'
      exact (hst q).of_eq hl' (fun _ hc => h.callAt?_eq hq hc) (hothers q hq)
  | @release path r k reply hl h =>
    cases hx
    obtain ⟨head, leaf, d, c, hc, hg⟩ := (hst path).guards hl
    obtain ⟨g, hr, hg⟩ := hg.tell (World.serve_eq_none_of_release h) reply
    refine ⟨_, hst.setLeaf hc hg st.world, ?_⟩
    have hs : (st.toSystem a next).signal? path .silent = r.answer? reply := by
      have hl : (st.toSystem a next).leaf? path = some (.ask r k) := hl
      have hrelease : (st.toSystem a next).world.release r = some reply := h
      simp only [System.signal?, hl, hrelease]
    rw [hs]
    refine .single hr ?_
    rw [r.filter_answer?, List.append_nil]
    rfl
  | @tell path r k reply hl h =>
    generalize hs' : (st.setLeaf path (k reply)).toSystem a next = s' at hx
    cases hx with
    | @told _ _ r' k' reply' hl' =>
      cases hl.symm.trans hl'
      -- what the thread goes on with is what follows the reply that is seen
      have hk : k reply = k reply' := by
        simp [setLeaf, toSystem, System.setLeaf] at hs'
        exact hs'.1
      rw [hk]
      obtain ⟨head, leaf, d, c, hc, hg⟩ := (hst path).guards hl
      obtain ⟨g, hr, hg⟩ := hg.tell h reply'
      refine ⟨_, hst.setLeaf hc hg st.world, .single hr ?_⟩
      rw [r.filter_answer?, List.append_nil]
      rfl
  | cancel _ h =>
    cases hx
    refine ⟨gate, fun q => (hst q).of_eq rfl (fun _ h => h) rfl, .nothing ?_⟩
    exact World.signals_perform (Orchestration.isQuiet_cancel a.executionId).isRoutine.ofRun h
  | outside _ h =>
    cases hx
    refine ⟨gate, fun q => (hst q).of_eq rfl (fun _ h => h) rfl, .nothing ?_⟩
    exact World.signals_of_events h.like.events

end Passage

/-! ### In a run -/

variable {engine : Expr.Engine} {config : Config} {id : Uuid}
  {rule : Execution → Execution → Prop} {w : World} {h : List Happening}
  {l : List (Path × Signal)} {s s' : System (Except RunError Summary)}

namespace System

variable {gate : Path → Gate} {x : Happening}

/-- All threads stand at their gates, and the program is that of a run. Between steps the gates are
idle. -/
def IsGated (s : System (Except RunError Summary)) (gate : Path → Gate) : Prop :=
  match s.main with
  | .program p => p.Asks Request.OfRun ∧ ∀ path, gate path = .idle
  | .stepping a t k =>
    (∀ x, (k x).Asks Request.OfRun) ∧ Passage.IsGated a ⟨s.world, t, s.leaves⟩ gate

/-- A thread that does no simple step means nothing by a silent move. -/
theorem signal?_silent {α : Type} {s : System α} {path : Path} (hl : s.leaf? path = none) :
    s.signal? path .silent = none := by
  rw [signal?, hl]
  rfl

/-- A step of a program means nothing at the gates. -/
theorem Signals.eq_nil_of_silent (hl : s.leaf? [] = none) (hx : Signals s .silent s' l) :
    l = [] := by
  generalize hy : Happening.silent = x at hx
  cases hx with
  | moved =>
    cases hy
    rw [signal?_silent hl]
    rfl
  | _ => cases hy

/-- **What happens in a run follows the protocol at every gate.** -/
theorem Step.gated
    (hr : Run (.ofRun engine config id rule)
      (.ofProgram w (ExceptT.run (Orchestration.run engine id))) h s)
    (hs : s.IsGated gate) (h : Step (.ofRun engine config id rule) s x s')
    (hx : Signals s x s' l) :
    ∃ gate', s'.IsGated gate' ∧ World.Gates id s.world s'.world gate gate' l := by
  rcases hr.reaches.eq_ofProgram_or_toSystem with ⟨w', p, rfl⟩ | ⟨st, a, k, rfl⟩
  · obtain ⟨hp, hidle⟩ := hs
    obtain ⟨rfl, ⟨r, k, reply, w₁, rfl, hserve, rfl⟩ | ⟨a, step, c, k, rfl, rfl⟩⟩ := h.of_program
    · obtain rfl := hx.eq_nil_of_silent rfl
      exact ⟨gate, ⟨hp.2 reply, hidle⟩, .nothing (World.signals_serve hp.1 hserve)⟩
    · obtain rfl := hx.eq_nil_of_silent rfl
      refine ⟨gate, ⟨hp.2, fun path => ?_⟩, .nothing rfl⟩
      -- a step that begins has no outcome yet
      rw [hidle path]
      refine .idle rfl fun head leaf o ho => ?_
      cases path <;> cases ho
  · obtain ⟨hk, hst⟩ := hs
    obtain ⟨ha, totalSteps, k', hin, -⟩ := hr.reaches.stepping_of_run
    obtain ⟨-, hr'⟩ := hin
    rcases h.of_toSystem with ⟨st', hs', rfl⟩ | ⟨o, ho, rfl, rfl⟩
    · obtain ⟨gate', hst', hgates⟩ := hs'.gated ha (hr'.placed (.start _ _ _)) hst hx
      exact ⟨gate', ⟨hk, hst'⟩, hgates⟩
    · -- nothing is left to be told of a step that is over
      have hidle : ∀ path, st.leaf? path = none ∧ gate path = .idle := by
        intro path
        have hleaf : st.leaf? path = none := by
          cases hl : st.leaf? path with
          | none => rfl
          | some p =>
            obtain ⟨head, leaf, d, c, hc, -⟩ := (hst path).guards hl
            cases (Task.callAt?_of_outcome? ho).symm.trans hc
        exact ⟨hleaf, (hst path).eq_idle hleaf (Task.ended?_of_outcome? ho)⟩
      have hl : l = [] := by
        cases hx
        rw [signal?_silent (s := st.toSystem a k) (hidle []).1]
        rfl
      subst hl
      exact ⟨gate, ⟨hk _, fun path => (hidle path).2⟩, .nothing rfl⟩

/-- **What has happened in a run follows the protocol at every gate**, from the beginning. -/
theorem Watch.gated {h' : List Happening}
    (hr : Run (.ofRun engine config id rule)
      (.ofProgram w (ExceptT.run (Orchestration.run engine id))) h s)
    (hs : s.IsGated gate) (hw : Watch (.ofRun engine config id rule) s h' l s') :
    ∃ gate', s'.IsGated gate' ∧ World.Gates id s.world s'.world gate gate' l := by
  induction hw generalizing h gate with
  | refl => exact ⟨gate, hs, .nothing rfl⟩
  | step hs' hx _ ih =>
    obtain ⟨gate₁, h₁, hg₁⟩ := hs'.gated hr hs hx
    obtain ⟨gate₂, h₂, hg₂⟩ := ih (hr.trans (.step hs' (.refl _))) h₁
    exact ⟨gate₂, h₂, hg₁.trans hg₂⟩

end System

/-! ### What follows a failure -/

namespace System

variable {α : Type} {S : Surroundings} {s s' : System α} {x : Happening} {path : Path}

/-- The thread is in the same pass over the list of a frame. -/
def IsWithin (s : System α) (path : Path) (f : Frame) (fs : List Frame) : Prop :=
  ∃ t, s.task? path = some t ∧ t.IsWithin f fs

/-- The thread is at the end of a step of a list that has failed, or right behind it. -/
def HasFailed (s : System α) (path : Path) (e : StepError) (fs : List Frame) : Prop :=
  ∃ c, (∃ y d, s.task? path = some (.mk c (.settled (.error e)) (.finish y d :: fs))) ∨
    s.task? path = some (.mk c (.settled (.error e)) fs)

variable {e : StepError} {f : Frame} {fs : List Frame}

/-- **What has failed comes no further in its pass.** -/
theorem Step.hasFailed (h : Step S s x s') (hs : s.HasFailed path e (f :: fs))
    (hf : ¬ f.GoesOn) (hw : s'.IsWithin path f fs) : s'.HasFailed path e (f :: fs) := by
  obtain ⟨t', ht', hwithin⟩ := hw
  obtain ⟨c, ⟨y, d, ht⟩ | ht⟩ := hs
  · rcases h.task?_settled ht with h' | ⟨t, m, eff, hadv, h'⟩
    · exact ⟨c, .inl ⟨y, d, h'⟩⟩
    · cases hadv
      exact ⟨_, .inr h'⟩
  · rcases h.task?_settled ht with h' | ⟨t, m, eff, hadv, h'⟩
    · exact ⟨c, .inr h'⟩
    · -- the frame would be gone
      obtain rfl := Option.some.inj (ht'.symm.trans h')
      have hlt := hwithin.length_lt
      rw [Task.frames_of_failed hadv hf] at hlt
      omega

theorem RunWhile.hasFailed {h : List Happening}
    (hr : RunWhile S (fun s => s.IsWithin path f fs) s h s')
    (hs : s.HasFailed path e (f :: fs)) (hf : ¬ f.GoesOn) : s'.HasFailed path e (f :: fs) := by
  induction hr with
  | refl => exact hs
  | step _ hx hr ih => exact ih (hx.hasFailed hs hf hr.first)

end System

/-- The outcome of a step does not change when it is told. -/
theorem Passage.Run.outcome_of_settled {S : Surroundings} {a : Assignment} {st st' : Passage}
    {h : List Happening} {c : Context} {o o' : Outcome} {y : WorkflowEngine.Step} {d : Nat}
    (hr : Passage.Run S a st h st') (ht : st.task = .mk c (.settled o) [.finish y d])
    (ho : st'.task.outcome? = some o') : o' = o := by
  induction hr with
  | refl =>
    rw [ht] at ho
    cases ho
  | @step st x st₁ h st' hs hr ih =>
    have hat : st.task.at? [] = some (.mk c (.settled o) [.finish y d]) := congrArg some ht
    cases hs with
    | advance _ hm =>
      rcases hm.affects hat rfl with ⟨r, u, -, hm, h'⟩ | ⟨-, h'⟩
      · -- it has been told, and the step is over
        cases hm.advance_eq nofun
        obtain rfl := Option.some.inj h'
        rw [hr.task_of_over rfl] at ho
        exact (Option.some.inj ho).symm
      · exact ih (Option.some.inj h') ho
    | answer _ ha =>
      rcases ha.affects hat with ⟨r, u, -, ha, -⟩ | ⟨-, h'⟩
      · cases ha
      · exact ih (Option.some.inj h') ho
    | _ => exact ih ht ho

/-- After a step at the top level that has failed, a run begins no other one, unless the step says
that it goes on. -/
theorem Orchestration.isPlain_afterStep {a : Assignment} {totalSteps : Nat} {y : Step}
    {steps : List Step} {e : StepError} {c : Context} (hy : y.policy.continueOnError = false) :
    IsPlain (afterStep a totalSteps y steps (.error e, c)) := by
  unfold afterStep
  dsimp only
  split
  · exact isPlain_finishCancelled _ _ _
  refine .bind (isPlain_announceStep _ _ _ _ _) fun _ => .bind (isPlain_persist _ _) fun _ => ?_
  refine .bind (isPlain_cancelRequested _) fun cancelled => ?_
  rw [hy]
  cases cancelled
  · exact isPlain_finishFailed _ _ _ _
  · exact isPlain_finishCancelled _ _ _

namespace Task.Placed

variable {root : Step} {d₀ d : Nat} {c : Context} {o : Outcome} {head : Head} {leaf : Leaf}
  {fs : List Frame}

/-- A failure of a simple step that does not say that it goes on counts. -/
theorem error_of_failure?
    (ht : Placed root d₀ (.mk c (.settled o) (.finish (.simple head leaf) d :: fs)))
    (ho : o.failure? ≠ none) (hc : head.policy.continueOnError = false) : ∃ e, o = .error e := by
  cases ht with
  | returned h => cases h
  | ended _ hrecovers =>
    match o with
    | .error e => exact ⟨e, rfl⟩
    | .ok (.recovered e) =>
      obtain ⟨_, _, ⟨⟩, hc'⟩ := hrecovers e rfl
      cases hc.symm.trans hc'
    | .ok (.value _) | .ok (.branch ..) | .ok (.loop ..) | .ok (.parallel _) =>
      exact absurd rfl ho

/-- The step that nothing else waits for is the whole one. -/
theorem eq_of_ended {y : Step} (ht : Placed root d₀ (.mk c (.settled o) [.finish y d])) :
    root = y := by
  cases ht with
  | returned h => cases h
  | ended h => cases h; rfl

end Task.Placed

/-- **A failure holds back what is next in the list of a thread**: in the same pass over a branch,
or a body whose loop does not go on after failures, no step begins any more, and no other step at
the top level begins. -/
structure System.HoldsBack {α : Type} (S : Surroundings) (s : System α) (path : Path)
    (fs : List Frame) : Prop where
  within : ∀ f fs' h s' c y d fs'', fs = f :: fs' → ¬ f.GoesOn →
    RunWhile S (fun s => s.IsWithin path f fs') s h s' →
    s'.task? path ≠ some (.mk c (.enter y d) fs'')
  atTop : ∀ h begun s', path = [] → fs = [] → Course S s h begun s' → begun = []

/-- **A simple step that has failed holds back the next one**, unless it says that the list goes
on. -/
theorem System.Run.holdsBack {path : Path} {c : Context} {o : Outcome} {head : Head} {leaf : Leaf}
    {d : Nat} {fs : List Frame}
    (hr : System.Run (.ofRun engine config id rule)
      (.ofProgram w (ExceptT.run (Orchestration.run engine id))) h s)
    (ht : s.task? path = some (.mk c (.settled o) (.finish (.simple head leaf) d :: fs)))
    (ho : o.failure? ≠ none) (hc : head.policy.continueOnError = false) :
    s.HoldsBack (.ofRun engine config id rule) path fs := by
  rcases hr.reaches.eq_ofProgram_or_toSystem with ⟨w', p, rfl⟩ | ⟨st, a, k, rfl⟩
  · cases ht
  obtain ⟨-, totalSteps, k', hin, rfl⟩ := hr.reaches.stepping_of_run
  obtain @⟨w₀, c₀, step, steps, h₀, _, -, hrun⟩ := hin
  have hplaced : Task.Placed step 0 st.task := hrun.placed (.start _ _ _)
  obtain ⟨e, rfl⟩ : ∃ e, o = .error e := by
    have hat : st.task.at? path = some _ := ht
    obtain ⟨root, d₀, hu⟩ := hplaced.at? hat
    exact hu.error_of_failure? ho hc
  constructor
  · rintro f fs' h' s' c' y d' fs'' rfl hf hw hy
    obtain ⟨c₁, ⟨y₁, d₁, h₁⟩ | h₁⟩ := hw.hasFailed ⟨c, .inl ⟨_, _, ht⟩⟩ hf
    · cases hy.symm.trans h₁
    · cases hy.symm.trans h₁
  · rintro h' begun s' rfl rfl hcourse
    have htask : st.task = .mk c (.settled (.error e)) [.finish (.simple head leaf) d] :=
      Option.some.inj ht
    rcases hcourse.of_toSystem with ⟨-, -, -, rfl⟩ | ⟨h₁, st', o', h₂, hst, ho', -, hcourse⟩
    · rfl
    -- the step is the one that the run goes on after
    obtain rfl := hst.outcome_of_settled htask ho'
    rw [htask] at hplaced
    obtain rfl := hplaced.eq_of_ended
    have hsound : st'.Sound := ((Passage.Sound.start w₀ _ c₀ 0).run hrun).run hst
    rw [hsound.leaves_eq_nil ho'] at hcourse
    obtain ⟨l₁, l₂, rfl, h₁, h₂⟩ := hcourse.mayBegin.1.bind
    have hl₁ : l₁ = [] := List.prefix_nil.mp
      (Orchestration.Takes.of_plain
        (Orchestration.isPlain_afterStep (y := .simple head leaf) hc) _ _ h₁)
    have hl₂ : l₂ = [] := by
      rcases h₂ with rfl | ⟨r, w', h₂⟩
      · rfl
      · cases h₂ with
        | nothing => rfl
        | serve _ h => exact h.of_done
    rw [hl₁, hl₂, List.append_nil]

/-! ### Approval gates -/

/-- No thread of a run has an approval step handed out. -/
theorem System.IsGated.action_ne {gate : Path → Gate} {path : Path} {r : StepRequest}
    {caller : Caller} {timeoutSecs : Option Nat}
    (hr : System.Run (.ofRun engine config id rule)
      (.ofProgram w (ExceptT.run (Orchestration.run engine id))) h s)
    (hs : s.IsGated gate) (hwaits : s.waitsFor? path = some (.execute r caller timeoutSecs)) :
    r.action ≠ Leaf.approvalAction := by
  rcases hr.reaches.eq_ofProgram_or_toSystem with ⟨w', p, rfl⟩ | ⟨st, a, k, rfl⟩
  · cases hwaits
  have hwaits : st.waitsFor? path = some (.execute r caller timeoutSecs) := hwaits
  unfold Passage.waitsFor? at hwaits
  split at hwaits
  next r' k hl =>
    split at hwaits
    · cases hwaits
    · cases hwaits
      obtain ⟨head, leaf, d, c, -, hg⟩ := (hs.2 path).guards hl
      exact hg.action_ne
  next => cases hwaits

/-- **Approval gates hold**, at any depth and whatever happens meanwhile.

* No approval step is handed out to be executed.
* The events of a run tell of its gates what happens there and nothing else.
* At the gate of each thread a step is resumed right after the approval that it has paused for, and
  only then; it ends without failure exactly when it has been resumed. In a run that is over every
  approval has been followed by its resumption.
* A step that has failed holds back the next one of its list, unless it says that the list goes
  on. -/
theorem run_guards_approvals
    (hr : System.Watch (.ofRun engine config id rule)
      (.ofProgram w (ExceptT.run (Orchestration.run engine id))) h l s) :
    (∀ path r caller timeoutSecs, s.waitsFor? path = some (.execute r caller timeoutSecs) →
      r.action ≠ Leaf.approvalAction) ∧
    s.world.signals id = w.signals id ++ (l.map Prod.snd).filter Signal.isAnnounced ∧
    (∀ path, Signal.Guarded (Signal.ofThread path l) ∧
      (s.result?.isSome = true →
        (Signal.ofThread path l).filterMap Signal.approved? =
          (Signal.ofThread path l).filterMap Signal.resumed?)) ∧
    ∀ path c o head leaf d fs,
      s.task? path = some (.mk c (.settled o) (.finish (.simple head leaf) d :: fs)) →
      o.failure? ≠ none → head.policy.continueOnError = false →
      s.HoldsBack (.ofRun engine config id rule) path fs := by
  -- in the beginning all gates are idle
  have hstart : (System.ofProgram w (ExceptT.run (Orchestration.run engine id))).IsGated
      fun _ => .idle := ⟨Orchestration.asks_run engine id, fun _ => rfl⟩
  obtain ⟨gate, hs, hgates⟩ := hr.gated (.refl _) hstart
  refine ⟨fun path r caller timeoutSecs => hs.action_ne hr.run, hgates.signals, fun path => ?_,
    fun path c o head leaf d fs => hr.run.holdsBack⟩
  refine ⟨(hgates.run path).guarded, fun hresult => ?_⟩
  -- and so they are in the end
  have hidle : gate path = .idle := by
    obtain ⟨world, main, leaves⟩ := s
    cases main with
    | program p => exact hs.2 path
    | stepping => cases hresult
  have heq := (hgates.run path).resumed_eq
  rw [hidle] at heq
  simpa [Gate.pending?] using heq

/-- An approval step before another step in the body of a loop. -/
def Workflow.gated : Workflow :=
  let gate : Step := .simple ⟨"g", none, default⟩ ⟨.human, Leaf.approvalAction, [], none, none⟩
  let deploy : Step := .simple ⟨"d", none, default⟩ ⟨.command, "deploy", [], none, none⟩
  { Workflow.single default false with
    steps := [.loop ⟨"l", none, default⟩ ⟨some .count, none, some (.count 1), none, .fail⟩
      [gate, deploy]] }

/-- A run that comes to an approval step in the body of a loop. -/
def System.gated : System (Except RunError Summary) :=
  .ofProgram (.holding .gated) (ExceptT.run (Orchestration.run .null ⟨1⟩))

/-- It is decided on an approval that a thread waits for. -/
def System.Choice.decide (path : Path) (approved : Bool) : System.Choice :=
  .tell path fun
    | .awaitApproval .. => some (.decided ⟨approved, none⟩)
    | _ => none

/-- Of two runs that come to an approval step, the one that is approved is resumed and completed,
and the one that is rejected holds back the next step of the body. -/
theorem run_guards_approvals_gated :
    (∃ h l s, System.Watch (.ofRun .null {} ⟨1⟩ Eq) .gated h l s ∧ s.result?.isSome = true ∧
      (l.map Prod.snd).filter Signal.isAnnounced = [.paused "g", .resumed "g"] ∧
      (Signal.ofThread [] l).filterMap Signal.approved? =
        (Signal.ofThread [] l).filterMap Signal.resumed?) ∧
    ∃ h l s e f fs, System.Watch (.ofRun .null {} ⟨1⟩ Eq) .gated h l s ∧
      (∃ c y d,
        s.task? [] = some (.mk c (.settled (.error e)) (.finish y d :: .loop f :: fs))) ∧
      s.HoldsBack (.ofRun .null {} ⟨1⟩ Eq) [] (.loop f :: fs) := by
  constructor
  · obtain ⟨h, s, hplay, hresult, hsignals⟩ : ∃ h s,
        System.gated.play (.ofRun .null {} ⟨1⟩ Eq) (System.moves 17 ++ .decide [] true ::
          System.moves 7 ++ .respond [] true :: System.moves 17) = some (h, s) ∧
        s.result?.isSome = true ∧ s.world.signals ⟨1⟩ = [.paused "g", .resumed "g"] :=
      ⟨_, _, rfl, rfl, rfl⟩
    obtain ⟨l, hw⟩ := (System.Run.of_play hplay).exists_watch
    obtain ⟨-, hannounced, hpaths, -⟩ := run_guards_approvals hw
    exact ⟨h, l, s, hw, hresult, hannounced.symm.trans hsignals, (hpaths []).2 hresult⟩
  · obtain ⟨h, s, hplay, e, f, fs, c, head, leaf, d, ht, hc⟩ : ∃ h s,
        System.gated.play (.ofRun .null {} ⟨1⟩ Eq)
          (System.moves 17 ++ .decide [] false :: System.moves 1) = some (h, s) ∧
        ∃ e f fs c head leaf d, s.task? [] = some (.mk c (.settled (.error e))
          (.finish (.simple head leaf) d :: .loop f :: fs)) ∧
          head.policy.continueOnError = false :=
      ⟨_, _, rfl, _, _, _, _, _, _, _, rfl, rfl⟩
    obtain ⟨l, hw⟩ := (System.Run.of_play hplay).exists_watch
    obtain ⟨-, -, -, hholds⟩ := run_guards_approvals hw
    exact ⟨h, l, s, e, f, fs, hw, ⟨c, _, d, ht⟩, hholds [] c _ head leaf d _ ht nofun hc⟩

end WorkflowEngine
