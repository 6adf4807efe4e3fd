import WorkflowEngine.Proofs.Run.Winding
import WorkflowEngine.Proofs.Task.Cancellation

/-!
# Cancelled runs

Cancellation wins and is final. Once a run is cancelled while it is suspended, it only winds up: no
thread begins to wait for anything again, approvals are given up, and after boundedly many moves and
the answers to the calls in flight the run ends as cancelled. Its record stays cancelled all the
while, it announces neither completion nor failure, and its last event is `workflow.cancelled`.

## Main definitions

* `World.Halted`: a run stays cancelled, and is told so
* `Passage.Winding`: a step of a cancelled run that winds up
* `System.Abates`: a cancelled run that winds up, with the number of things it may still do

## Main results

* `Passage.Winding.step`: the step that is run comes closer to its end
* `System.Abates.step`: a cancelled run comes closer to its end
* `cancel_is_final`: a suspended run that is cancelled ends as cancelled
-/

namespace WorkflowEngine

namespace World

variable {id : Uuid} {w₀ w w' : World}

/-- **A run that stays cancelled and is told so**. -/
structure Halted (id : Uuid) (w₀ w : World) : Prop extends Revoked id w₀ w where
  cancelled : w.isCancelled id = true

theorem Halted.like (h : Halted id w₀ w) (hl : Like id w w') {e : Execution}
    (hr : w'.record? id = some e) (he : e.status = .cancelled) : Halted id w₀ w' :=
  ⟨h.toRevoked.like hl hr he, hl.isCancelled.trans h.cancelled⟩

theorem Halted.note (h : Halted id w₀ w) {n : Notice} (hn : n.event? id = none) :
    Halted id w₀ (w.note n) := by
  obtain ⟨e, hr, he⟩ := h.record
  exact h.like (like_note hn) hr he

theorem Halted.emit (h : Halted id w₀ w) {data : EventData} (hd : ¬ data.Concludes) :
    Halted id w₀ (w.emit id data) := by
  refine ⟨h.toRevoked.emit hd, ?_⟩
  have hc := h.cancelled
  rw [isCancelled_eq] at hc ⊢
  rw [active_emit, List.any_map]
  exact hc

end World

/-! ### While a step winds up -/

namespace Program

variable {α : Type} {id : Uuid}

/-- **A program that ends at once** if its run is cancelled, but for what it waits for now. -/
inductive Fades (id : Uuid) : Program α → Prop where
  | quits {p} (h : Quits id p) : Fades id p
  | waits {r k} (hr : r.isOutside = true) (h : ∀ reply, (k reply).Quits id) : Fades id (.ask r k)

/-- The number of things that a fading program still asks for. -/
def left : Program α → Nat
  | .done _ => 0
  | .ask r _ => if r.isOutside then 2 else 1

theorem Quits.left_le {p : Program α} (h : p.Quits id) : p.left ≤ 1 := by
  cases h with
  | done => exact Nat.zero_le 1
  | _ => exact Nat.le_refl 1

/-- A fading program that is served has ended. -/
theorem Fades.of_serve {r : Request} {k : r.Reply → Program α} {reply : r.Reply} {w w' : World}
    (h : (Program.ask r k).Fades id) (hw : w.isCancelled id = true)
    (hs : w.serve r = some (reply, w')) : ∃ x, k reply = .done x := by
  cases h with
  | quits h =>
    cases h with
    | @isCancelled k x h =>
      cases hs
      rw [hw]
      exact ⟨x, h⟩
    | @emit data k x hd h =>
      cases hs
      exact ⟨x, h⟩
  | waits hr =>
    rw [World.serve_eq_none_iff.mpr hr] at hs
    cases hs

/-- A fading program that waits ends at once after that. -/
theorem Fades.of_serve_eq_none {r : Request} {k : r.Reply → Program α} {w : World}
    (h : (Program.ask r k).Fades id) (hs : w.serve r = none) :
    r.isOutside = true ∧ ∀ reply, (k reply).Quits id := by
  refine ⟨World.serve_eq_none_iff.mp hs, ?_⟩
  cases h with
  | quits h => cases h <;> cases hs
  | waits _ h => exact h

end Program

namespace Surroundings

variable {engine : Expr.Engine} {config : Config} {id : Uuid}
  {rule : Execution → Execution → Prop} {w₀ : World}

/-- **A cancelled run stays so while a step is run.** -/
theorem keeps_halted (hrule : ∀ e e', rule e e' → e'.status = e.status) :
    (ofRun engine config id rule).Keeps fun w => World.Halted id w₀ w where
  note hn h := h.note hn
  emit hd h := h.emit hd.not_concludes
  cancel := by
    intro w w' r hc h
    obtain ⟨e, hr, he⟩ := h.record
    obtain ⟨r', w'', hc', hev, hf, hcases⟩ := World.ends_cancel hr
    cases hc'.symm.trans hc
    rcases hcases with ⟨-, hrunning, -⟩ | ⟨-, ha, hr'⟩
    · rw [he] at hrunning
      cases hrunning
    · exact h.like ⟨ha, hev, hf⟩ hr' he
  outside := by
    intro w w' hm h
    obtain ⟨e, hr, he⟩ := h.record
    obtain ⟨e', hr', hchange⟩ := hm.record e hr
    exact h.like hm.like hr' ((hrule e e' hchange).trans he)

end Surroundings

namespace Passage

variable {engine : Expr.Engine} {config : Config} {id : Uuid}
  {rule : Execution → Execution → Prop} {a : Assignment} {w₀ : World} {st st' : Passage}
  {x : Happening}

/-- The number of things that simple steps still ask for. -/
def leftOf : List (Path × LeafProgram) → Nat
  | [] => 0
  | l :: ls => l.2.left + leftOf ls

/-- The number of things that may still happen while a step winds up. -/
def left (st : Passage) : Nat := st.task.rank + leftOf st.leaves

theorem leftOf_filter_le (f : Path × LeafProgram → Bool) (ls : List (Path × LeafProgram)) :
    leftOf (ls.filter f) ≤ leftOf ls := by
  induction ls with
  | nil => exact Nat.le_refl 0
  | cons l ls ih =>
    rw [List.filter_cons]
    split <;> simp only [leftOf] <;> omega

theorem leftOf_others_le {path : Path} {p : LeafProgram} (h : st.leaf? path = some p) :
    leftOf (st.others path) + p.left ≤ leftOf st.leaves := by
  unfold leaf? at h
  unfold others
  generalize st.leaves = ls at h ⊢
  induction ls with
  | nil => cases h
  | cons l ls ih =>
    obtain ⟨path', q⟩ := l
    rw [List.lookup_cons] at h
    by_cases hp : path' = path
    · subst hp
      rw [beq_self_eq_true] at h
      cases h
      have := leftOf_filter_le (fun l => l.1 != path') ls
      rw [List.filter_cons_of_neg (by simp)]
      simp only [leftOf]
      omega
    · rw [beq_eq_false_iff_ne.mpr (Ne.symm hp)] at h
      have := ih h
      rw [List.filter_cons_of_pos (by simpa using hp)]
      simp only [leftOf]
      omega

/-- A simple step that goes on by a program. -/
theorem left_setLeaf_le {path : Path} {p q : LeafProgram} (h : st.leaf? path = some p) :
    (st.setLeaf path q).left + p.left ≤ st.left + q.left := by
  have := leftOf_others_le h
  show st.task.rank + leftOf ((path, q) :: st.others path) + p.left ≤ _
  simp only [left, leftOf]
  omega

/-- **A step of a cancelled run that winds up**: every simple step in it has begun and does not wait
again. -/
structure Winding (a : Assignment) (w₀ : World) (st : Passage) : Prop where
  halted : World.Halted a.executionId w₀ st.world
  sound : st.Sound
  placed : ∃ root, Task.Placed root 0 st.task
  covered : ∀ path x, st.task.callAt? path = some x → ∃ p, st.leaf? path = some p
  asks : st.LeavesAsk a
  fades : st.Leaves fun p => p.Fades a.executionId

/-- A thread whose simple step has ended or ends at once waits for nothing. -/
theorem waitsFor?_setLeaf_of_quits {path : Path} {q : LeafProgram} (hq : q.Quits id) :
    (st.setLeaf path q).waitsFor? path = none := by
  unfold waitsFor?
  rw [leaf?_setLeaf, if_pos rfl]
  cases hq <;> rfl

/-- A simple step has begun still when one goes on. -/
theorem exists_leaf?_setLeaf {path path' : Path} {p q : LeafProgram}
    (h : st.leaf? path' = some p) : ∃ p, (st.setLeaf path q).leaf? path' = some p := by
  rw [leaf?_setLeaf]
  split
  · exact ⟨q, rfl⟩
  · exact ⟨p, h⟩

/-- A thread that waited waits for nothing any more, and has less left to ask for. -/
theorem Winding.goOn (hst : st.Winding a w₀) {path : Path} {r : Request} {k : r.Reply → LeafProgram}
    (hl : st.leaf? path = some (.ask r k)) (hs : st.world.serve r = none) (reply : r.Reply) :
    (st.setLeaf path (k reply)).Winding a w₀ ∧
      (st.setLeaf path (k reply)).waitsFor? path = none ∧
      (st.setLeaf path (k reply)).left + 1 ≤ st.left := by
  obtain ⟨hr, hquits⟩ := (hst.fades path _ hl).of_serve_eq_none hs
  refine ⟨⟨hst.halted, hst.sound.setLeaf (hst.sound path _ hl) _, hst.placed, fun path' x hx => ?_,
    Leaves.setLeaf hst.asks ((hst.asks path _ hl).2 reply),
    hst.fades.setLeaf (.quits (hquits reply))⟩, waitsFor?_setLeaf_of_quits (hquits reply), ?_⟩
  · obtain ⟨p, hp⟩ := hst.covered path' x hx
    exact exists_leaf?_setLeaf hp
  · have hle := left_setLeaf_le (q := k reply) hl
    have htwo : (Program.ask r k).left = 2 := by rw [Program.left, if_pos hr]
    have hone := (hquits reply).left_le
    omega

/-- **The step that winds up comes closer to its end**, and nothing begins. -/
theorem Winding.step (hrule : ∀ e e', rule e e' → e'.status = e.status) (hst : st.Winding a w₀)
    (h : Passage.Step (.ofRun engine config a.executionId rule) a st x st') :
    st'.Winding a w₀ ∧ x.opens? = none ∧ st'.left + (if x.isOwn then 1 else 0) ≤ st.left := by
  have hhalted := (Surroundings.keeps_halted hrule).step rfl hst.asks h hst.halted
  have hsound := hst.sound.step h
  obtain ⟨root, hroot⟩ := hst.placed
  have hplaced : ∃ root, Task.Placed root 0 st'.task := ⟨root, h.placed hroot⟩
  have hasks := hst.asks.step h
  cases h with
  | advance hl h =>
    have hlt := Task.Moves.rank_lt hst.halted.cancelled h
    refine ⟨⟨hhalted, hsound, hplaced, fun path x hx => ?_, hasks, hst.fades⟩, rfl, ?_⟩
    · exact hst.covered path x (h.callAt?_of_cancelled hst.halted.cancelled hx)
    · simp only [left, Happening.isOwn, if_true]
      omega
  | call hl h =>
    obtain ⟨p, hp⟩ := hst.covered _ _ h
    rw [hl] at hp
    cases hp
  | @serve path r k reply w' hl h =>
    obtain ⟨y, hy⟩ := (hst.fades path _ hl).of_serve hst.halted.cancelled h
    have hquits : (k reply).Quits a.executionId := by
      rw [hy]
      exact .done
    refine ⟨⟨hhalted, hsound, hplaced, fun path' x hx => ?_, hasks, ?_⟩,
      waitsFor?_setLeaf_of_quits hquits, ?_⟩
    · obtain ⟨p, hp⟩ : ∃ p, Passage.leaf? { st with world := w' } path' = some p :=
        hst.covered path' x hx
      exact exists_leaf?_setLeaf hp
    · have hfades : Leaves (fun p => p.Fades a.executionId) { st with world := w' } := hst.fades
      exact hfades.setLeaf (.quits hquits)
    · have hle := left_setLeaf_le (q := k reply) hl
      have hpos : 1 ≤ (Program.ask r k).left := by
        simp only [Program.left]
        split <;> decide
      have hzero : (k reply).left = 0 := by rw [hy]; rfl
      show (st.setLeaf path (k reply)).left + 1 ≤ st.left
      omega
  | @answer path r t hl h =>
    refine ⟨⟨hhalted, hsound, hplaced, fun path' x hx => ?_, hasks, fun path' q hq => ?_⟩, rfl, ?_⟩
    · obtain ⟨p, hp⟩ := hst.covered path' x (h.callAt?_of_eq hx)
      refine ⟨p, (lookup_others st path path').trans ?_⟩
      rw [if_neg, hp]
      rintro rfl
      rw [h.callAt?_eq_none] at hx
      cases hx
    · have hq := (lookup_others st path path').symm.trans hq
      split at hq
      · cases hq
      · exact hst.fades path' q hq
    · have hlt := h.rank_lt
      have hle := leftOf_others_le hl
      simp only [left, Happening.isOwn, if_true]
      omega
  | release hl h => exact hst.goOn hl (World.serve_eq_none_of_release h) _
  | tell hl h => exact hst.goOn hl h _
  | cancel =>
    exact ⟨⟨hhalted, hsound, hplaced, hst.covered, hasks, hst.fades⟩, rfl, Nat.le_refl _⟩
  | outside =>
    exact ⟨⟨hhalted, hsound, hplaced, hst.covered, hasks, hst.fades⟩, rfl, Nat.le_refl _⟩

/-- **A step that winds up can go on by itself**, or a call that it has made has not returned.
Nobody is waited for who has to approve anything. -/
theorem Winding.goes_on {α : Type} (hst : st.Winding a w₀) (next : Outcome × Context → Program α)
    (setting : Setting) :
    ∃ path, ((st.toSystem a next).move setting path).isSome = true ∨
      ∃ r caller timeoutSecs, st.waitsFor? path = some (.execute r caller timeoutSecs) := by
  obtain ⟨root, hplaced⟩ := hst.placed
  obtain ⟨path, hm | hw⟩ := Passage.goes_on hst.sound hplaced a next setting
  · exact ⟨path, .inl hm⟩
  obtain ⟨r, hr⟩ := Option.isSome_iff_exists.mp hw
  obtain ⟨hout, k, hl⟩ := System.exists_leaf?_of_waitsFor? (s := st.toSystem a next) hr
  refine ⟨path, ?_⟩
  cases (hst.asks path _ hl).1 with
  | execute => exact .inr ⟨_, _, _, hr⟩
  | awaitApproval =>
    obtain ⟨reply, hrelease⟩ := World.exists_release hst.halted.cancelled _ _ _
    exact .inl (move_isSome_of_release hl hrelease)
  | _ => cases hout

end Passage

/-! ### While a run winds up -/

variable {engine : Expr.Engine} {config : Config} {id : Uuid}
  {rule rule₀ : Execution → Execution → Prop} {w w₀ : World} {a : Assignment}

namespace System

/-- **A cancelled run that winds up**: a step winds up, after which the run ends soon, or the run
does so already. It may still do so many things. -/
inductive Abates (a : Assignment) (w₀ : World) : Nat → System (Except RunError Summary) → Prop where
  | stepping {n st k} (hst : Passage.Winding a w₀ st)
      (hk : ∀ x w, World.Halted a.executionId w₀ w → Program.Winds (World.Revoked a.executionId w₀)
        (World.EndsCancelled a.executionId w₀) 10 (k x) w)
      (hn : st.left + 10 ≤ n) : Abates a w₀ n (st.toSystem a k)
  | program {n p w} (h : Program.Winds (World.Revoked a.executionId w₀)
      (World.EndsCancelled a.executionId w₀) n p w) : Abates a w₀ n (.ofProgram w p)

variable {s s' : System (Except RunError Summary)} {n : Nat} {x : Happening} {h : List Happening}

/-- **A cancelled run comes closer to its end**, and nothing begins. -/
theorem Abates.step (hrule : ∀ e e', rule e e' → e'.status = e.status) (hs : s.Abates a w₀ n)
    (h : System.Step (.ofRun engine config a.executionId rule) s x s') :
    x.opens? = none ∧ ∃ m, s'.Abates a w₀ m ∧ m + (if x.isOwn then 1 else 0) ≤ n := by
  cases hs with
  | @stepping st k hst hk hn =>
    rcases h.of_toSystem with ⟨st', hst', rfl⟩ | ⟨o, ho, rfl, rfl⟩
    · obtain ⟨hwinding, hopens, hle⟩ := hst.step hrule hst'
      exact ⟨hopens, st'.left + 10, .stepping hwinding hk (Nat.le_refl _), by omega⟩
    · rw [hst.sound.leaves_eq_nil ho]
      refine ⟨rfl, 10, .program (hk _ _ hst.halted), ?_⟩
      have hrank := Task.rank_of_outcome? ho
      unfold Passage.left at hn
      simp only [Happening.isOwn, if_true]
      omega
  | @program p w hp =>
    obtain ⟨rfl, ⟨r, k, reply, w', rfl, hserve, rfl⟩ | ⟨a', step, c, k, rfl, rfl⟩⟩ := h.of_program
    · cases hp with
      | ask hI hserve' hk =>
        rw [hserve] at hserve'
        cases hserve'
        exact ⟨rfl, _, .program hk, Nat.le_refl _⟩
    · cases hp with
      | ask hI hserve' hk => cases hserve'

/-- **Only so much happens to a cancelled run**, and nothing begins. -/
theorem Abates.run (hrule : ∀ e e', rule e e' → e'.status = e.status) (hs : s.Abates a w₀ n)
    (hr : System.Run (.ofRun engine config a.executionId rule) s h s') :
    (∀ x ∈ h, x.opens? = none) ∧ ∃ m, s'.Abates a w₀ m ∧ m + h.countP Happening.isOwn ≤ n := by
  induction hr generalizing n with
  | refl => exact ⟨fun x hx => (List.not_mem_nil hx).elim, n, hs, Nat.le_refl n⟩
  | @step _ x _ h _ hx _ ih =>
    obtain ⟨hopens, m, hm, hle⟩ := hs.step hrule hx
    obtain ⟨hall, m', hm', hle'⟩ := ih hm
    refine ⟨fun y hy => ?_, m', hm', ?_⟩
    · rcases List.mem_cons.mp hy with rfl | hy
      · exact hopens
      · exact hall y hy
    · rw [List.countP_cons]
      omega

theorem Abates.revoked (hs : s.Abates a w₀ n) : World.Revoked a.executionId w₀ s.world := by
  cases hs with
  | stepping hst => exact hst.halted.toRevoked
  | program h => exact h.holds

/-- A cancelled run that has ended says so. -/
theorem Abates.endsCancelled (hs : s.Abates a w₀ n) {r : Except RunError Summary}
    (hr : s.result? = some r) : World.EndsCancelled a.executionId w₀ r s.world := by
  cases hs with
  | stepping => cases hr
  | program h =>
    cases h with
    | done _ h => cases hr; exact h
    | ask => cases hr

/-- **A cancelled run that has not ended can go on by itself**, or a call that it has made has not
returned. -/
theorem Abates.goes_on (hs : s.Abates a w₀ n) (hr : s.result? = none) (setting : Setting) :
    ∃ path, (s.move setting path).isSome = true ∨
      ∃ r caller timeoutSecs, s.waitsFor? path = some (.execute r caller timeoutSecs) := by
  cases hs with
  | stepping hst => exact hst.goes_on _ setting
  | program h => exact ⟨[], .inl (h.exists_move hr setting)⟩

end System

/-! ### Cancelled steps are not masked -/

/-- A step is over and was cancelled. -/
inductive Happening.Cancels : Happening → Prop where
  | intro {path l s d ms opens} :
      Cancels (.moved path l (.finished s d (.error .cancelled) ms) opens)

/-- The step at the top level is over. -/
inductive Happening.Ends : Happening → Outcome → Prop where
  | intro {path l s o ms opens} : Ends (.moved path l (.finished s 0 o ms) opens) o

namespace Passage

variable {S : Surroundings} {st st' : Passage} {x : Happening}

theorem Step.cancelling_of_cancels (hx : x.Cancels) (h : Passage.Step S a st x st') :
    st'.task.Cancelling := by
  cases hx with
  | intro =>
    cases h with
    | advance _ h => exact Task.cancelling_of_finished h

/-- A cancelled step is passed on to the steps around, and that at the top level ends so. -/
theorem Step.cancelling {root : WorkflowEngine.Step} (hp : Task.Placed root 0 st.task)
    (hc : st.task.Cancelling) (h : Passage.Step S a st x st') :
    st'.task.Cancelling ∧ ∀ o, x.Ends o → o = .error .cancelled := by
  cases h with
  | advance _ h =>
    refine ⟨hc.moves h, ?_⟩
    rintro o ⟨⟩
    exact hc.eq_cancelled hp h
  | answer _ h => exact ⟨hc.answers h, fun o ho => by cases ho⟩
  | _ => exact ⟨hc, fun o ho => by cases ho⟩

end Passage

namespace System

variable {s s' : System (Except RunError Summary)} {n : Nat} {x : Happening} {h : List Happening}

/-- The step that is run, if there is one, has met a cancelled step. -/
def IsCancelling (s : System (Except RunError Summary)) : Prop :=
  ∀ a t k, s.main = .stepping a t k → t.Cancelling

theorem isCancelling_ofProgram (p : Program (Except RunError Summary)) :
    (System.ofProgram w p).IsCancelling := by
  rintro a t k ⟨⟩

theorem isCancelling_toSystem {st : Passage}
    {k : Outcome × Context → Program (Except RunError Summary)} (h : st.task.Cancelling) :
    (st.toSystem a k).IsCancelling := by
  rintro _ _ _ ⟨⟩
  exact h

theorem Abates.cancelling_of_cancels (hs : s.Abates a w₀ n)
    (h : System.Step (.ofRun engine config a.executionId rule) s x s') (hx : x.Cancels) :
    s'.IsCancelling := by
  cases hs with
  | stepping =>
    rcases h.of_toSystem with ⟨st', hst', rfl⟩ | ⟨o, -, rfl, rfl⟩
    · exact isCancelling_toSystem (hst'.cancelling_of_cancels hx)
    · cases hx
  | program =>
    obtain ⟨rfl, -⟩ := h.of_program
    cases hx

theorem Abates.cancelling (hs : s.Abates a w₀ n) (hc : s.IsCancelling)
    (h : System.Step (.ofRun engine config a.executionId rule) s x s') :
    s'.IsCancelling ∧ ∀ o, x.Ends o → o = .error .cancelled := by
  cases hs with
  | stepping hst =>
    obtain ⟨root, hroot⟩ := hst.placed
    rcases h.of_toSystem with ⟨st', hst', rfl⟩ | ⟨o, -, rfl, rfl⟩
    · obtain ⟨hc', ho⟩ := hst'.cancelling hroot (hc _ _ _ rfl)
      exact ⟨isCancelling_toSystem hc', ho⟩
    · exact ⟨by rintro a t k ⟨⟩, fun o ho => by cases ho⟩
  | program hp =>
    obtain ⟨rfl, ⟨r, k, reply, w', rfl, -, rfl⟩ | ⟨a', step, c, k, rfl, rfl⟩⟩ := h.of_program
    · exact ⟨isCancelling_ofProgram _, fun o ho => by cases ho⟩
    · cases hp with
      | ask _ hserve => cases hserve

/-- **No policy masks a cancelled step**: the step at the top level ends as cancelled too. -/
theorem Abates.passes (hrule : ∀ e e', rule e e' → e'.status = e.status) (hs : s.Abates a w₀ n)
    (hr : System.Run (.ofRun engine config a.executionId rule) s h s') {h₁ h₂ : List Happening}
    (hh : h = h₁ ++ x :: h₂) (hx : x.Cancels) {y : Happening} (hy : y ∈ h₂) {o : Outcome}
    (ho : y.Ends o) : o = .error .cancelled := by
  -- once it has been met, every happening leaves it so
  have hafter : ∀ {n s s' h}, s.Abates a w₀ n → s.IsCancelling →
      System.Run (.ofRun engine config a.executionId rule) s h s' → y ∈ h →
        o = .error .cancelled := by
    intro n s s' h hs hc hr hy
    induction hr generalizing n with
    | refl => cases hy
    | step hx _ ih =>
      obtain ⟨hc', hends⟩ := hs.cancelling hc hx
      obtain ⟨-, m, hm, -⟩ := hs.step hrule hx
      rcases List.mem_cons.mp hy with rfl | hy
      · exact hends o ho
      · exact ih hm hc' hy
  induction hr generalizing n h₁ with
  | refl => cases h₁ <;> cases hh
  | step hstep hr ih =>
    obtain ⟨-, m, hm, -⟩ := hs.step hrule hstep
    cases h₁ with
    | nil =>
      cases hh
      exact hafter hm (hs.cancelling_of_cancels hstep hx) hr hy
    | cons z h₁ =>
      cases hh
      exact ih hm rfl

end System

/-! ### Cancelling a suspended run -/

/-- **A run that is there and is cancelled** is told so, and its record says so. -/
theorem World.halted_of_cancel {w' : World} (hw : w.IsActive id)
    (h : w.perform (ExceptT.run (Orchestration.cancel id)) = some (.ok (), w')) :
    World.Halted id w' w' := by
  cases hrec : w.record? id with
  | none =>
    have herr : w.Ends (Orchestration.cancel id) fun r _ => ∃ err, r = .error err := by
      refine (w.ends_load_found id).bind ?_ ?_
      · rintro e w₁ ⟨-, hfound⟩
        rw [hrec] at hfound
        cases hfound e rfl
      · rintro err w₁ -
        exact ⟨err, rfl⟩
    obtain ⟨r, w₁, hp, err, rfl⟩ := herr
    rw [hp] at h
    cases h
  | some e =>
    obtain ⟨r, w₁, hp, -, -, hcases⟩ := World.ends_cancel hrec
    rw [hp] at h
    cases h
    rcases hcases with ⟨-, -, ha, now, hr'⟩ | ⟨⟨err, herr⟩, -⟩
    · refine ⟨⟨⟨_, hr', rfl⟩, ⟨[], (List.append_nil _).symm, fun x hx => by cases hx⟩,
        fun hf => hf⟩, ?_⟩
      rw [World.isActive_iff] at hw
      rw [World.isCancelled_eq, ha]
      obtain ⟨r, rs, hrs⟩ := List.exists_cons_of_ne_nil hw
      rw [hrs]
      rfl
    · cases herr

/-- **A suspended step winds up** once its run is cancelled. -/
theorem Passage.InStep.winding {totalSteps : Nat} {st : Passage} {w' : World}
    {k k' : Outcome × Context → Program (Except RunError Summary)}
    (hst : st.InStep (.ofRun engine config a.executionId rule₀) a totalSteps k')
    (hs : (st.toSystem a k).IsSuspended (.ofConfig engine config))
    (hc : st.world.perform (ExceptT.run (Orchestration.cancel a.executionId)) = some (.ok (), w')) :
    Passage.Winding a w' { st with world := w' } := by
  have hsound := hst.sound
  obtain ⟨hw, hr⟩ := hst
  have hplaced := hr.placed (Task.Placed.start _ _ 0)
  obtain ⟨hactive, hasks⟩ := Surroundings.keeps_isActive.run rfl (by rintro path p ⟨⟩) hr hw
  have hcareful : st.Leaves fun p => p.IsCareful a.executionId :=
    Passage.Leaves.run (by rintro path p ⟨⟩) (Leaf.isCareful_run engine config a)
      (fun _ _ reply hp => hp.2 reply) hr
  refine ⟨World.halted_of_cancel hactive hc, hsound, ⟨_, hplaced⟩, fun path x hx => ?_, hasks,
    fun path p hp => ?_⟩
  · obtain ⟨r, k, hl, -⟩ := Passage.waits_of_isSuspended hs hx
    exact ⟨_, hl⟩
  · obtain ⟨x, hx⟩ := Option.isSome_iff_exists.mp (hsound path p hp)
    obtain ⟨r, k, hl, hr⟩ := Passage.waits_of_isSuspended hs hx
    rw [show st.leaf? path = some p from hp] at hl
    cases hl
    exact .waits hr ((hcareful path _ hp).1 hr)

/-- **What is left of a run** after it was cancelled in a world. -/
structure System.StaysCancelled (setting : Setting) (id : Uuid) (w₀ : World) (h : List Happening)
    (s : System (Except RunError Summary)) : Prop where
  /-- No thread has begun to wait for anything: neither for a simple step, nor for another try of
  one, nor for an approval. -/
  opens : ∀ x ∈ h, x.opens? = none
  /-- The record is cancelled, and no event has said anything else. -/
  revoked : World.Revoked id w₀ s.world
  /-- No policy masks a step that has ended as cancelled. -/
  passes : ∀ h₁ x h₂, h = h₁ ++ x :: h₂ → x.Cancels → ∀ y ∈ h₂, ∀ o, y.Ends o →
    o = .error .cancelled
  /-- The run goes on by itself as long as it has not ended, unless a call that it had made before
  has not returned. No approval is waited for. -/
  goesOn : s.result? = none →
    ∃ path, (s.move setting path).isSome = true ∨
      ∃ r caller timeoutSecs, s.waitsFor? path = some (.execute r caller timeoutSecs)
  /-- The run ends as cancelled. -/
  ends : ∀ r, s.result? = some r → World.EndsCancelled id w₀ r s.world

/-- **Cancellation wins and is final.** A run that is cancelled while it is suspended, in whatever
simple steps and approvals and at whatever depth, makes boundedly many moves after that and ends as
cancelled, unless a call of the store fails. Until then it can always go on by itself or has a call
in flight, so that it ends once these have returned, whatever the answers are and in whatever order
they come. Nothing begins any more, and others may change its record but for its status. -/
theorem cancel_is_final {w w₀ : World} {s : System (Except RunError Summary)} {h : List Happening}
    (hr : System.Run (.ofRun engine config id rule₀)
      (.ofProgram w (ExceptT.run (Orchestration.run engine id))) h s)
    (hs : s.IsSuspended (.ofConfig engine config))
    (hc : s.world.perform (ExceptT.run (Orchestration.cancel id)) = some (.ok (), w₀))
    (hrule : ∀ e e', rule e e' → e'.status = e.status) :
    ∃ n, ∀ h' s', System.Run (.ofRun engine config id rule) { s with world := w₀ } h' s' →
      h'.countP Happening.isOwn ≤ n ∧ s'.StaysCancelled (.ofConfig engine config) id w₀ h' := by
  have hreach := hr.reaches
  rcases hreach.eq_ofProgram_or_toSystem with ⟨w', p, rfl⟩ | ⟨st, a, k, rfl⟩
  · exact absurd hs.1 (System.not_isPending_ofProgram p w')
  obtain ⟨rfl, totalSteps, k', hst, rfl⟩ := hreach.stepping_of_run
  obtain ⟨step, -, hwinds⟩ := hst.winds
  have hk : ∀ x w, World.Halted a.executionId w₀ w → Program.Winds
      (World.Revoked a.executionId w₀) (World.EndsCancelled a.executionId w₀) 10
      ((k' x).bind fun r => .ask (.endRun a.executionId) fun _ => .done r) w := by
    intro x w hw
    obtain ⟨stepId, results, hsealed⟩ := hw.toRevoked.sealed
    exact (hwinds w₀ x w stepId results hsealed).mono fun _ h => h.revoked
  have habates : System.Abates a w₀ _ (Passage.toSystem { st with world := w₀ } a _) :=
    .stepping (hst.winding hs hc) hk (Nat.le_refl _)
  refine ⟨Passage.left { st with world := w₀ } + 10, fun h' s' hr' => ?_⟩
  obtain ⟨hopens, m, hm, hle⟩ := habates.run hrule hr'
  exact ⟨Nat.le_trans (Nat.le_add_left _ _) hle, hopens, hm.revoked,
    fun h₁ x h₂ hh hx y hy o ho => habates.passes hrule hr' hh hx hy ho,
    fun hn => hm.goes_on hn _, fun r hr => hm.endsCancelled hr⟩

/-! ### A single step that is cancelled -/

/-- The only thread waits for the answer to its simple step. -/
def System.isCalling {α : Type} (s : System α) : Bool :=
  match s.main, s.leaves with
  | .stepping _ (.mk _ (.calling ..) _) _, [([], .ask r _)] =>
    r.isOutside && (s.world.release r).isNone
  | _, _ => false

theorem System.isSuspended_of_isCalling {α : Type} {s : System α} (h : s.isCalling = true)
    (setting : Setting) : s.IsSuspended setting := by
  obtain ⟨w, main, leaves⟩ := s
  unfold isCalling at h
  split at h
  next a c head leaf d fs k r k' hmain hleaves =>
    dsimp only at hmain hleaves
    subst hmain hleaves
    obtain ⟨hout, hrelease⟩ := Bool.and_eq_true_iff.mp h
    have hr : w.serve r = none := World.serve_eq_none_iff.mpr hout
    refine ⟨⟨[], r, ?_⟩, fun path => ?_⟩
    · show (if (w.serve r).isSome then none else some r) = some r
      rw [hr]
      rfl
    · cases path with
      | nil =>
        have hm : System.moveLeaf ⟨w, .stepping a (.mk c (.calling head leaf d) fs) k,
            [([], .ask r k')]⟩ [] a (.mk c (.calling head leaf d) fs) k (.ask r k') = none := by
          simp only [moveLeaf, hr, Option.isNone_iff_eq_none.mp hrelease, Option.map_none]
        exact congrArg (Option.map (·, Effect.silent)) hm
      | cons i path => rfl
  next => cases h

/-- A workflow with a single step, which asks for an approval. -/
def Workflow.singleApproval : Workflow :=
  { Workflow.single default false with
    steps := [.simple ⟨"a", none, default⟩ ⟨.human, Leaf.approvalAction, [], none, none⟩] }

/-- A run that is cancelled as soon as it waits for a simple step. -/
theorem exists_cancelled (v : Workflow) (faults : List (StoreCall × Nat)) (n : Nat)
    (cs : List System.Choice) (p : Except RunError Summary → Bool)
    (h : ((System.play (.ofRun .null {} ⟨1⟩ Eq)
        (.ofProgram { World.holding v with faults }
          (ExceptT.run (Orchestration.run .null ⟨1⟩)))
        (System.moves n)).any fun x => x.2.isCalling &&
          (x.2.world.perform (ExceptT.run (Orchestration.cancel ⟨1⟩))).any fun y =>
            y.1.isOk && (System.play (.ofRun .null {} ⟨1⟩ Eq) { x.2 with world := y.2 } cs).any
              fun z => z.2.result?.any p) = true) :
    ∃ h s w₀ h' s' r, System.Run (.ofRun .null {} ⟨1⟩ Eq)
      (.ofProgram { World.holding v with faults }
        (ExceptT.run (Orchestration.run .null ⟨1⟩))) h s ∧
      s.IsSuspended (.ofConfig .null {}) ∧
      s.world.perform (ExceptT.run (Orchestration.cancel ⟨1⟩)) = some (.ok (), w₀) ∧
      System.Run (.ofRun .null {} ⟨1⟩ Eq) { s with world := w₀ } h' s' ∧
      s'.result? = some r ∧ p r = true := by
  obtain ⟨⟨h, s⟩, hrun, hx⟩ := (Option.any_eq_true _ _).mp h
  obtain ⟨hcalling, hx⟩ := Bool.and_eq_true_iff.mp hx
  obtain ⟨⟨r, w₀⟩, hcancel, hy⟩ := (Option.any_eq_true _ _).mp hx
  obtain ⟨hok, hy⟩ := Bool.and_eq_true_iff.mp hy
  obtain ⟨⟨h', s'⟩, hrun', hz⟩ := (Option.any_eq_true _ _).mp hy
  obtain ⟨r', hr', hp⟩ := (Option.any_eq_true _ _).mp hz
  cases r with
  | ok u =>
    exact ⟨h, s, w₀, h', s', r', .of_play hrun, System.isSuspended_of_isCalling hcalling _, hcancel,
      .of_play hrun', hr', hp⟩
  | error e => cases hok

/-- A run is cancelled while it waits for a call, which succeeds after that, and another one while
it waits for an approval, on which nobody decides: both end as cancelled. -/
theorem cancel_is_final_single :
    (∃ h s w₀ h' s' r, System.Run (.ofRun .null {} ⟨1⟩ Eq)
        (.ofProgram (.holding (.single ⟨none, none, false⟩ false))
          (ExceptT.run (Orchestration.run .null ⟨1⟩))) h s ∧
      s.IsSuspended (.ofConfig .null {}) ∧
      s.world.perform (ExceptT.run (Orchestration.cancel ⟨1⟩)) = some (.ok (), w₀) ∧
      System.Run (.ofRun .null {} ⟨1⟩ Eq) { s with world := w₀ } h' s' ∧
      s'.result? = some r ∧ s'.StaysCancelled (.ofConfig .null {}) ⟨1⟩ w₀ h') ∧
    ∃ h s w₀ h' s' r, System.Run (.ofRun .null {} ⟨1⟩ Eq)
        (.ofProgram (.holding .singleApproval) (ExceptT.run (Orchestration.run .null ⟨1⟩))) h s ∧
      s.IsSuspended (.ofConfig .null {}) ∧
      s.world.perform (ExceptT.run (Orchestration.cancel ⟨1⟩)) = some (.ok (), w₀) ∧
      System.Run (.ofRun .null {} ⟨1⟩ Eq) { s with world := w₀ } h' s' ∧
      s'.result? = some r ∧ s'.StaysCancelled (.ofConfig .null {}) ⟨1⟩ w₀ h' := by
  have hrule : ∀ e e' : Execution, e = e' → e'.status = e.status := fun e e' he => by rw [he]
  constructor
  · obtain ⟨h, s, w₀, h', s', r, hr, hs, hc, hr', hr₁, -⟩ :=
      exists_cancelled (.single ⟨none, none, false⟩ false) [] 12
        (.respond [] true :: System.moves 11) (fun r => r.isOk) (by decide +kernel)
    obtain ⟨n, hn⟩ := cancel_is_final hr hs hc hrule
    exact ⟨h, s, w₀, h', s', r, hr, hs, hc, hr', hr₁, (hn h' s' hr').2⟩
  · obtain ⟨h, s, w₀, h', s', r, hr, hs, hc, hr', hr₁, -⟩ :=
      exists_cancelled .singleApproval [] 14 (System.moves 7) (fun r => r.isOk) (by decide +kernel)
    obtain ⟨n, hn⟩ := cancel_is_final hr hs hc hrule
    exact ⟨h, s, w₀, h', s', r, hr, hs, hc, hr', hr₁, (hn h' s' hr').2⟩

/-- A call of the store that fails after the run was cancelled: the run ends with that error. -/
theorem cancelled_run_reports_store_error : ∃ h s w₀ h' s' e,
    System.Run (.ofRun .null {} ⟨1⟩ Eq)
      (.ofProgram { World.holding (.single ⟨none, none, false⟩ false) with
        faults := [(.getExecution, 4)] } (ExceptT.run (Orchestration.run .null ⟨1⟩))) h s ∧
    s.IsSuspended (.ofConfig .null {}) ∧
    s.world.perform (ExceptT.run (Orchestration.cancel ⟨1⟩)) = some (.ok (), w₀) ∧
    System.Run (.ofRun .null {} ⟨1⟩ Eq) { s with world := w₀ } h' s' ∧
    s'.result? = some (.error e) := by
  obtain ⟨h, s, w₀, h', s', r, hr, hs, hc, hr', hr₁, hp⟩ :=
    exists_cancelled (.single ⟨none, none, false⟩ false) [(.getExecution, 4)] 12
      (.respond [] true :: System.moves 10) (fun r => !r.isOk) (by decide +kernel)
  cases r with
  | ok summary => cases hp
  | error e => exact ⟨h, s, w₀, h', s', e, hr, hs, hc, hr', hr₁⟩

end WorkflowEngine
