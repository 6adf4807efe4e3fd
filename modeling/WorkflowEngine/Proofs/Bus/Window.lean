import Mathlib.Data.List.TakeDrop
import WorkflowEngine.Bus

/-!
# The window of a bus

A bus keeps the latest of all events that were ever published. A subscriber stands somewhere in that
history: what lies before the window is gone for it, and what lies in the window waits for it.

## Main definitions

* `Bus.Holds b capacity log`: the bus keeps the latest of the events in `log`
* `Bus.next?`: the place of a subscriber
* `Bus.waiting`, `Bus.missed`: the events that are kept for a subscriber, and the number of those
  that are gone
* `Bus.dueTo`: what a subscriber gets if nothing more is published

## Main results

* `Bus.roundedCapacity_isPower`: the number of events that are kept
* `Bus.Holds.publish`: an event enters the window
* `Bus.Holds.receive_eq`: what a subscriber gets is told by its place in the history
* `Bus.Holds.drop_eq`: what a subscriber has not got yet is gone or waits
* `Bus.Holds.dueTo_eq`: what a subscriber gets is what is due to it
-/

namespace WorkflowEngine

namespace Bus

/-! ### Capacity -/

theorem powerFrom_eq (n : Nat) : ∀ fuel power : Nat, 0 < power → n ≤ Nat.pow 2 fuel * power →
    ∃ k, powerFrom n fuel power = Nat.pow 2 k * power ∧ n ≤ Nat.pow 2 k * power ∧
      (k = 0 ∨ Nat.pow 2 k * power < 2 * n)
  | 0, power, _, h => ⟨0, (Nat.one_mul power).symm, h, .inl rfl⟩
  | fuel + 1, power, hp, h => by
    rw [powerFrom]
    split
    next hle =>
      have hone : Nat.pow 2 0 * power = power := Nat.one_mul power
      exact ⟨0, hone.symm, hone.symm ▸ hle, .inl rfl⟩
    next hlt =>
      have hdouble (k : Nat) : Nat.pow 2 (k + 1) * power = Nat.pow 2 k * (2 * power) :=
        Nat.mul_assoc ..
      obtain ⟨k, he, hk, hmin⟩ :=
        powerFrom_eq n fuel (2 * power) (by omega) (Nat.le_trans h (Nat.le_of_eq (hdouble fuel)))
      rw [← hdouble] at he hk hmin
      refine ⟨k + 1, he, hk, .inr ?_⟩
      rcases hmin with rfl | hmin
      · have hone : Nat.pow 2 (0 + 1) * power = 2 * power := rfl
        omega
      · exact hmin

/-- **The number of events that are kept** is a power of two, rounded up from the number that is
asked for, which is at least one. -/
theorem roundedCapacity_isPower {n : Nat} (h : n ≤ Nat.pow 2 64) :
    ∃ k, roundedCapacity n = Nat.pow 2 k ∧ max 1 n ≤ Nat.pow 2 k ∧
      Nat.pow 2 k < 2 * max 1 n := by
  obtain ⟨k, he, hk, hmin⟩ := powerFrom_eq n 64 1 Nat.one_pos ((Nat.mul_one _).symm ▸ h)
  rw [Nat.mul_one] at he hk hmin
  have hpos : 0 < Nat.pow 2 k := Nat.pow_pos Nat.two_pos
  refine ⟨k, he, by omega, ?_⟩
  rcases hmin with rfl | hmin
  · exact Nat.lt_of_lt_of_le Nat.one_lt_two (by omega)
  · omega

/-! ### The window -/

/-- **The bus keeps the latest of the events** that were ever published, which are in `log`. -/
structure Holds (b : Bus) (capacity : Nat) (log : List Event) : Prop where
  capacity_eq : b.capacity = capacity
  published_eq : b.published = log.length
  kept_eq : b.kept = log.reverse.take capacity

/-- The place of a subscriber: the number of the event that it gets next. -/
def next? (b : Bus) (name : String) : Option Nat :=
  (b.subscribers.find? fun s => s.name == name).map Subscriber.next

/-- The events that are kept for a subscriber at a place. -/
def waiting (b : Bus) (next : Nat) : List Event := b.kept.reverse.drop (next - b.oldest)

/-- The number of events that are gone for a subscriber at a place, which has not been told so. -/
def missed (b : Bus) (next : Nat) : Nat := b.oldest - next

/-- What a subscriber at a place gets if nothing more is published: it is told what is gone, and
then it gets what waits. -/
def dueTo (b : Bus) (next : Nat) : List Reception :=
  (if next < b.oldest then [.lagged (b.missed next)] else []) ++ (b.waiting next).map .event

theorem Holds.ofCapacity (n : Nat) : (Bus.ofCapacity n).Holds (roundedCapacity n) [] :=
  ⟨rfl, rfl, by simp [Bus.ofCapacity]⟩

namespace Holds

variable {b : Bus} {capacity : Nat} {log : List Event} (h : b.Holds capacity log)

include h

/-- **An event enters the window**, and the oldest one may leave it. -/
theorem publish (e : Event) : (b.publish e).Holds capacity (log ++ [e]) where
  capacity_eq := h.capacity_eq
  published_eq := by simp [Bus.publish, h.published_eq]
  kept_eq := by
    rw [Bus.publish, List.reverse_append, h.capacity_eq]
    cases capacity with
    | zero => rfl
    | succ c => simp [h.kept_eq, List.take_take]

theorem subscribe (name : String) : (b.subscribe name).Holds capacity log :=
  ⟨h.capacity_eq, h.published_eq, h.kept_eq⟩

theorem unsubscribe (name : String) : (b.unsubscribe name).Holds capacity log :=
  ⟨h.capacity_eq, h.published_eq, h.kept_eq⟩

theorem advance (name : String) (next : Nat) : (b.advance name next).Holds capacity log :=
  ⟨h.capacity_eq, h.published_eq, h.kept_eq⟩

theorem close : b.close.Holds capacity log := ⟨h.capacity_eq, h.published_eq, h.kept_eq⟩

theorem oldest_eq : b.oldest = log.length - capacity := by
  rw [oldest, h.published_eq, h.kept_eq, List.length_take, List.length_reverse]
  omega

theorem oldest_le : b.oldest ≤ log.length := by
  rw [h.oldest_eq]
  omega

/-- What is kept is what comes last in the history. -/
theorem reverse_kept : b.kept.reverse = log.drop b.oldest := by
  rw [h.oldest_eq, h.kept_eq, List.reverse_take, List.reverse_reverse, List.length_reverse]

theorem waiting_eq {next : Nat} (hn : b.oldest ≤ next) : b.waiting next = log.drop next := by
  rw [waiting, h.reverse_kept, List.drop_drop, Nat.add_sub_cancel' hn]

/-- As many wait as are kept at most, and as there are from the place on. -/
theorem length_waiting (next : Nat) :
    (b.waiting next).length = min capacity (log.length - next) := by
  rw [waiting, List.length_drop, List.length_reverse, h.oldest_eq, h.kept_eq, List.length_take,
    List.length_reverse]
  omega

/-- **What a subscriber has not got yet** is gone, or it waits. -/
theorem drop_eq (next : Nat) :
    ∃ gone, log.drop next = gone ++ b.waiting next ∧ gone.length = b.missed next := by
  have hle := h.oldest_le
  refine ⟨(log.drop next).take (b.missed next), ?_, ?_⟩
  · conv_lhs => rw [← List.take_append_drop (b.missed next) (log.drop next)]
    rw [List.drop_drop, waiting, h.reverse_kept, List.drop_drop]
    congr 2
    unfold missed
    omega
  · rw [List.length_take, List.length_drop, missed]
    omega

end Holds

/-! ### Subscribers -/

variable {b : Bus} {name other : String} {capacity : Nat} {log : List Event}

/-- A subscriber gets the events from now on. -/
theorem next?_subscribe (b : Bus) (name : String) :
    (b.subscribe name).next? name = some b.published := by
  have hnone : (b.unsubscribe name).subscribers.find? (fun s => s.name == name) = none := by
    simp [unsubscribe]
  rw [next?, subscribe, List.find?_append, hnone]
  simp [unsubscribe]

theorem next?_unsubscribe_of_ne (h : other ≠ name) :
    (b.unsubscribe other).next? name = b.next? name := by
  rw [next?, unsubscribe, List.find?_filter, next?]
  congr 2
  funext s
  by_cases hs : s.name = name
  · simp [hs, h.symm]
  · simp [hs]

theorem next?_subscribe_of_ne (h : other ≠ name) :
    (b.subscribe other).next? name = b.next? name := by
  have hfind : (b.subscribe other).next? name =
      (((b.unsubscribe other).subscribers ++ [(⟨other, b.published⟩ : Subscriber)]).find? fun s =>
        s.name == name).map Subscriber.next := rfl
  rw [hfind, List.find?_append, ← next?_unsubscribe_of_ne h, next?]
  simp [h]

/-- A subscriber that moves on is found where it was found before. -/
theorem next?_advance (b : Bus) (other name : String) (next : Nat) :
    (b.advance other next).next? name =
      (b.next? name).map fun p => if other = name then next else p := by
  have hname : ((fun s : Subscriber => s.name == name) ∘ fun s : Subscriber =>
      if s.name == other then (⟨other, next⟩ : Subscriber) else s) = fun s => s.name == name := by
    funext s
    by_cases hs : s.name = other <;> simp [hs]
  rw [next?, advance, List.find?_map, hname, next?]
  cases hs : b.subscribers.find? fun s => s.name == name with
  | none => rfl
  | some s =>
    have hsname : s.name = name := by simpa using List.find?_some hs
    by_cases ho : other = name
    · simp [hsname, ho]
    · simp [hsname, ho, Ne.symm ho]

/-- **What a subscriber gets** is told by its place in the history. -/
theorem Holds.receive_eq (h : b.Holds capacity log) {p : Nat}
    (hp : b.next? name = some p) :
    b.receive name =
      if p < b.oldest then (.lagged (b.missed p), b.advance name b.oldest)
      else
        match log[p]? with
        | some e => (.event e, b.advance name (p + 1))
        | none => (if b.isOpen then .empty else .closed, b) := by
  obtain ⟨s, hs, rfl⟩ := Option.map_eq_some_iff.mp hp
  rw [receive, hs]
  dsimp only
  split
  · rfl
  next hle =>
    have hget : b.kept.reverse[s.next - b.oldest]? = log[s.next]? := by
      rw [h.reverse_kept, List.getElem?_drop, Nat.add_sub_cancel' (Nat.le_of_not_lt hle)]
    cases hlog : log[s.next]? <;> simp only [hget, hlog]

/-- One that gets something moves on at most itself. -/
theorem receive_snd (b : Bus) (name : String) :
    (b.receive name).2 = b ∨ ∃ next, (b.receive name).2 = b.advance name next := by
  rw [receive]
  split
  · exact .inl rfl
  next s _ =>
    split
    · exact .inr ⟨_, rfl⟩
    · split
      · exact .inr ⟨_, rfl⟩
      · exact .inl rfl

theorem Holds.receive (h : b.Holds capacity log) (name : String) :
    (b.receive name).2.Holds capacity log := by
  rcases b.receive_snd name with hb | ⟨next, hb⟩
  · exact hb.symm ▸ h
  · exact hb.symm ▸ h.advance name next

theorem next?_receive_of_ne (h : other ≠ name) :
    (b.receive other).2.next? name = b.next? name := by
  rcases b.receive_snd other with hb | ⟨next, hb⟩
  · rw [hb]
  · simp [hb, next?_advance, h]

/-- **What a subscriber gets is what is due to it**, as long as something is due. -/
theorem Holds.dueTo_eq (h : b.Holds capacity log) {p : Nat} (hp : b.next? name = some p) :
    ∃ q, (b.receive name).2.next? name = some q ∧
      (b.dueTo p = (b.receive name).1 :: (b.receive name).2.dueTo q ∨
        b.dueTo p = [] ∧ b.receive name = (if b.isOpen then .empty else .closed, b) ∧ q = p) := by
  rw [h.receive_eq hp]
  have hmoved (q : Nat) : (b.advance name q).next? name = some q := by
    rw [next?_advance, hp, Option.map_some, if_pos rfl]
  split
  next hlt =>
    refine ⟨b.oldest, hmoved b.oldest, .inl ?_⟩
    have hfrom : b.waiting p = b.waiting b.oldest := by
      rw [waiting, waiting, Nat.sub_eq_zero_of_le (Nat.le_of_lt hlt), Nat.sub_self]
    have hnext : (b.advance name b.oldest).dueTo b.oldest = (b.waiting b.oldest).map .event := by
      change b.dueTo b.oldest = _
      rw [dueTo, if_neg (Nat.lt_irrefl _), List.nil_append]
    rw [hnext, dueTo, if_pos hlt, hfrom]
    rfl
  next hle =>
    have hdue (q : Nat) (hq : p ≤ q) : b.dueTo q = (log.drop q).map .event := by
      rw [dueTo, if_neg (by omega), List.nil_append, h.waiting_eq (by omega)]
    cases hget : log[p]? with
    | none =>
      have hend : log.drop p = [] := List.drop_of_length_le (List.getElem?_eq_none_iff.mp hget)
      exact ⟨p, hp, .inr ⟨by rw [hdue p (Nat.le_refl p), hend, List.map_nil], rfl, rfl⟩⟩
    | some e =>
      obtain ⟨hp', rfl⟩ := List.getElem?_eq_some_iff.mp hget
      refine ⟨p + 1, hmoved (p + 1), .inl ?_⟩
      have hnext : (b.advance name (p + 1)).dueTo (p + 1) = (log.drop (p + 1)).map .event :=
        hdue (p + 1) (Nat.le_succ p)
      rw [hnext, hdue p (Nat.le_refl p), List.drop_eq_getElem_cons hp', List.map_cons]

end Bus

end WorkflowEngine
