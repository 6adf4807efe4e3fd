import WorkflowEngine.Proofs.Expr.Grammar

/-!
# Expressions in parentheses

A part of an expression is read in the same way whatever follows it, as long as that does not go on
with it. So tokens in which all brackets are closed spell the same expression with parentheses
around them as without.

## Main definitions

* `Part.StopsBefore`: what follows does not go on with a part

## Main results

* `Reads.append`, `Reads.of_append`: what follows a part is left alone
* `ofTokens?_group`: parentheses do not change the expression
* `ofTokens?_comparison`: an expression in parentheses is compared as a whole
-/

namespace WorkflowEngine.Expr.Expression

/-! ### What follows a part -/

/-- A token does not go on with an operand. -/
def EndsOperand (t : Token) : Prop :=
  t ≠ .mark .openBracket ∧ t ≠ .mark .dot ∧ t ≠ .mark .pipe ∧ t ≠ .mark .openParen

/-- A token does not go on with a part. -/
def Part.StopsAt (t : Token) : Part → Prop
  | .joined level | .joinedRest level _ =>
    EndsOperand t ∧ t ≠ .mark .question ∧ ∀ op, t = .op op → op.level < level
  | .choiceRest _ => EndsOperand t ∧ t ≠ .mark .question
  | .piped | .pipedRest _ | .selectedRest _ => EndsOperand t
  | .atom | .sequence _ | .fieldSequence => True

/-- What follows does not go on with a part. -/
def Part.StopsBefore (part : Part) (tail : List Token) : Prop :=
  ∀ t us, tail = t :: us → part.StopsAt t

variable {part : Part} {x : Reading} {ts r tail : List Token} {m : Mark}

theorem Reads.eq_nil (h : Reads part x [] r) : r = [] := by
  have hle := h.takes.length_le
  simp only [List.length_append, List.length_nil] at hle
  exact List.eq_nil_of_length_eq_zero (by omega)

theorem NotAt.append (h : NotAt m ts) (htail : ts = [] → ∀ us, tail ≠ .mark m :: us) :
    NotAt m (ts ++ tail) := by
  cases ts with
  | nil => exact htail rfl
  | cons t ts =>
    intro r heq
    cases heq
    exact h ts rfl

theorem NotAt.of_append (h : NotAt m (ts ++ tail)) : NotAt m ts := by
  rintro r rfl
  exact h (r ++ tail) rfl

/-- **What follows a part is left alone** if it does not go on with it. -/
theorem Reads.append (h : Reads part x ts r) (hstops : r = [] → part.StopsBefore tail) :
    Reads part x (ts ++ tail) (r ++ tail) := by
  induction h with
  | joined hlevel _ hrest ih₁ ih₂ =>
    refine .joined hlevel (ih₁ ?_) (ih₂ hstops)
    rintro rfl t us ht
    obtain ⟨hends, hquestion, hop⟩ := hstops hrest.eq_nil t us ht
    exact ⟨hends, hquestion, fun op hop' => Nat.lt_succ_of_lt (hop op hop')⟩
  | choice hlevel _ hrest ih₁ ih₂ =>
    refine .choice hlevel (ih₁ ?_) (ih₂ fun hr t us ht => ?_)
    · rintro rfl t us ht
      exact (hstops hrest.eq_nil t us ht).1
    · obtain ⟨hends, hquestion, -⟩ := hstops hr t us ht
      exact ⟨hends, hquestion⟩
  | operand hop _ hrest ih₁ ih₂ =>
    refine .operand hop (ih₁ ?_) (ih₂ hstops)
    rintro rfl t us ht
    obtain ⟨hends, hquestion, hop'⟩ := hstops hrest.eq_nil t us ht
    exact ⟨hends, hquestion, fun op hop => Nat.lt_succ_of_lt (hop' op hop)⟩
  | @joinedEnd level left ts h =>
    refine .joinedEnd fun op us heq => ?_
    cases ts with
    | nil => exact Nat.ne_of_lt ((hstops rfl _ us heq).2.2 op rfl)
    | cons t ts =>
      cases heq
      exact h op ts rfl
  | alternatives _ _ hrest ih₁ ih₂ ih₃ =>
    refine .alternatives (ih₁ nofun) (ih₂ ?_) (ih₃ hstops)
    rintro rfl t us ht
    exact (hstops hrest.eq_nil t us ht).1
  | choiceEnd h =>
    refine .choiceEnd (h.append ?_)
    rintro rfl us ht
    exact (hstops rfl _ us ht).2 rfl
  | piped _ hs hrest ih₁ ih₂ ih₃ =>
    refine .piped (ih₁ fun _ _ _ _ => trivial) (ih₂ ?_) (ih₃ hstops)
    rintro rfl t us ht
    exact hstops hrest.eq_nil t us ht
  | call _ _ ih₁ ih₂ => exact .call (ih₁ fun _ _ _ _ => trivial) (ih₂ hstops)
  | pipe h hrest ih =>
    refine .pipe (h.append ?_) (ih hstops)
    rintro rfl us ht
    exact (hstops hrest.eq_nil _ us ht).2.2.2 rfl
  | pipedEnd h =>
    refine .pipedEnd (h.append ?_)
    rintro rfl us ht
    exact (hstops rfl _ us ht).2.2.1 rfl
  | filter hop _ _ ih₁ ih₂ => exact .filter hop (ih₁ nofun) (ih₂ hstops)
  | index h hi _ ih₁ ih₂ =>
    refine .index (h.append ?_) (ih₁ nofun) (ih₂ hstops)
    rintro rfl
    cases hi.eq_nil
  | field _ ih => exact .field (ih hstops)
  | selectedEnd hbracket hdot =>
    refine .selectedEnd (hbracket.append ?_) (hdot.append ?_)
    · rintro rfl us ht
      exact (hstops rfl _ us ht).1 rfl
    · rintro rfl us ht
      exact (hstops rfl _ us ht).2.1 rfl
  | token h => exact .token h
  | group _ ih => exact .group (ih nofun)
  | list _ ih => exact .list (ih fun _ _ _ _ => trivial)
  | object _ ih => exact .object (ih fun _ _ _ _ => trivial)
  | sequenceEnd => exact .sequenceEnd
  | item h he _ ih₁ ih₂ =>
    refine .item (h.append ?_) (ih₁ nofun) (ih₂ fun _ _ _ _ => trivial)
    rintro rfl
    cases he.eq_nil
  | lastItem h hcomma he ih =>
    refine .lastItem (h.append ?_) hcomma (ih nofun)
    rintro rfl
    cases he.eq_nil
  | fieldsEnd => exact .fieldsEnd
  | entry hk _ _ ih₁ ih₂ => exact .entry hk (ih₁ nofun) (ih₂ fun _ _ _ _ => trivial)
  | lastEntry hk _ ih => exact .lastEntry hk (ih nofun)

theorem Reads.suffix (h : Reads part x ts r) : r <:+ ts := by
  obtain ⟨taken, heq, -⟩ := h.takes
  exact ⟨taken ++ part.closing, by rw [heq, List.append_assoc]⟩

theorem cons_eq_append {t : Token} {us : List Token} (h : t :: us = ts ++ tail)
    (htail : tail <:+ us) : ∃ ts', ts = t :: ts' ∧ us = ts' ++ tail := by
  obtain ⟨vs, rfl⟩ := htail
  rw [← List.cons_append] at h
  exact ⟨vs, (List.append_cancel_right h).symm, rfl⟩

/-- **What follows a part does not matter** if it is left alone. -/
theorem Reads.of_append {us s : List Token} (h : Reads part x us s) (hus : us = ts ++ tail)
    (hs : s = r ++ tail) : Reads part x ts r := by
  induction h generalizing ts r with
  | joined hlevel _ hrest ih₁ ih₂ =>
    obtain ⟨m, hm⟩ := (List.IsSuffix.trans ⟨r, hs.symm⟩ hrest.suffix : tail <:+ _)
    exact .joined hlevel (ih₁ hus hm.symm) (ih₂ hm.symm hs)
  | choice hlevel _ hrest ih₁ ih₂ =>
    obtain ⟨m, hm⟩ := (List.IsSuffix.trans ⟨r, hs.symm⟩ hrest.suffix : tail <:+ _)
    exact .choice hlevel (ih₁ hus hm.symm) (ih₂ hm.symm hs)
  | operand hop hright hrest ih₁ ih₂ =>
    have htail : tail <:+ _ := .trans ⟨r, hs.symm⟩ hrest.suffix
    obtain ⟨ts, rfl, hts⟩ := cons_eq_append hus (htail.trans hright.suffix)
    obtain ⟨m, hm⟩ := htail
    exact .operand hop (ih₁ hts hm.symm) (ih₂ hm.symm hs)
  | joinedEnd h =>
    obtain rfl : ts = r := List.append_cancel_right (hus.symm.trans hs)
    exact .joinedEnd fun op us heq => h op (us ++ tail) (by rw [hus, heq]; rfl)
  | alternatives ht hf hrest ih₁ ih₂ ih₃ =>
    have htail₂ : tail <:+ _ := .trans ⟨r, hs.symm⟩ hrest.suffix
    have htail₁ : tail <:+ _ := htail₂.trans hf.suffix
    obtain ⟨ts, rfl, hts⟩ :=
      cons_eq_append hus ((htail₁.trans (List.suffix_cons ..)).trans ht.suffix)
    obtain ⟨m₁, hm₁⟩ := htail₁
    obtain ⟨m₂, hm₂⟩ := htail₂
    exact .alternatives (ih₁ hts (by rw [← hm₁]; rfl)) (ih₂ hm₁.symm hm₂.symm) (ih₃ hm₂.symm hs)
  | choiceEnd h =>
    obtain rfl : ts = r := List.append_cancel_right (hus.symm.trans hs)
    exact .choiceEnd (hus ▸ h).of_append
  | piped _ hs' hrest ih₁ ih₂ ih₃ =>
    have htail₂ : tail <:+ _ := .trans ⟨r, hs.symm⟩ hrest.suffix
    obtain ⟨m₁, hm₁⟩ := htail₂.trans hs'.suffix
    obtain ⟨m₂, hm₂⟩ := htail₂
    exact .piped (ih₁ hus hm₁.symm) (ih₂ hm₁.symm hm₂.symm) (ih₃ hm₂.symm hs)
  | call hargs hrest ih₁ ih₂ =>
    have htail : tail <:+ _ := .trans ⟨r, hs.symm⟩ hrest.suffix
    have hts := htail.trans hargs.suffix
    obtain ⟨ts, rfl, h₁⟩ :=
      cons_eq_append hus ((hts.trans (List.suffix_cons ..)).trans (List.suffix_cons ..))
    obtain ⟨ts, rfl, h₂⟩ := cons_eq_append h₁ (hts.trans (List.suffix_cons ..))
    obtain ⟨ts, rfl, h₃⟩ := cons_eq_append h₂ hts
    obtain ⟨m, hm⟩ := htail
    exact .call (ih₁ h₃ hm.symm) (ih₂ hm.symm hs)
  | pipe h hrest ih =>
    have hts : tail <:+ _ := .trans ⟨r, hs.symm⟩ hrest.suffix
    obtain ⟨ts, rfl, h₁⟩ := cons_eq_append hus (hts.trans (List.suffix_cons ..))
    obtain ⟨ts, rfl, h₂⟩ := cons_eq_append h₁ hts
    exact .pipe (h₂ ▸ h).of_append (ih h₂ hs)
  | pipedEnd h =>
    obtain rfl : ts = r := List.append_cancel_right (hus.symm.trans hs)
    exact .pipedEnd (hus ▸ h).of_append
  | filter hop hv hrest ih₁ ih₂ =>
    have htail : tail <:+ _ := .trans ⟨r, hs.symm⟩ hrest.suffix
    have hts := (htail.trans (List.suffix_cons ..)).trans hv.suffix
    obtain ⟨ts, rfl, h₁⟩ := cons_eq_append hus
      (((hts.trans (List.suffix_cons ..)).trans (List.suffix_cons ..)).trans
        (List.suffix_cons ..))
    obtain ⟨ts, rfl, h₂⟩ := cons_eq_append h₁
      ((hts.trans (List.suffix_cons ..)).trans (List.suffix_cons ..))
    obtain ⟨ts, rfl, h₃⟩ := cons_eq_append h₂ (hts.trans (List.suffix_cons ..))
    obtain ⟨ts, rfl, h₄⟩ := cons_eq_append h₃ hts
    obtain ⟨m, hm⟩ := htail
    exact .filter hop (ih₁ h₄ (by rw [← hm]; rfl)) (ih₂ hm.symm hs)
  | index h hi hrest ih₁ ih₂ =>
    have htail : tail <:+ _ := .trans ⟨r, hs.symm⟩ hrest.suffix
    obtain ⟨ts, rfl, hts⟩ :=
      cons_eq_append hus ((htail.trans (List.suffix_cons ..)).trans hi.suffix)
    obtain ⟨m, hm⟩ := htail
    exact .index (hts ▸ h).of_append (ih₁ hts (by rw [← hm]; rfl)) (ih₂ hm.symm hs)
  | field hrest ih =>
    have hts : tail <:+ _ := .trans ⟨r, hs.symm⟩ hrest.suffix
    obtain ⟨ts, rfl, h₁⟩ := cons_eq_append hus (hts.trans (List.suffix_cons ..))
    obtain ⟨ts, rfl, h₂⟩ := cons_eq_append h₁ hts
    exact .field (ih h₂ hs)
  | selectedEnd hbracket hdot =>
    obtain rfl : ts = r := List.append_cancel_right (hus.symm.trans hs)
    exact .selectedEnd (hus ▸ hbracket).of_append (hus ▸ hdot).of_append
  | token h =>
    obtain ⟨ts, rfl, hts⟩ := cons_eq_append hus ⟨r, hs.symm⟩
    obtain rfl : ts = r := List.append_cancel_right (hts.symm.trans hs)
    exact .token h
  | group he ih =>
    obtain ⟨ts, rfl, hts⟩ := cons_eq_append hus
      ((List.IsSuffix.trans ⟨r, hs.symm⟩ (List.suffix_cons ..)).trans he.suffix)
    exact .group (ih hts (by rw [hs]; rfl))
  | list hes ih =>
    obtain ⟨ts, rfl, hts⟩ := cons_eq_append hus (.trans ⟨r, hs.symm⟩ hes.suffix)
    exact .list (ih hts hs)
  | object hfs ih =>
    obtain ⟨ts, rfl, hts⟩ := cons_eq_append hus (.trans ⟨r, hs.symm⟩ hfs.suffix)
    exact .object (ih hts hs)
  | sequenceEnd =>
    obtain ⟨ts, rfl, hts⟩ := cons_eq_append hus ⟨r, hs.symm⟩
    obtain rfl : ts = r := List.append_cancel_right (hts.symm.trans hs)
    exact .sequenceEnd
  | item h he hes ih₁ ih₂ =>
    obtain ⟨m, hm⟩ := (List.IsSuffix.trans ⟨r, hs.symm⟩ hes.suffix : tail <:+ _)
    exact .item (hus ▸ h).of_append (ih₁ hus (by rw [← hm]; rfl)) (ih₂ hm.symm hs)
  | lastItem h hcomma _ ih =>
    exact .lastItem (hus ▸ h).of_append hcomma (ih hus (by rw [hs]; rfl))
  | fieldsEnd =>
    obtain ⟨ts, rfl, hts⟩ := cons_eq_append hus ⟨r, hs.symm⟩
    obtain rfl : ts = r := List.append_cancel_right (hts.symm.trans hs)
    exact .fieldsEnd
  | entry hk he hfs ih₁ ih₂ =>
    have htail : tail <:+ _ := .trans ⟨r, hs.symm⟩ hfs.suffix
    have hts := (htail.trans (List.suffix_cons ..)).trans he.suffix
    obtain ⟨ts, rfl, h₁⟩ := cons_eq_append hus (hts.trans (List.suffix_cons ..))
    obtain ⟨ts, rfl, h₂⟩ := cons_eq_append h₁ hts
    obtain ⟨m, hm⟩ := htail
    exact .entry hk (ih₁ h₂ (by rw [← hm]; rfl)) (ih₂ hm.symm hs)
  | lastEntry hk he ih =>
    have hts : tail <:+ _ :=
      (List.IsSuffix.trans ⟨r, hs.symm⟩ (List.suffix_cons ..)).trans he.suffix
    obtain ⟨ts, rfl, h₁⟩ := cons_eq_append hus (hts.trans (List.suffix_cons ..))
    obtain ⟨ts, rfl, h₂⟩ := cons_eq_append h₁ hts
    exact .lastEntry hk (ih h₂ (by rw [hs]; rfl))

/-! ### Parentheses -/

/-- **An operand by itself** is an expression of any level. -/
theorem Reads.joined_of_atom {e : Expression} (h : Reads .atom (.one e) ts r) {level : Nat}
    (hstops : (Part.joined level).StopsBefore r) : Reads (.joined level) (.one e) ts r := by
  have hnot {m : Mark} (hm : ∀ t, EndsOperand t → t ≠ .mark .question → t ≠ .mark m) :
      NotAt m r := by
    intro us hus
    obtain ⟨hends, hquestion, -⟩ := hstops _ us hus
    exact hm _ hends hquestion rfl
  have hpiped : Reads .piped (.one e) ts r :=
    .piped h (.selectedEnd (hnot fun _ h _ => h.1) (hnot fun _ h _ => h.2.1))
      (.pipedEnd (hnot fun _ h _ => h.2.2.1))
  -- Induction on the number of levels that are left.
  induction hk : Operator.levels - level generalizing level with
  | zero => exact .choice (by omega) hpiped (.choiceEnd (hnot fun _ _ h => h))
  | succ k ih =>
    refine .joined (by omega) (ih (fun t us ht => ?_) (by omega)) (.joinedEnd fun op us hus => ?_)
    · obtain ⟨hends, hquestion, hop⟩ := hstops t us ht
      exact ⟨hends, hquestion, fun op hop' => Nat.lt_succ_of_lt (hop op hop')⟩
    · exact Nat.ne_of_lt ((hstops _ us hus).2.2 op rfl)

/-- The expression that a part goes on with. -/
def Part.before? : Part → Option Expression
  | .joinedRest _ e | .choiceRest e | .pipedRest e | .selectedRest e => some e
  | _ => none

/-- A part that takes nothing is what it goes on with. -/
theorem Reads.eq_before {e e₀ : Expression} (h : Reads part (.one e) ts r)
    (hbefore : part.before? = some e₀) (hr : ts = r) : e = e₀ := by
  have hno {us : List Token} (h : r <:+ us) (hlt : us.length < ts.length) : e = e₀ := by
    have hle := h.length_le
    rw [← hr] at hle
    omega
  cases h with
  | joinedEnd | choiceEnd | pipedEnd | selectedEnd => exact Option.some.inj hbefore
  | operand _ h h' | call h h' =>
    exact hno (h'.suffix.trans h.suffix) (by simp only [List.length_cons]; omega)
  | alternatives ht hf h =>
    exact hno (((h.suffix.trans hf.suffix).trans (List.suffix_cons ..)).trans ht.suffix)
      (by simp only [List.length_cons]; omega)
  | pipe _ h | field h => exact hno h.suffix (by simp only [List.length_cons]; omega)
  | filter _ h h' | index _ h h' =>
    exact hno ((h'.suffix.trans (List.suffix_cons ..)).trans h.suffix)
      (by simp only [List.length_cons]; omega)
  | joined | choice | piped | token | group | list | object => cases hbefore

/-- **An expression begins with an operand**, and it is that one if nothing else is read. -/
theorem Reads.exists_atom {e : Expression} (h : Reads part (.one e) ts r)
    (hpart : part = .piped ∨ ∃ level, part = .joined level) :
    ∃ a r₁, Reads .atom (.one a) ts r₁ ∧ r <:+ r₁ ∧ (r₁ = r → e = a) := by
  have between {q r₁ r : List Token} (h : r <:+ r₁) (h' : r₁ <:+ q) (hq : q = r) : r₁ = r :=
    (h.eq_of_length (Nat.le_antisymm h.length_le (hq ▸ h'.length_le))).symm
  generalize hx : Reading.one e = x at h
  induction h generalizing e with
  | joined _ _ hrest ih₁ _ =>
    cases hx
    obtain ⟨a, q, ha, hq, heq⟩ := ih₁ (.inr ⟨_, rfl⟩) rfl
    refine ⟨a, q, ha, hrest.suffix.trans hq, fun h => ?_⟩
    have hr := between hrest.suffix hq h
    exact (hrest.eq_before rfl hr).trans (heq (h.trans hr.symm))
  | choice _ _ hrest ih₁ _ =>
    cases hx
    obtain ⟨a, q, ha, hq, heq⟩ := ih₁ (.inl rfl) rfl
    refine ⟨a, q, ha, hrest.suffix.trans hq, fun h => ?_⟩
    have hr := between hrest.suffix hq h
    exact (hrest.eq_before rfl hr).trans (heq (h.trans hr.symm))
  | piped ha hs hrest =>
    cases hx
    refine ⟨_, _, ha, hrest.suffix.trans hs.suffix, fun h => ?_⟩
    have hr := between hrest.suffix hs.suffix h
    exact (hrest.eq_before rfl hr).trans (hs.eq_before rfl (h.trans hr.symm))
  | _ => rcases hpart with h | ⟨_, h⟩ <;> cases h

/-- The tokens with parentheses around them. -/
def group (ts : List Token) : List Token := .mark .openParen :: (ts ++ [.mark .closeParen])

/-- **Parentheses do not change the expression** that tokens spell, if all brackets in them are
closed. -/
theorem ofTokens?_group (hts : ts.foldlM depthAfter 0 = some 0) :
    ofTokens? (group ts) = ofTokens? ts := by
  refine Option.ext fun e => ?_
  rw [ofTokens?_eq_some_iff, ofTokens?_eq_some_iff]
  constructor
  · intro h
    obtain ⟨a, r₁, ha, -, hea⟩ := h.exists_atom (.inr ⟨0, rfl⟩)
    cases ha with
    | token h => cases h
    | group ha =>
      -- If the parenthesis were closed earlier, more brackets would be closed than are open.
      obtain ⟨taken, htaken, hnested⟩ := ha.takes
      obtain rfl : r₁ = [] := by
        rcases List.eq_nil_or_concat r₁ with hnil | ⟨r₁, t, rfl⟩
        · exact hnil
        · have heq : ts ++ [.mark .closeParen] = (taken ++ .mark .closeParen :: r₁) ++ [t] := by
            simpa [Part.closing] using htaken
          rw [List.append_inj_left' heq rfl, List.foldlM_append, hnested 0] at hts
          cases hts
      rw [hea rfl]
      exact ha.of_append rfl rfl
  · intro h
    have hclose : Reads (.joined 0) (.one e) (ts ++ [.mark .closeParen]) [.mark .closeParen] :=
      h.append fun _ t us ht => by
        cases ht
        exact ⟨⟨nofun, nofun, nofun, nofun⟩, nofun, nofun⟩
    exact (Reads.group hclose).joined_of_atom nofun

/-- **A comparison of an expression in parentheses** with a single token compares the expression. -/
theorem ofTokens?_comparison {e right : Expression} {op : Operator} {t : Token}
    (h : ofTokens? ts = some e) (hop : op.level = 1) (ht : ofToken? t = some right) :
    ofTokens? (group ts ++ [.op op, t]) = some (.binary op e right) := by
  have stops {level : Nat} (hlevel : 1 < level) :
      (Part.joined level).StopsBefore [.op op, t] := by
    intro u us hu
    cases hu
    refine ⟨⟨nofun, nofun, nofun, nofun⟩, nofun, fun op' hop' => ?_⟩
    cases hop'
    exact hop ▸ hlevel
  rw [ofTokens?_eq_some_iff] at h ⊢
  have hclose : Reads (.joined 0) (.one e) (ts ++ .mark .closeParen :: [.op op, t])
      (.mark .closeParen :: [.op op, t]) :=
    h.append fun _ t us ht => by
      cases ht
      exact ⟨⟨nofun, nofun, nofun, nofun⟩, nofun, nofun⟩
  have hleft : Reads (.joined 2) (.one e) (group ts ++ [.op op, t]) [.op op, t] := by
    have heq : group ts ++ [.op op, t] =
        .mark .openParen :: (ts ++ .mark .closeParen :: [.op op, t]) := by simp [group]
    rw [heq]
    exact (Reads.group hclose).joined_of_atom (stops (by decide))
  have hright : Reads (.joined 2) (.one right) [t] [] :=
    (Reads.token ht).joined_of_atom nofun
  have hlevel : 1 < Operator.levels := by decide
  exact .joined (by decide)
    (.joined hlevel hleft (.operand hop hright (.joinedEnd nofun))) (.joinedEnd nofun)

end WorkflowEngine.Expr.Expression
