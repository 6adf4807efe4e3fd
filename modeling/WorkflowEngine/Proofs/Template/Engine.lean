import WorkflowEngine.Proofs.Expr.Evaluation
import WorkflowEngine.Proofs.Expr.Group
import WorkflowEngine.Proofs.Template.Brackets

/-!
# Engines

Templates are evaluated over any engine. Where the value of a text is told from the text itself,
this rests on a few rules by which the engine reads what it is given: texts within quotes,
parentheses, comparisons with what stands in parentheses, and blanks. Each rule has a name here, so
that it can be assumed of an engine, and the engine of expressions keeps them all.

## Main definitions

* `Expr.Engine.KnowsExpressions`: no expression is malformed
* `Expr.Engine.ReadsQuoted`: a text within quotes is its own value
* `Expr.Engine.SkipsParentheses`, `Expr.Engine.SkipsBlanks`: parentheses and blanks around a text
  do not matter
* `Expr.Engine.ComparesGroups`: what stands in parentheses is compared by its value

## Main results

* `Expr.knowsExpressions_engine`, `Expr.readsQuoted_engine`, `Expr.skipsParentheses_engine`,
  `Expr.skipsBlanks_engine`, `Expr.comparesGroups_engine`: the engine of expressions keeps the rules
-/

namespace WorkflowEngine.Expr

open Token

/-! ### Rules -/

namespace Engine

variable (engine : Engine)

/-- **No expression is malformed.** It may fail for another reason. -/
def KnowsExpressions : Prop :=
  ∀ text context, (Expression.read text).isSome = true → engine text context ≠ .error .malformed

/-- **A text within quotes is its own value**, if it is in ASCII and has neither that quote nor
backslashes. -/
def ReadsQuoted : Prop :=
  ∀ q s context, IsQuote q → (∀ c ∈ s, c.toNat < 128 ∧ c ≠ q ∧ c ≠ '\\') →
    engine (String.ofList (q :: (s ++ [q]))) context = .ok (.str (String.ofList s))

/-- **Parentheses around a balanced text do not matter.** -/
def SkipsParentheses : Prop :=
  ∀ cs context, Template.isBalancedFrom .outside 0 cs = true →
    engine (String.ofList ('(' :: (cs ++ [')']))) context = engine (String.ofList cs) context

/-- **Blanks around a text do not matter**, if the grammar knows them as blanks. -/
def SkipsBlanks : Prop :=
  ∀ cs context, (∀ c ∈ cs, Text.isBlank c = true → isSpace c = true) →
    engine (String.ofList (Text.trimmed cs)) context = engine (String.ofList cs) context

/-- **A comparison with a name or a literal** compares the value of what stands in parentheses
before it. -/
def ComparesGroups : Prop :=
  ∀ cs rest context op t right v w, op.level = 1 →
    scan (String.ofList rest) = some [.op op, t] → Expression.ofToken? t = some right →
    engine (String.ofList cs) context = .ok v → Expression.eval context right = .ok w →
      engine (String.ofList ('(' :: (cs ++ ')' :: rest))) context = apply op v w

end Engine

variable {cs tail : List Char} {context : Json}

/-! ### Expressions -/

theorem knowsExpressions_engine : engine.KnowsExpressions :=
  fun _ _ h => engine_ne_malformed_iff.mpr h

theorem Expression.read_ofList (cs : List Char) :
    Expression.read (String.ofList cs) =
      if cs.all fun c => c.toNat < 128 then (tokens cs).bind ofTokens? else none := by
  rw [Expression.read, scan_ofList]
  split <;> rfl

/-- What has tokens is in ASCII. -/
theorem Token.of_scan {ts : List Token} (h : scan (String.ofList cs) = some ts) :
    (cs.all fun c => c.toNat < 128) = true ∧ tokens cs = some ts := by
  rw [scan_ofList] at h
  split at h
  next hall => exact ⟨hall, h⟩
  next => cases h

/-- What is read is written in tokens. -/
theorem Expression.exists_tokens {e : Expression}
    (h : Expression.read (String.ofList cs) = some e) :
    (cs.all fun c => c.toNat < 128) = true ∧ ∃ ts, tokens cs = some ts ∧ ofTokens? ts = some e := by
  rw [Expression.read_ofList] at h
  split at h
  next hall => exact ⟨hall, Option.bind_eq_some_iff.mp h⟩
  next => cases h

theorem exists_read_of_engine {text : String} {v : Json} (h : engine text context = .ok v) :
    ∃ e, Expression.read text = some e ∧ e.eval context = .ok v := by
  unfold engine at h
  split at h
  next e he => exact ⟨e, he, h⟩
  next => cases h

theorem engine_of_tokens {text : String} {ts : List Token} {e : Expression} {v : Json}
    (hts : scan text = some ts) (he : Expression.ofTokens? ts = some e)
    (hv : e.eval context = .ok v) : engine text context = .ok v := by
  have hread : Expression.read text = some e := by
    rw [Expression.read, hts]
    exact he
  rw [engine, hread]
  exact hv

/-! ### Texts within quotes -/

section Quotes

variable {q : Char} {s : List Char}

/-- A text without its quote and without backslashes is read up to that quote. -/
theorem Token.untilQuote_append_quote (hq : IsQuote q) (hs : ∀ c ∈ s, c ≠ q ∧ c ≠ '\\')
    (r : List Char) : untilQuote q (s ++ q :: r) = some (s, r) := by
  induction s with
  | nil => rw [List.nil_append, untilQuote_cons hq.ne_slash, if_pos rfl]
  | cons c s ih =>
    obtain ⟨hne, hslash⟩ := hs c List.mem_cons_self
    rw [List.cons_append, untilQuote_cons hslash, if_neg hne,
      ih fun c hc => hs c (List.mem_cons_of_mem _ hc)]
    rfl

/-- **A text within quotes is one token.** -/
theorem Token.tokens_quoted (hq : IsQuote q) (hs : ∀ c ∈ s, c ≠ q ∧ c ≠ '\\') :
    tokens (q :: (s ++ [q])) = some [.text (String.ofList s)] := by
  have hnext : next (q :: (s ++ [q])) = some (.text (String.ofList s), []) := by
    have huntil := untilQuote_append_quote hq hs []
    rcases hq with rfl | rfl <;> exact congrArg (Option.map _) huntil
  have hspace : (q :: (s ++ [q])).dropWhile isSpace = q :: (s ++ [q]) := by
    rcases hq with rfl | rfl <;> rfl
  rw [tokens_eq, hspace]
  dsimp only
  rw [hnext]
  rfl

/-- **The engine finds the text** that stands within quotes. -/
theorem readsQuoted_engine : engine.ReadsQuoted := by
  intro q s context hq hs
  have hascii : ((q :: (s ++ [q])).all fun c => c.toNat < 128) = true := by
    have hqascii : q.toNat < 128 := by rcases hq with rfl | rfl <;> decide
    simpa [hqascii] using fun c hc => (hs c hc).1
  have hread : Expression.read (String.ofList (q :: (s ++ [q]))) =
      some (.text (String.ofList s)) := by
    rw [Expression.read_ofList, if_pos hascii, tokens_quoted hq fun c hc => (hs c hc).2]
    rfl
  rw [engine, hread]
  rfl

end Quotes

/-! ### Parentheses -/

/-- **The tokens of a text in parentheses**, and of what follows it. -/
theorem Token.tokens_group (h : tokens cs ≠ none ∨ ∀ x ∈ tail, ¬IsQuote x) :
    tokens ('(' :: (cs ++ ')' :: tail)) =
      (tokens cs).bind fun ts => (tokens tail).map (Expression.group ts ++ ·) := by
  rw [tokens_open, tokens_append endsToken_close h, tokens_close]
  cases tokens cs with
  | none => rfl
  | some ts => cases tokens tail <;> simp [Expression.group]

/-- **Parentheses do not matter** to the expression that is read. -/
theorem Expression.read_group (h : Template.isBalancedFrom .outside 0 cs = true) :
    Expression.read (String.ofList ('(' :: (cs ++ [')']))) =
      Expression.read (String.ofList cs) := by
  have hall : (('(' :: (cs ++ [')'])).all fun c => c.toNat < 128) =
      cs.all fun c => c.toNat < 128 := by
    rw [List.all_cons, List.all_append]
    exact Bool.and_true _
  rw [Expression.read_ofList, Expression.read_ofList, hall,
    Token.tokens_group (.inr fun _ hx => absurd hx List.not_mem_nil)]
  cases hts : tokens cs with
  | none => rfl
  | some ts =>
    have hgroup : ofTokens? (group ts ++ []) = ofTokens? ts := by
      rw [List.append_nil, ofTokens?_group (Template.foldlM_tokens_of_balanced h hts)]
    simp only [tokens_nil, Option.map_some, Option.bind_some, hgroup]

/-- **Parentheses do not matter to the engine.** -/
theorem skipsParentheses_engine : engine.SkipsParentheses := by
  intro cs context h
  rw [engine, engine, Expression.read_group h]

/-! ### Blanks -/

/-- To the engine, a text in ASCII has no other blanks. -/
theorem Token.isSpace_of_isBlank {c : Char} (hc : c.toNat < 128) (h : Text.isBlank c = true) :
    isSpace c = true := by
  simp only [Text.isBlank, isSpace, Bool.or_eq_true, Bool.and_eq_true, decide_eq_true_eq,
    beq_iff_eq] at h ⊢
  have hne {d : Char} (hd : 128 ≤ d.toNat) : c ≠ d := by
    rintro rfl
    omega
  have hnot {d : Char} (hd : 128 ≤ d.toNat) : ¬d ≤ c := by
    intro hle
    have : d.toNat ≤ c.toNat := hle
    omega
  simpa [hne, hnot, or_comm] using h

/-- Blanks at the end do not matter to a text in ASCII. -/
theorem Token.tokens_trimEnd (h : (cs.all fun c => c.toNat < 128) = true) :
    tokens (Text.trimEnd cs) = tokens cs := by
  have hcs : Text.trimEnd cs ++ cs.rtakeWhile Text.isBlank = cs :=
    List.rdropWhile_append_rtakeWhile
  have hspace : ∀ c ∈ cs.rtakeWhile Text.isBlank, isSpace c = true := fun c hc =>
    isSpace_of_isBlank (of_decide_eq_true (List.all_eq_true.mp h c (by
      rw [← hcs]
      exact List.mem_append_right _ hc))) (List.mem_rtakeWhile_imp hc)
  have htokens := tokens_append_spaces (l := []) (fun c hc => absurd hc List.not_mem_nil) hspace
    (Text.trimEnd cs)
  rwa [List.nil_append, hcs, eq_comm] at htokens

/-- **Blanks around a text do not matter to the engine** if it knows them. -/
theorem skipsBlanks_engine : engine.SkipsBlanks := by
  intro cs context h
  obtain ⟨l, r, hl, hr, hcs⟩ := Text.exists_eq_append_trimmed cs
  have hlspace : ∀ c ∈ l, isSpace c = true := fun c hc =>
    h c (by rw [hcs]; simp [hc]) (hl c hc)
  have hrspace : ∀ c ∈ r, isSpace c = true := fun c hc =>
    h c (by rw [hcs]; simp [hc]) (hr c hc)
  -- Blanks that the engine knows are ASCII, so the test of all characters comes out the same.
  have hascii {l : List Char} (hl : ∀ c ∈ l, isSpace c = true) :
      (l.all fun c => c.toNat < 128) = true :=
    List.all_eq_true.mpr fun c hc => decide_eq_true (toNat_of_isSpace (hl c hc))
  have hall : (cs.all fun c => c.toNat < 128) =
      (Text.trimmed cs).all fun c => c.toNat < 128 := by
    conv_lhs => rw [hcs, List.all_append, List.all_append, hascii hlspace, hascii hrspace]
    simp
  have htokens : tokens cs = tokens (Text.trimmed cs) := by
    conv_lhs => rw [hcs, tokens_append_spaces hlspace hrspace]
  rw [engine, engine, Expression.read_ofList, Expression.read_ofList, hall, htokens]

/-! ### Comparisons -/

/-- A comparison compares the values of its two sides. -/
theorem Expression.eval_comparison {op : Operator} {left right : Expression} {v w : Json}
    (hop : op.level = 1) (hl : left.eval context = .ok v) (hr : right.eval context = .ok w) :
    (Expression.binary op left right).eval context = apply op v w := by
  have hor : op ≠ .or := by
    rintro rfl
    cases hop
  have hand : op ≠ .and := by
    rintro rfl
    cases hop
  rw [Expression.eval, hl, hr]
  · rfl
  · exact hor
  · exact hand

/-- Any two values are equal or not. -/
theorem exists_apply_of_equality {op : Operator} (hop : op = .equal ∨ op = .notEqual)
    (v w : Json) : ∃ b, apply op v w = .ok (.bool b) := by
  rcases hop with rfl | rfl <;> cases v <;> cases w <;> exact ⟨_, rfl⟩

/-- **The engine compares the value of what stands in parentheses.** -/
theorem comparesGroups_engine : engine.ComparesGroups := by
  intro cs rest context op t right v w hlevel hscan ht hv hw
  obtain ⟨e, he, hev⟩ := exists_read_of_engine hv
  obtain ⟨hall, ts, hts, hread⟩ := Expression.exists_tokens he
  obtain ⟨hallrest, htail⟩ := Token.of_scan hscan
  have hread' : Expression.read (String.ofList ('(' :: (cs ++ ')' :: rest))) =
      some (.binary op e right) := by
    -- What follows may hold quotes, so it matters that none is left open before it.
    have hne : tokens cs ≠ none := by
      rw [hts]
      nofun
    rw [Expression.read_ofList, tokens_group (.inl hne), hts, htail, if_pos]
    · exact Expression.ofTokens?_comparison hread hlevel ht
    · rw [List.all_cons, List.all_append, List.all_cons, hall, hallrest]
      rfl
  rw [engine, hread']
  exact Expression.eval_comparison hlevel hev hw

end WorkflowEngine.Expr
