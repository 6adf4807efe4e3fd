import Mathlib.Data.List.DropRight
import WorkflowEngine.Expr.Token

/-!
# The tokens of a text

A token ends where the next character does not go on with it. No token goes on with a blank or with
a closing parenthesis, so the tokens of a text are found in the same way when it is followed by one.

## Main definitions

* `EndsToken c`: no token goes on with the character `c`
* `Closes q r cs`: the quoted text `cs` ends before `r`
* `tokens`: the tokens of characters

## Main results

* `next_append`, `tokens_append`: the tokens of a text before a character that ends tokens
* `next_cases`: a token is a number or a word, a quoted text, or a sign
* `tokens_eq`: the tokens of a text are its first one and those of the rest
* `tokens_append_spaces`: blanks do not matter
-/

namespace WorkflowEngine.Expr.Token

open Decimal

variable {cs r tail : List Char} {t : Token} {q c : Char}

/-! ### The ends of tokens -/

/-- A character that opens and closes a text. -/
def IsQuote (q : Char) : Prop := q = '\'' ∨ q = '"'

theorem IsQuote.ne_slash (hq : IsQuote q) : q ≠ '\\' := by
  rcases hq with rfl | rfl <;> decide

/-- **No token goes on with a character**, and none begins a quoted text with it. -/
structure EndsToken (c : Char) : Prop where
  word : continuesName c = false
  quote : ¬IsQuote c
  others : c ∉ ['.', '\\', '|', '&', '=', '/']

theorem endsToken_close : EndsToken ')' where
  word := by decide
  quote := by rintro (h | h) <;> cases h
  others := by decide

/-- The blanks between tokens. -/
theorem isSpace_cases (h : isSpace c = true) :
    c = ' ' ∨ c = '\t' ∨ c = '\n' ∨ c = '\x0b' ∨ c = '\x0c' ∨ c = '\r' := by
  simp only [isSpace, Bool.or_eq_true, beq_iff_eq, Bool.and_eq_true, decide_eq_true_eq] at h
  refine h.imp_right fun ⟨htab, hreturn⟩ => ?_
  have hcode : c.toNat = 9 ∨ c.toNat = 10 ∨ c.toNat = 11 ∨ c.toNat = 12 ∨ c.toNat = 13 := by
    have hge : 9 ≤ c.toNat := htab
    have hle : c.toNat ≤ 13 := hreturn
    omega
  rw [← Char.ofNat_toNat c]
  rcases hcode with h | h | h | h | h <;> (rw [h]; decide)

theorem endsToken_of_isSpace (h : isSpace c = true) : EndsToken c := by
  rcases isSpace_cases h with rfl | rfl | rfl | rfl | rfl | rfl <;>
    exact ⟨by decide, by unfold IsQuote; decide, by decide⟩

theorem toNat_of_isSpace (h : isSpace c = true) : c.toNat < 128 := by
  rcases isSpace_cases h with rfl | rfl | rfl | rfl | rfl | rfl <;> decide

namespace EndsToken

variable (hc : EndsToken c)

include hc

theorem ne {x : Char} (hx : x ∈ ['.', '\\', '|', '&', '=', '/']) : c ≠ x :=
  fun h => hc.others (h ▸ hx)

theorem isDigit : c.isDigit = false := by
  have h := hc.word
  simp only [continuesName, Char.isAlphanum, Bool.or_eq_false_iff] at h
  exact h.1.2

end EndsToken

theorem takeWhile_append_cons {p : Char → Bool} (hc : p c = false) (l : List Char) :
    (l ++ c :: r).takeWhile p = l.takeWhile p := by
  induction l with
  | nil => simp [hc]
  | cons x l ih => simp [List.takeWhile_cons, ih]

theorem dropWhile_append_cons {p : Char → Bool} (hc : p c = false) (l : List Char) :
    (l ++ c :: r).dropWhile p = l.dropWhile p ++ c :: r := by
  induction l with
  | nil => simp [hc]
  | cons x l ih =>
    rw [List.cons_append, List.dropWhile_cons, List.dropWhile_cons]
    split
    · exact ih
    · rfl

/-! #### Signs -/

theorem append_ne_cons {x : Char} (hx : c ≠ x) (h : ∀ us, cs = x :: us → False) :
    ∀ us, cs ++ c :: tail = x :: us → False := by
  intro us heq
  cases cs with
  | nil => exact hx (List.cons.inj heq).1
  | cons c cs => exact h cs (by rw [(List.cons.inj heq).1])

theorem append_ne_cons_cons {x y : Char} (hcs : cs ≠ []) (hy : c ≠ y)
    (h : ∀ us, cs = x :: y :: us → False) : ∀ us, cs ++ c :: tail = x :: y :: us → False := by
  intro us heq
  match cs, hcs with
  | [c], _ => exact hy (List.cons.inj (List.cons.inj heq).2).1
  | c :: d :: cs, _ =>
    obtain ⟨rfl, heq'⟩ := List.cons.inj heq
    exact h cs (by rw [(List.cons.inj heq').1])

theorem append_ne_cons_of_ne_nil {x : Char} (hcs : cs ≠ []) (h : ∀ us, cs = x :: us → False) :
    ∀ us, cs ++ c :: tail = x :: us → False := by
  intro us heq
  obtain ⟨c, cs, rfl⟩ := List.exists_cons_of_ne_nil hcs
  exact h cs (by rw [(List.cons.inj heq).1])

theorem ofSign_append (hc : EndsToken c) (hcs : cs ≠ []) :
    ofSign (cs ++ c :: tail) = (ofSign cs).map fun (t, r) => (t, r ++ c :: tail) := by
  rw [ofSign.eq_def cs]
  split
  case h_7 h => exact ofSign.eq_7 _ (append_ne_cons (hc.ne (by decide)) h)
  case h_8 h => exact ofSign.eq_8 _ (append_ne_cons (hc.ne (by decide)) h)
  case h_13 h => exact ofSign.eq_13 _ (append_ne_cons (hc.ne (by decide)) h)
  case h_26 h => exact ofSign.eq_26 _ (append_ne_cons (hc.ne (by decide)) h)
  case h_27 =>
    apply ofSign.eq_27
    all_goals
      first
        | exact append_ne_cons_cons hcs (hc.ne (by decide)) (by assumption)
        | exact append_ne_cons_of_ne_nil hcs (by assumption)
  all_goals rfl

/-! #### Quoted texts -/

theorem untilQuote_cons (hc : c ≠ '\\') (cs : List Char) :
    untilQuote q (c :: cs) =
      if c = q then some ([], cs) else (untilQuote q cs).map fun (s, r) => (c :: s, r) := by
  rw [untilQuote]
  · rw [if_neg hc]
  · exact fun _ _ h => absurd h hc

/-- **The rest of a quoted text ends** with a quote, before which a quote is escaped. -/
inductive Closes (q : Char) (r : List Char) : List Char → Prop where
  | close : Closes q r (q :: r)
  | escape {cs : List Char} : Closes q r cs → Closes q r ('\\' :: q :: cs)
  | other {c : Char} {cs : List Char} :
    c ≠ '\\' → c ≠ q → Closes q r cs → Closes q r (c :: cs)

theorem closes_of_untilQuote {s : List Char} (h : untilQuote q cs = some (s, r))
    (hq : IsQuote q) : Closes q r cs := by
  induction cs using untilQuote.induct q generalizing s with
  | case1 => cases h
  | case2 cs ih =>
    rw [untilQuote, if_pos rfl] at h
    obtain ⟨⟨s', r'⟩, hs, hr⟩ := Option.map_eq_some_iff.mp h
    cases hr
    exact .escape (ih hs)
  | case3 c cs hc =>
    rw [untilQuote, if_neg hc] at h
    cases h
  | case4 cs _ =>
    rw [untilQuote_cons hq.ne_slash, if_pos rfl] at h
    cases h
    exact .close
  | case5 cs hcs hne =>
    rw [untilQuote.eq_3 _ _ _ hcs, if_neg hne, if_pos rfl] at h
    cases h
  | case6 c cs _ hne hc ih =>
    rw [untilQuote_cons hc, if_neg hne] at h
    obtain ⟨⟨s', r'⟩, hs, hr⟩ := Option.map_eq_some_iff.mp h
    cases hr
    exact .other hc hne (ih hs)

/-- A text without a closing quote does not end. -/
theorem untilQuote_of_not_mem (h : q ∉ cs) : untilQuote q cs = none := by
  induction cs using untilQuote.induct q with
  | case1 => rfl
  | case2 cs _ => simp at h
  | case3 c cs hc => rw [untilQuote, if_neg hc]
  | case4 cs _ => simp at h
  | case5 cs hcs hne => rw [untilQuote.eq_3 _ _ _ hcs, if_neg hne, if_pos rfl]
  | case6 c cs hcs hne hc ih =>
    rw [untilQuote.eq_3 _ _ _ hcs, if_neg hne, if_neg hc, ih (List.not_mem_of_not_mem_cons h)]
    rfl

theorem untilQuote_append (hq : IsQuote q) (hc : EndsToken c)
    (h : untilQuote q cs ≠ none ∨ q ∉ tail) :
    untilQuote q (cs ++ c :: tail) =
      (untilQuote q cs).map fun (s, r) => (s, r ++ c :: tail) := by
  have hslash := hq.ne_slash
  have hne : c ≠ q := fun h => hc.quote (h ▸ hq)
  induction cs using untilQuote.induct q with
  | case1 =>
    refine untilQuote_of_not_mem fun hmem => ?_
    rcases List.mem_cons.mp hmem with rfl | hmem
    · exact hne rfl
    · exact h.elim (· rfl) (· hmem)
  | case2 cs ih =>
    rw [untilQuote, if_pos rfl] at h
    have ih := ih (h.imp_left fun hne heq => hne (by rw [heq]; rfl))
    rw [List.cons_append, List.cons_append, untilQuote, if_pos rfl, untilQuote, if_pos rfl, ih,
      Option.map_map, Option.map_map]
    rfl
  | case3 d cs hd =>
    rw [List.cons_append, List.cons_append, untilQuote, if_neg hd, untilQuote, if_neg hd]
    rfl
  | case4 cs _ =>
    rw [List.cons_append, untilQuote_cons hslash, if_pos rfl, untilQuote_cons hslash, if_pos rfl]
    rfl
  | case5 cs hcs hq =>
    obtain rfl : cs = [] := List.eq_nil_iff_forall_not_mem.mpr fun d hd => by
      obtain ⟨d, ds, rfl⟩ := List.exists_cons_of_ne_nil (List.ne_nil_of_mem hd)
      exact hcs d ds rfl rfl
    rw [List.cons_append, List.nil_append, untilQuote, if_neg hne, untilQuote.eq_3 _ _ _ hcs,
      if_neg hq, if_pos rfl]
    rfl
  | case6 d cs _ hd hslash' ih =>
    rw [untilQuote_cons hslash', if_neg hd] at h ⊢
    have ih := ih (h.imp_left fun hne heq => hne (by rw [heq]; rfl))
    rw [List.cons_append, untilQuote_cons hslash', if_neg hd, ih, Option.map_map, Option.map_map]
    rfl

/-! #### Numbers -/

theorem spanDigits_append (hc : EndsToken c) (cs tail : List Char) :
    spanDigits (cs ++ c :: tail) = ((spanDigits cs).1, (spanDigits cs).2 ++ c :: tail) := by
  rw [spanDigits, takeWhile_append_cons hc.isDigit, dropWhile_append_cons hc.isDigit]
  rfl

theorem ofNumber_append (hc : EndsToken c) (cs tail : List Char) :
    ofNumber (cs ++ c :: tail) = ((ofNumber cs).1, (ofNumber cs).2 ++ c :: tail) := by
  have hpoint {x : Char} (hx : x ≠ '.') (cs : List Char) :
      ∀ d more, x :: cs = '.' :: d :: more → False := fun d more h => hx (List.cons.inj h).1
  rw [ofNumber, spanDigits_append hc, ofNumber]
  generalize spanDigits cs = span
  obtain ⟨whole, rest⟩ := span
  rcases rest with _ | ⟨x, more⟩
  · dsimp only [List.nil_append]
    split
    next heq => exact (hpoint (hc.ne (by decide)) _ _ _ heq).elim
    · rfl
  · by_cases hx : x = '.'
    · subst hx
      rcases more with _ | ⟨d, more⟩
      · simp [hc.isDigit]
      · have hspan := spanDigits_append hc (d :: more) tail
        by_cases hd : d.isDigit = true
        · simp only [List.cons_append, hd, if_true] at hspan ⊢
          rw [hspan]
        · simp only [List.cons_append, hd]
          rfl
    · dsimp only [List.cons_append]
      split
      next heq => exact (hpoint hx _ _ _ heq).elim
      · split
        next heq => exact (hpoint hx _ _ _ heq).elim
        · rfl

theorem startsNumber_cons (hc : c ≠ '.') (cs : List Char) :
    startsNumber (c :: cs) = c.isDigit := by
  rw [startsNumber]
  exact fun _ _ h => absurd h hc

theorem startsNumber_append (hc : EndsToken c) (hcs : cs ≠ []) :
    startsNumber (cs ++ c :: tail) = startsNumber cs := by
  obtain ⟨x, cs, rfl⟩ := List.exists_cons_of_ne_nil hcs
  by_cases hx : x = '.'
  · subst hx
    cases cs with
    | nil => exact hc.isDigit
    | cons d cs => rfl
  · rw [List.cons_append, startsNumber_cons hx, startsNumber_cons hx]

/-- **A character that ends tokens goes on with none.** One that has no end gets none unless a quote
follows. -/
theorem next_append (hc : EndsToken c) (hcs : cs ≠ [])
    (h : next cs ≠ none ∨ ∀ x ∈ tail, ¬IsQuote x) :
    next (cs ++ c :: tail) = (next cs).map fun (t, r) => (t, r ++ c :: tail) := by
  obtain ⟨x, cs, rfl⟩ := List.exists_cons_of_ne_nil hcs
  rw [List.cons_append, next, next, ← List.cons_append, startsNumber_append hc hcs]
  rw [next] at h
  split
  · rw [ofNumber_append hc]
    rfl
  · split
    · rw [takeWhile_append_cons hc.word, dropWhile_append_cons hc.word]
      rfl
    · split
      next hnumber hname hquote =>
        have hx : IsQuote x := by simpa [IsQuote] using hquote
        rw [if_neg hnumber, if_neg hname, if_pos hquote] at h
        rw [untilQuote_append hx hc
          (h.imp (fun hne heq => hne (by rw [heq]; rfl)) fun hall hmem => hall x hmem hx),
          Option.map_map, Option.map_map]
        rfl
      · exact ofSign_append hc hcs

/-! ### The form of tokens -/

/-- A character of words and numbers. -/
def IsWordChar (c : Char) : Prop := c.isAlphanum = true ∨ c = '_' ∨ c = '.'

theorem isWordChar_of_isDigit (h : c.isDigit = true) : IsWordChar c := by
  simp [IsWordChar, Char.isAlphanum, h]

theorem isWordChar_of_continuesName (h : continuesName c = true) : IsWordChar c := by
  simp only [continuesName, Bool.or_eq_true, beq_iff_eq] at h
  exact h.imp_right .inl

theorem exists_ofNumber (h : startsNumber cs = true) :
    ∃ taken, cs = taken ++ (ofNumber cs).2 ∧ taken ≠ [] ∧ ∀ c ∈ taken, IsWordChar c := by
  have hdigits (cs : List Char) : ∀ c ∈ cs.takeWhile Char.isDigit, IsWordChar c := fun c hc =>
    isWordChar_of_isDigit (List.all_eq_true.mp List.all_takeWhile c hc)
  have hcs : cs = cs.takeWhile Char.isDigit ++ cs.dropWhile Char.isDigit :=
    List.takeWhile_append_dropWhile.symm
  rw [ofNumber, spanDigits]
  dsimp only
  split
  next d more heq =>
    split
    next hd =>
      refine ⟨cs.takeWhile Char.isDigit ++ '.' :: (d :: more).takeWhile Char.isDigit, ?_, by simp,
        fun c hc => ?_⟩
      · rw [spanDigits, List.append_assoc, List.cons_append, List.takeWhile_append_dropWhile,
          ← heq, List.takeWhile_append_dropWhile]
      · rcases List.mem_append.mp hc with hc | hc
        · exact hdigits cs c hc
        · rcases List.mem_cons.mp hc with rfl | hc
          · exact .inr (.inr rfl)
          · exact hdigits _ c hc
    next hd =>
      refine ⟨_, heq ▸ hcs, fun hnil => ?_, hdigits cs⟩
      rw [hnil, List.nil_append, heq] at hcs
      rw [hcs] at h
      exact hd h
  next hne =>
    refine ⟨_, hcs, fun hnil => ?_, hdigits cs⟩
    cases cs with
    | nil => cases h
    | cons c cs =>
      have hc : c.isDigit = false := by
        refine Bool.eq_false_iff.mpr fun hc => ?_
        rw [List.takeWhile_cons_of_pos hc] at hnil
        cases hnil
      by_cases hpoint : c = '.'
      · subst hpoint
        cases cs with
        | nil => cases h
        | cons d more => exact hne d more rfl
      · rw [startsNumber_cons hpoint, hc] at h
        cases h

/-- **A token is a number or a word, a quoted text, or a sign.** -/
theorem next_cases (h : next cs = some (t, r)) :
    (∃ taken, cs = taken ++ r ∧ taken ≠ [] ∧ (∀ c ∈ taken, IsWordChar c) ∧
      ((∃ x, t = .number x) ∨ ∃ w, t = ofWord w)) ∨
    (∃ q body s, IsQuote q ∧ cs = q :: body ∧ Closes q r body ∧ t = .text s) ∨
    ofSign cs = some (t, r) := by
  cases cs with
  | nil => cases h
  | cons c cs =>
    rw [next] at h
    split at h
    next hnumber =>
      cases h
      obtain ⟨taken, heq, hne, hchars⟩ := exists_ofNumber hnumber
      exact .inl ⟨taken, heq, hne, hchars, .inl ⟨_, rfl⟩⟩
    · split at h
      next hname =>
        cases h
        refine .inl ⟨(c :: cs).takeWhile continuesName, List.takeWhile_append_dropWhile.symm, ?_,
          fun c hc => isWordChar_of_continuesName (List.all_eq_true.mp List.all_takeWhile c hc),
          .inr ⟨_, rfl⟩⟩
        have hc : continuesName c = true := by
          simp only [startsName, Char.isAlphanum, continuesName, Bool.or_eq_true] at hname ⊢
          exact hname.imp_left .inl
        rw [List.takeWhile_cons_of_pos hc]
        exact List.cons_ne_nil _ _
      · split at h
        next hquote =>
          obtain ⟨⟨s, r'⟩, hs, hr⟩ := Option.map_eq_some_iff.mp h
          cases hr
          have hq : IsQuote c := by simpa [IsQuote] using hquote
          exact .inr (.inl ⟨c, cs, _, hq, rfl, closes_of_untilQuote hs hq, rfl⟩)
        · exact .inr (.inr h)

theorem Closes.length_lt (h : Closes q r cs) : r.length < cs.length := by
  induction h with
  | close => exact Nat.lt_succ_self _
  | escape _ ih => exact Nat.lt_succ_of_lt (Nat.lt_succ_of_lt ih)
  | other _ _ _ ih => exact Nat.lt_succ_of_lt ih

theorem length_ofSign (h : ofSign cs = some (t, r)) : r.length < cs.length := by
  unfold ofSign at h
  split at h
  all_goals
    first
      | cases h; done
      | cases h; simp only [List.length_cons]; omega

theorem length_next (h : next cs = some (t, r)) : r.length < cs.length := by
  rcases next_cases h with ⟨taken, rfl, hne, -⟩ | ⟨q, body, s, -, rfl, hs, -⟩ | hsign
  · have hpos := List.length_pos_iff.mpr hne
    rw [List.length_append]
    omega
  · exact Nat.lt_succ_of_lt hs.length_lt
  · exact length_ofSign hsign

/-! ### Scanning -/

/-- The tokens of characters. -/
def tokens (cs : List Char) : Option (List Token) := scanFrom cs.length cs

@[simp] theorem tokens_nil : tokens [] = some [] := rfl

theorem length_dropWhile_isSpace_le (cs : List Char) :
    (cs.dropWhile isSpace).length ≤ cs.length :=
  (List.dropWhile_sublist isSpace).length_le

theorem scanFrom_congr {n m : Nat} (hn : cs.length ≤ n) (hm : cs.length ≤ m) :
    scanFrom n cs = scanFrom m cs := by
  have hblank (cs : List Char) (h : cs.length = 0) (n : Nat) : scanFrom n cs = some [] := by
    obtain rfl := List.eq_nil_of_length_eq_zero h
    cases n <;> rfl
  induction n generalizing cs m with
  | zero => rw [hblank cs (by omega), hblank cs (by omega)]
  | succ n ih =>
    cases m with
    | zero => rw [hblank cs (by omega), hblank cs (by omega)]
    | succ m =>
      rw [scanFrom, scanFrom]
      split
      · rfl
      · refine Option.bind_congr fun ⟨t, r⟩ hnext => ?_
        have hr := length_next hnext
        have hle := length_dropWhile_isSpace_le cs
        dsimp only
        have hrest : scanFrom n r = scanFrom m r := ih (by omega) (by omega)
        rw [hrest]

/-- **The tokens of characters** are the one after the blanks, and those of the rest. -/
theorem tokens_eq (cs : List Char) :
    tokens cs =
      match cs.dropWhile isSpace with
      | [] => some []
      | c :: cs => (next (c :: cs)).bind fun (t, r) => (tokens r).map (t :: ·) := by
  have hstep : tokens cs = scanFrom (cs.length + 1) cs :=
    scanFrom_congr (Nat.le_refl _) (Nat.le_succ _)
  have hle := length_dropWhile_isSpace_le cs
  rw [hstep, scanFrom]
  cases hcs : cs.dropWhile isSpace with
  | nil => rfl
  | cons c rest =>
    rw [hcs] at hle
    refine Option.bind_congr fun ⟨t, r⟩ hnext => ?_
    have hr := length_next hnext
    dsimp only
    have hrest : scanFrom cs.length r = tokens r := scanFrom_congr (by omega) (Nat.le_refl _)
    rw [hrest]
    cases tokens r <;> rfl

/-- Leading blanks do not matter. -/
theorem tokens_dropWhile (cs : List Char) : tokens (cs.dropWhile isSpace) = tokens cs := by
  rw [tokens_eq, tokens_eq cs, List.dropWhile_idempotent]

/-- **The tokens of a text before a character that ends tokens** are those of the text. -/
theorem tokens_append (hc : EndsToken c) (h : tokens cs ≠ none ∨ ∀ x ∈ tail, ¬IsQuote x) :
    tokens (cs ++ c :: tail) =
      (tokens cs).bind fun ts => (tokens (c :: tail)).map (ts ++ ·) := by
  -- Induction on what stands before the character.
  induction hn : cs.length using Nat.strongRecOn generalizing cs with
  | ind n ih =>
    have hle := length_dropWhile_isSpace_le cs
    rw [tokens_eq cs] at h
    rw [tokens_eq cs]
    cases hcs : cs.dropWhile isSpace with
    | nil =>
      rw [← tokens_dropWhile, List.dropWhile_append, hcs]
      simp [tokens_dropWhile]
    | cons x rest =>
      have hwhole : (cs ++ c :: tail).dropWhile isSpace = x :: rest ++ c :: tail := by
        rw [List.dropWhile_append, hcs]
        rfl
      rw [hcs] at h hle
      dsimp only at h ⊢
      rw [tokens_eq, hwhole, List.cons_append]
      dsimp only
      rw [← List.cons_append, next_append hc (List.cons_ne_nil x rest)
        (h.imp_left fun hne heq => hne (by rw [heq]; rfl))]
      cases heq : next (x :: rest) with
      | none => rfl
      | some y =>
        obtain ⟨t, r⟩ := y
        have hr := length_next heq
        simp only [heq, Option.bind_some, Option.map_some] at h ⊢
        rw [ih r.length (by omega) (h.imp_left fun hne heq => hne (by rw [heq]; rfl)) rfl]
        cases tokens r with
        | none => rfl
        | some ts => cases tokens (c :: tail) <;> rfl

/-- Blanks have no tokens. -/
theorem tokens_of_isSpace (h : ∀ c ∈ cs, isSpace c = true) : tokens cs = some [] := by
  rw [tokens_eq, List.dropWhile_eq_nil_iff.mpr h]

/-- **Blanks around a text do not matter.** -/
theorem tokens_append_spaces {l : List Char} (hl : ∀ c ∈ l, isSpace c = true)
    (hr : ∀ c ∈ r, isSpace c = true) (cs : List Char) : tokens (l ++ cs ++ r) = tokens cs := by
  have hleft (cs : List Char) : tokens (l ++ cs) = tokens cs := by
    rw [← tokens_dropWhile, List.dropWhile_append, List.dropWhile_eq_nil_iff.mpr hl]
    exact tokens_dropWhile cs
  rw [List.append_assoc, hleft]
  cases r with
  | nil => rw [List.append_nil]
  | cons c r =>
    have hquote : ∀ x ∈ r, ¬IsQuote x := fun x hx =>
      (endsToken_of_isSpace (hr x (List.mem_cons_of_mem c hx))).quote
    rw [tokens_append (endsToken_of_isSpace (hr c List.mem_cons_self)) (.inr hquote),
      tokens_of_isSpace hr]
    cases tokens cs <;> simp

theorem tokens_close (tail : List Char) :
    tokens (')' :: tail) = (tokens tail).map (.mark .closeParen :: ·) := tokens_eq _

theorem tokens_open (tail : List Char) :
    tokens ('(' :: tail) = (tokens tail).map (.mark .openParen :: ·) := tokens_eq _

theorem scan_ofList (cs : List Char) :
    scan (String.ofList cs) = if cs.all fun c => c.toNat < 128 then tokens cs else none := by
  rw [scan, String.toList_ofList]
  rfl

end WorkflowEngine.Expr.Token
