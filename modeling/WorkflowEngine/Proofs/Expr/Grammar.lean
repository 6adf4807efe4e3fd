import WorkflowEngine.Expr.Syntax

/-!
# The grammar of expressions

What the reading steps take from the front of the tokens, told by rules that know no fuel. Where a
part ends it does so because the next token does not go on with it.

## Main definitions

* `Part`, `Reading`: what is read, and what it is read as
* `Reads part x ts r`: the tokens `ts` begin with a part that reads as `x`, and `r` is the rest

## Main results

* `Yields.reads`, `Reads.isYielded`: the reading steps follow the rules, given fuel enough
* `ofTokens?_eq_some_iff`: the expression that tokens spell is the one that the rules read
-/

namespace WorkflowEngine.Expr.Expression

/-- What is read. Some parts go on with an expression that was read before. -/
inductive Part where
  | joined (level : Nat)
  | joinedRest (level : Nat) (left : Expression)
  | choiceRest (condition : Expression)
  | piped
  | pipedRest (subject : Expression)
  | selectedRest (subject : Expression)
  | atom
  | sequence (close : Mark)
  | fieldSequence

/-- What a part is read as. -/
inductive Reading where
  | one (e : Expression)
  | many (es : List Expression)
  | fields (fields : List (String × Expression))

/-- The expression that is a single token. -/
def ofToken? : Token → Option Expression
  | .number x => some (.number x)
  | .text s => some (.text s)
  | .bool b => some (.bool b)
  | .null => some .null
  | .name n => some (.name n)
  | _ => none

/-- The key of a field. -/
def keyOf? : Token → Option String
  | .name k => some k
  | .text k => some k
  | _ => none

/-- The tokens do not begin with a mark. -/
def NotAt (m : Mark) (ts : List Token) : Prop := ∀ r, ts ≠ .mark m :: r

/-- **The tokens begin with a part** that reads as a value, and the rest follows. -/
inductive Reads : Part → Reading → List Token → List Token → Prop where
  | joined {level left e ts r₁ r} : level < Operator.levels →
    Reads (.joined (level + 1)) (.one left) ts r₁ →
    Reads (.joinedRest level left) (.one e) r₁ r → Reads (.joined level) (.one e) ts r
  | choice {level c e ts r₁ r} : ¬level < Operator.levels → Reads .piped (.one c) ts r₁ →
    Reads (.choiceRest c) (.one e) r₁ r → Reads (.joined level) (.one e) ts r
  | operand {level op left right e ts r₁ r} : op.level = level →
    Reads (.joined (level + 1)) (.one right) ts r₁ →
    Reads (.joinedRest level (.binary op left right)) (.one e) r₁ r →
    Reads (.joinedRest level left) (.one e) (.op op :: ts) r
  | joinedEnd {level left ts} : (∀ op r, ts = .op op :: r → op.level ≠ level) →
    Reads (.joinedRest level left) (.one left) ts ts
  | alternatives {c t f e ts r₁ r₂ r} : Reads .piped (.one t) ts (.mark .colon :: r₁) →
    Reads .piped (.one f) r₁ r₂ → Reads (.choiceRest (.choice c t f)) (.one e) r₂ r →
    Reads (.choiceRest c) (.one e) (.mark .question :: ts) r
  | choiceEnd {c ts} : NotAt .question ts → Reads (.choiceRest c) (.one c) ts ts
  | piped {a s e ts r₁ r₂ r} : Reads .atom (.one a) ts r₁ →
    Reads (.selectedRest a) (.one s) r₁ r₂ → Reads (.pipedRest s) (.one e) r₂ r →
    Reads .piped (.one e) ts r
  | call {s n args e ts r₁ r} : Reads (.sequence .closeParen) (.many args) ts r₁ →
    Reads (.pipedRest (.transform s n args)) (.one e) r₁ r →
    Reads (.pipedRest s) (.one e) (.mark .pipe :: .name n :: .mark .openParen :: ts) r
  | pipe {s n e ts r} : NotAt .openParen ts → Reads (.pipedRest (.transform s n [])) (.one e) ts r →
    Reads (.pipedRest s) (.one e) (.mark .pipe :: .name n :: ts) r
  | pipedEnd {s ts} : NotAt .pipe ts → Reads (.pipedRest s) (.one s) ts ts
  | filter {s n op v e ts r₁ r} : op.level = 1 →
    Reads .atom (.one v) ts (.mark .closeBracket :: r₁) →
    Reads (.selectedRest (.filter s n op v)) (.one e) r₁ r →
    Reads (.selectedRest s) (.one e) (.mark .openBracket :: .mark .dot :: .name n :: .op op :: ts) r
  | index {s i e ts r₁ r} : NotAt .dot ts →
    Reads (.joined 0) (.one i) ts (.mark .closeBracket :: r₁) →
    Reads (.selectedRest (.index s i)) (.one e) r₁ r →
    Reads (.selectedRest s) (.one e) (.mark .openBracket :: ts) r
  | field {s n e ts r} : Reads (.selectedRest (.field s n)) (.one e) ts r →
    Reads (.selectedRest s) (.one e) (.mark .dot :: .name n :: ts) r
  | selectedEnd {s ts} : NotAt .openBracket ts → NotAt .dot ts →
    Reads (.selectedRest s) (.one s) ts ts
  | token {t e r} : ofToken? t = some e → Reads .atom (.one e) (t :: r) r
  | group {e ts r} : Reads (.joined 0) (.one e) ts (.mark .closeParen :: r) →
    Reads .atom (.one e) (.mark .openParen :: ts) r
  | list {es ts r} : Reads (.sequence .closeBracket) (.many es) ts r →
    Reads .atom (.one (.list es)) (.mark .openBracket :: ts) r
  | object {fs ts r} : Reads .fieldSequence (.fields fs) ts r →
    Reads .atom (.one (.object fs)) (.mark .openBrace :: ts) r
  | sequenceEnd {close r} : Reads (.sequence close) (.many []) (.mark close :: r) r
  | item {close e es ts r₁ r} : NotAt close ts →
    Reads (.joined 0) (.one e) ts (.mark .comma :: r₁) →
    Reads (.sequence close) (.many es) r₁ r → Reads (.sequence close) (.many (e :: es)) ts r
  | lastItem {close e ts r} : NotAt close ts → close ≠ .comma →
    Reads (.joined 0) (.one e) ts (.mark close :: r) → Reads (.sequence close) (.many [e]) ts r
  | fieldsEnd {r} : Reads .fieldSequence (.fields []) (.mark .closeBrace :: r) r
  | entry {t k e fs ts r₁ r} : keyOf? t = some k →
    Reads (.joined 0) (.one e) ts (.mark .comma :: r₁) → Reads .fieldSequence (.fields fs) r₁ r →
    Reads .fieldSequence (.fields ((k, e) :: fs)) (t :: .mark .colon :: ts) r
  | lastEntry {t k e ts r} : keyOf? t = some k →
    Reads (.joined 0) (.one e) ts (.mark .closeBrace :: r) →
    Reads .fieldSequence (.fields [(k, e)]) (t :: .mark .colon :: ts) r

/-- A reading step yields a value and a rest. -/
def Yields (n : Nat) : Part → Reading → List Token → List Token → Prop
  | .joined level, .one e, ts, r => Expression.joined n level ts = some (e, r)
  | .joinedRest level left, .one e, ts, r => Expression.joinedRest n level left ts = some (e, r)
  | .choiceRest c, .one e, ts, r => Expression.choiceRest n c ts = some (e, r)
  | .piped, .one e, ts, r => Expression.piped n ts = some (e, r)
  | .pipedRest s, .one e, ts, r => Expression.pipedRest n s ts = some (e, r)
  | .selectedRest s, .one e, ts, r => Expression.selectedRest n s ts = some (e, r)
  | .atom, .one e, ts, r => Expression.atom n ts = some (e, r)
  | .sequence close, .many es, ts, r => Expression.sequence n close ts = some (es, r)
  | .fieldSequence, .fields fs, ts, r => Expression.fieldSequence n ts = some (fs, r)
  | _, _, _, _ => False

theorem expect_eq_some_iff {m : Mark} {ts r : List Token} :
    expect m ts = some r ↔ ts = .mark m :: r := by
  unfold expect
  split
  next m' rest =>
    by_cases h : m = m'
    · subst h; simp
    · simp [h, Ne.symm h]
  next hne => exact ⟨nofun, fun h => absurd h (hne _ _)⟩

theorem expect_eq_none_iff {m : Mark} {ts : List Token} : expect m ts = none ↔ NotAt m ts := by
  rw [Option.eq_none_iff_forall_ne_some]
  exact forall_congr' fun r => not_congr expect_eq_some_iff

/-- No expression begins with a dot. -/
theorem joined_dot (n level : Nat) (ts : List Token) :
    joined n level (.mark .dot :: ts) = none := by
  have hpiped (n : Nat) : piped n (.mark .dot :: ts) = none := by
    cases n with
    | zero => rfl
    | succ n => cases n <;> rfl
  induction n generalizing level with
  | zero => rfl
  | succ n ih =>
    rw [joined]
    split
    · rw [ih]; rfl
    · rw [hpiped]; rfl

/-- A field after its key, and the fields that follow. -/
def fieldAfter (n : Nat) (k : String) : Step (List (String × Expression)) := fun ts => do
  let rest ← expect .colon ts
  let (e, rest) ← Expression.joined n 0 rest
  match rest with
  | .mark .comma :: rest =>
    let (fields, rest) ← Expression.fieldSequence n rest
    return ((k, e) :: fields, rest)
  | rest =>
    let rest ← expect .closeBrace rest
    return ([(k, e)], rest)

theorem fieldSequence_cons {t : Token} {k : String} (hk : keyOf? t = some k) (n : Nat)
    (ts : List Token) : Expression.fieldSequence (n + 1) (t :: ts) = fieldAfter n k ts := by
  cases t <;> first | cases hk; done | (cases hk; rfl)

/-! ### The steps follow the rules -/

section

variable {n : Nat} (ih : ∀ {part x ts r}, Yields n part x ts r → Reads part x ts r)
  {ts r : List Token} {e : Expression}

include ih

theorem joined_reads {level : Nat} (h : joined (n + 1) level ts = some (e, r)) :
    Reads (.joined level) (.one e) ts r := by
  rw [joined] at h
  split at h
  next hlevel =>
    obtain ⟨⟨left, r₁⟩, hleft, hrest⟩ := Option.bind_eq_some_iff.mp h
    exact .joined hlevel (ih hleft) (ih hrest)
  next hlevel =>
    obtain ⟨⟨c, r₁⟩, hc, hrest⟩ := Option.bind_eq_some_iff.mp h
    exact .choice hlevel (ih hc) (ih hrest)

theorem joinedRest_reads {level : Nat} {left : Expression}
    (h : joinedRest (n + 1) level left ts = some (e, r)) :
    Reads (.joinedRest level left) (.one e) ts r := by
  rw [joinedRest.eq_def] at h
  dsimp only at h
  split at h
  next op rest =>
    split at h
    next hop =>
      obtain ⟨⟨right, r₁⟩, hright, hrest⟩ := Option.bind_eq_some_iff.mp h
      exact .operand hop (ih hright) (ih hrest)
    next hop =>
      cases h
      exact .joinedEnd fun op' r heq => by cases heq; exact hop
  next hne =>
    cases h
    exact .joinedEnd fun op r heq => absurd heq (hne op r)

theorem choiceRest_reads {c : Expression} (h : choiceRest (n + 1) c ts = some (e, r)) :
    Reads (.choiceRest c) (.one e) ts r := by
  rw [choiceRest.eq_def] at h
  dsimp only at h
  split at h
  next rest =>
    obtain ⟨⟨t, r₁⟩, ht, h⟩ := Option.bind_eq_some_iff.mp h
    obtain ⟨r₂, hcolon, h⟩ := Option.bind_eq_some_iff.mp h
    obtain rfl := expect_eq_some_iff.mp hcolon
    obtain ⟨⟨f, r₃⟩, hf, h⟩ := Option.bind_eq_some_iff.mp h
    exact .alternatives (ih ht) (ih hf) (ih h)
  next hne =>
    cases h
    exact .choiceEnd hne

theorem piped_reads (h : piped (n + 1) ts = some (e, r)) : Reads .piped (.one e) ts r := by
  rw [piped] at h
  obtain ⟨⟨a, r₁⟩, ha, h⟩ := Option.bind_eq_some_iff.mp h
  obtain ⟨⟨s, r₂⟩, hs, h⟩ := Option.bind_eq_some_iff.mp h
  exact .piped (ih ha) (ih hs) (ih h)

theorem pipedRest_reads {s : Expression} (h : pipedRest (n + 1) s ts = some (e, r)) :
    Reads (.pipedRest s) (.one e) ts r := by
  rw [pipedRest.eq_def] at h
  dsimp only at h
  split at h
  next f rest =>
    obtain ⟨⟨args, r₁⟩, hargs, h⟩ := Option.bind_eq_some_iff.mp h
    exact .call (ih hargs) (ih h)
  next f rest hne => exact .pipe hne (ih h)
  next => cases h
  next hne =>
    cases h
    exact .pipedEnd hne

theorem selectedRest_reads {s : Expression} (h : selectedRest (n + 1) s ts = some (e, r)) :
    Reads (.selectedRest s) (.one e) ts r := by
  rw [selectedRest.eq_def] at h
  dsimp only at h
  split at h
  next f op rest =>
    split at h
    next hop =>
      obtain ⟨⟨v, r₁⟩, hv, h⟩ := Option.bind_eq_some_iff.mp h
      obtain ⟨r₂, hclose, h⟩ := Option.bind_eq_some_iff.mp h
      obtain rfl := expect_eq_some_iff.mp hclose
      exact .filter hop (ih hv) (ih h)
    next => cases h
  next rest _ =>
    obtain ⟨⟨i, r₁⟩, hi, h⟩ := Option.bind_eq_some_iff.mp h
    obtain ⟨r₂, hclose, h⟩ := Option.bind_eq_some_iff.mp h
    obtain rfl := expect_eq_some_iff.mp hclose
    refine .index (fun r hr => ?_) (ih hi) (ih h)
    rw [hr, joined_dot] at hi
    cases hi
  next f rest => exact .field (ih h)
  next => cases h
  next hne₁ hne₂ hne₃ =>
    cases h
    exact .selectedEnd hne₁ hne₃

theorem atom_reads (h : atom (n + 1) ts = some (e, r)) : Reads .atom (.one e) ts r := by
  rw [atom.eq_def] at h
  dsimp only at h
  split at h
  case h_6 rest =>
    obtain ⟨⟨e', r₁⟩, he, h⟩ := Option.bind_eq_some_iff.mp h
    obtain ⟨r₂, hclose, h⟩ := Option.bind_eq_some_iff.mp h
    obtain rfl := expect_eq_some_iff.mp hclose
    cases h
    exact .group (ih he)
  case h_7 rest =>
    obtain ⟨⟨es, r₁⟩, hes, h⟩ := Option.bind_eq_some_iff.mp h
    cases h
    exact .list (ih hes)
  case h_8 rest =>
    obtain ⟨⟨fs, r₁⟩, hfs, h⟩ := Option.bind_eq_some_iff.mp h
    cases h
    exact .object (ih hfs)
  case h_9 => cases h
  all_goals
    cases h
    exact .token rfl

theorem sequence_reads {close : Mark} {es : List Expression}
    (h : sequence (n + 1) close ts = some (es, r)) :
    Reads (.sequence close) (.many es) ts r := by
  rw [sequence] at h
  split at h
  next rest hclose =>
    obtain rfl := expect_eq_some_iff.mp hclose
    cases h
    exact .sequenceEnd
  next hnot =>
    have hnot := expect_eq_none_iff.mp hnot
    obtain ⟨⟨e, r₁⟩, he, h⟩ := Option.bind_eq_some_iff.mp h
    dsimp only at h
    split at h
    next rest =>
      obtain ⟨⟨es, r₂⟩, hes, h⟩ := Option.bind_eq_some_iff.mp h
      cases h
      exact .item hnot (ih he) (ih hes)
    next hcomma =>
      obtain ⟨r₂, hclose, h⟩ := Option.bind_eq_some_iff.mp h
      cases h
      obtain rfl := expect_eq_some_iff.mp hclose
      exact .lastItem hnot (fun hc => hcomma _ (by rw [hc])) (ih he)

theorem fieldAfter_reads {t : Token} {k : String} (hk : keyOf? t = some k)
    {fs : List (String × Expression)} (h : fieldAfter n k ts = some (fs, r)) :
    Reads .fieldSequence (.fields fs) (t :: ts) r := by
  obtain ⟨r₁, hcolon, hentry⟩ := Option.bind_eq_some_iff.mp h
  obtain ⟨⟨e, r₂⟩, he, hrest⟩ := Option.bind_eq_some_iff.mp hentry
  rw [expect_eq_some_iff.mp hcolon]
  dsimp only at hrest
  split at hrest
  next rest =>
    obtain ⟨⟨fs, r₂⟩, hfs, hend⟩ := Option.bind_eq_some_iff.mp hrest
    cases hend
    exact .entry hk (ih he) (ih hfs)
  next =>
    obtain ⟨r₂, hclose, hend⟩ := Option.bind_eq_some_iff.mp hrest
    cases hend
    rw [expect_eq_some_iff.mp hclose] at he
    exact .lastEntry hk (ih he)

theorem fieldSequence_reads {fs : List (String × Expression)}
    (h : fieldSequence (n + 1) ts = some (fs, r)) :
    Reads .fieldSequence (.fields fs) ts r := by
  rw [fieldSequence] at h
  split at h
  next rest hclose =>
    obtain rfl := expect_eq_some_iff.mp hclose
    cases h
    exact .fieldsEnd
  next =>
    dsimp only at h
    split at h
    · exact fieldAfter_reads ih rfl h
    · exact fieldAfter_reads ih rfl h
    · cases h

end

/-- **What a reading step yields** is read by the rules. -/
theorem Yields.reads {n : Nat} {part : Part} {x : Reading} {ts r : List Token}
    (h : Yields n part x ts r) : Reads part x ts r := by
  induction n generalizing part x ts r with
  | zero => cases part <;> cases x <;> first | exact h.elim | cases h
  | succ n ih =>
    cases part <;> cases x
    case joined.one => exact joined_reads ih h
    case joinedRest.one => exact joinedRest_reads ih h
    case choiceRest.one => exact choiceRest_reads ih h
    case piped.one => exact piped_reads ih h
    case pipedRest.one => exact pipedRest_reads ih h
    case selectedRest.one => exact selectedRest_reads ih h
    case atom.one => exact atom_reads ih h
    case sequence.many => exact sequence_reads ih h
    case fieldSequence.fields => exact fieldSequence_reads ih h
    all_goals exact h.elim

/-! ### Brackets -/

/-- The number of open brackets after a token; none if it closes one that is not open. -/
def depthAfter (depth : Nat) : Token → Option Nat
  | .mark .openParen | .mark .openBracket | .mark .openBrace => some (depth + 1)
  | .mark .closeParen | .mark .closeBracket | .mark .closeBrace =>
    if depth = 0 then none else some (depth - 1)
  | _ => some depth

/-- A token is no bracket. -/
def IsPlain (t : Token) : Prop := ∀ depth, depthAfter depth t = some depth

theorem isPlain_of_ofToken? {t : Token} {e : Expression} (h : ofToken? t = some e) :
    IsPlain t := by
  cases t <;> first | cases h; done | exact fun _ => rfl

theorem isPlain_of_keyOf? {t : Token} {k : String} (h : keyOf? t = some k) : IsPlain t := by
  cases t <;> first | cases h; done | exact fun _ => rfl

/-- **The rest follows tokens in which all brackets are closed** that are opened there. -/
def Takes (ts r : List Token) : Prop :=
  ∃ taken, ts = taken ++ r ∧ ∀ depth, taken.foldlM depthAfter depth = some depth

namespace Takes

variable {t o c : Token} {ts us r : List Token}

theorem refl (ts : List Token) : Takes ts ts := ⟨[], rfl, fun _ => rfl⟩

theorem trans (h : Takes ts us) (h' : Takes us r) : Takes ts r := by
  obtain ⟨taken, rfl, ht⟩ := h
  obtain ⟨taken', rfl, ht'⟩ := h'
  refine ⟨taken ++ taken', (List.append_assoc ..).symm, fun depth => ?_⟩
  rw [List.foldlM_append, ht depth]
  exact ht' depth

theorem cons (ht : IsPlain t) (h : Takes ts r) : Takes (t :: ts) r := by
  obtain ⟨taken, rfl, ht'⟩ := h
  refine ⟨t :: taken, rfl, fun depth => ?_⟩
  rw [List.foldlM_cons, ht depth]
  exact ht' depth

/-- An opening bracket takes its closing one along. -/
theorem bracket (ho : ∀ depth, depthAfter depth o = some (depth + 1))
    (hc : ∀ depth, depthAfter (depth + 1) c = some depth) (h : Takes ts (c :: us))
    (h' : Takes us r) : Takes (o :: ts) r := by
  obtain ⟨taken, rfl, ht⟩ := h
  obtain ⟨taken', rfl, ht'⟩ := h'
  refine ⟨o :: (taken ++ c :: taken'), by simp, fun depth => ?_⟩
  rw [List.foldlM_cons, ho depth]
  change (taken ++ c :: taken').foldlM depthAfter (depth + 1) = some depth
  rw [List.foldlM_append, ht (depth + 1)]
  change (c :: taken').foldlM depthAfter (depth + 1) = some depth
  rw [List.foldlM_cons, hc depth]
  exact ht' depth

theorem length_le (h : Takes ts r) : r.length ≤ ts.length := by
  obtain ⟨taken, rfl, -⟩ := h
  simp

end Takes

/-- The mark that a part takes though none of its tokens opens it. -/
def Part.closing : Part → List Token
  | .sequence close => [.mark close]
  | .fieldSequence => [.mark .closeBrace]
  | _ => []

/-- **In what is taken the brackets are closed**, up to the closing mark of a sequence. -/
theorem Reads.takes {part : Part} {x : Reading} {ts r : List Token} (h : Reads part x ts r) :
    Takes ts (part.closing ++ r) := by
  induction h with
  | joined _ _ _ ih₁ ih₂ | choice _ _ _ ih₁ ih₂ => exact ih₁.trans ih₂
  | operand _ _ _ ih₁ ih₂ => exact (ih₁.trans ih₂).cons fun _ => rfl
  | joinedEnd | choiceEnd | pipedEnd | selectedEnd | sequenceEnd | fieldsEnd => exact .refl _
  | alternatives _ _ _ ih₁ ih₂ ih₃ =>
    exact (ih₁.trans ((ih₂.trans ih₃).cons fun _ => rfl)).cons fun _ => rfl
  | piped _ _ _ ih₁ ih₂ ih₃ => exact ih₁.trans (ih₂.trans ih₃)
  | call _ _ ih₁ ih₂ =>
    exact ((ih₁.bracket (fun _ => rfl) (fun _ => rfl) ih₂).cons fun _ => rfl).cons fun _ => rfl
  | pipe _ _ ih | field _ ih => exact (ih.cons fun _ => rfl).cons fun _ => rfl
  | filter _ _ _ ih₁ ih₂ =>
    refine Takes.bracket (c := .mark .closeBracket) (fun _ => rfl) (fun _ => rfl) ?_ ih₂
    exact ((ih₁.cons fun _ => rfl).cons fun _ => rfl).cons fun _ => rfl
  | index _ _ _ ih₁ ih₂ => exact ih₁.bracket (fun _ => rfl) (fun _ => rfl) ih₂
  | token h => exact (Takes.refl _).cons (isPlain_of_ofToken? h)
  | group _ ih => exact ih.bracket (fun _ => rfl) (fun _ => rfl) (.refl _)
  | list _ ih =>
    exact Takes.bracket (c := .mark .closeBracket) (fun _ => rfl) (fun _ => rfl) ih (.refl _)
  | object _ ih =>
    exact Takes.bracket (c := .mark .closeBrace) (fun _ => rfl) (fun _ => rfl) ih (.refl _)
  | item _ _ _ ih₁ ih₂ => exact ih₁.trans (ih₂.cons fun _ => rfl)
  | lastItem _ _ _ ih => exact ih
  | entry h _ _ ih₁ ih₂ =>
    exact ((ih₁.trans (ih₂.cons fun _ => rfl)).cons fun _ => rfl).cons (isPlain_of_keyOf? h)
  | lastEntry h _ ih => exact (ih.cons fun _ => rfl).cons (isPlain_of_keyOf? h)

/-! ### The rules are followed -/

section

/-! A reading step follows a rule if the steps that it takes follow the premises. -/

variable {n level : Nat} {op : Operator} {close : Mark} {name k : String}
  {c left right s t f a v i e : Expression} {es args : List Expression}
  {fs : List (String × Expression)} {u : Token} {ts r r₁ r₂ : List Token}

theorem joined_rule (hlevel : level < Operator.levels)
    (hleft : joined n (level + 1) ts = some (left, r₁))
    (hrest : joinedRest n level left r₁ = some (e, r)) : joined (n + 1) level ts = some (e, r) := by
  rw [joined, if_pos hlevel]
  exact Option.bind_eq_some_iff.mpr ⟨_, hleft, hrest⟩

theorem choice_rule (hlevel : ¬level < Operator.levels) (hc : piped n ts = some (c, r₁))
    (hrest : choiceRest n c r₁ = some (e, r)) : joined (n + 1) level ts = some (e, r) := by
  rw [joined, if_neg hlevel]
  exact Option.bind_eq_some_iff.mpr ⟨_, hc, hrest⟩

theorem operand_rule (hop : op.level = level) (hright : joined n (level + 1) ts = some (right, r₁))
    (hrest : joinedRest n level (.binary op left right) r₁ = some (e, r)) :
    joinedRest (n + 1) level left (.op op :: ts) = some (e, r) := by
  rw [joinedRest, if_pos hop]
  exact Option.bind_eq_some_iff.mpr ⟨_, hright, hrest⟩

theorem joinedEnd_rule (h : ∀ op r, ts = .op op :: r → op.level ≠ level) :
    joinedRest (n + 1) level left ts = some (left, ts) := by
  rw [joinedRest.eq_def]
  dsimp only
  split
  · exact if_neg (h _ _ rfl)
  · rfl

theorem alternatives_rule (ht : piped n ts = some (t, .mark .colon :: r₁))
    (hf : piped n r₁ = some (f, r₂)) (hrest : choiceRest n (.choice c t f) r₂ = some (e, r)) :
    choiceRest (n + 1) c (.mark .question :: ts) = some (e, r) := by
  rw [choiceRest]
  exact Option.bind_eq_some_iff.mpr ⟨_, ht, Option.bind_eq_some_iff.mpr
    ⟨_, rfl, Option.bind_eq_some_iff.mpr ⟨_, hf, hrest⟩⟩⟩

theorem choiceEnd_rule (h : NotAt .question ts) : choiceRest (n + 1) c ts = some (c, ts) := by
  rw [choiceRest.eq_def]
  dsimp only
  split
  · exact absurd rfl (h _)
  · rfl

theorem piped_rule (ha : atom n ts = some (a, r₁)) (hs : selectedRest n a r₁ = some (s, r₂))
    (hrest : pipedRest n s r₂ = some (e, r)) : piped (n + 1) ts = some (e, r) := by
  rw [piped]
  exact Option.bind_eq_some_iff.mpr ⟨_, ha, Option.bind_eq_some_iff.mpr ⟨_, hs, hrest⟩⟩

theorem call_rule (hargs : sequence n .closeParen ts = some (args, r₁))
    (hrest : pipedRest n (.transform s name args) r₁ = some (e, r)) :
    pipedRest (n + 1) s (.mark .pipe :: .name name :: .mark .openParen :: ts) = some (e, r) := by
  rw [pipedRest]
  exact Option.bind_eq_some_iff.mpr ⟨_, hargs, hrest⟩

theorem pipe_rule (h : NotAt .openParen ts)
    (hrest : pipedRest n (.transform s name []) ts = some (e, r)) :
    pipedRest (n + 1) s (.mark .pipe :: .name name :: ts) = some (e, r) := by
  rw [pipedRest.eq_def]
  dsimp only
  split
  next heq => cases heq; exact absurd rfl (h _)
  next heq => cases heq; exact hrest
  next hne heq => cases heq; exact absurd rfl (hne _ _)
  next hne => exact absurd rfl (hne _)

theorem pipedEnd_rule (h : NotAt .pipe ts) : pipedRest (n + 1) s ts = some (s, ts) := by
  rw [pipedRest.eq_def]
  dsimp only
  split
  · exact absurd rfl (h _)
  · exact absurd rfl (h _)
  · exact absurd rfl (h _)
  · rfl

theorem filter_rule (hop : op.level = 1) (hv : atom n ts = some (v, .mark .closeBracket :: r₁))
    (hrest : selectedRest n (.filter s name op v) r₁ = some (e, r)) :
    selectedRest (n + 1) s (.mark .openBracket :: .mark .dot :: .name name :: .op op :: ts) =
      some (e, r) := by
  rw [selectedRest, if_pos hop]
  exact Option.bind_eq_some_iff.mpr ⟨_, hv, Option.bind_eq_some_iff.mpr ⟨_, rfl, hrest⟩⟩

theorem index_rule (h : NotAt .dot ts) (hi : joined n 0 ts = some (i, .mark .closeBracket :: r₁))
    (hrest : selectedRest n (.index s i) r₁ = some (e, r)) :
    selectedRest (n + 1) s (.mark .openBracket :: ts) = some (e, r) := by
  rw [selectedRest.eq_def]
  dsimp only
  split
  next heq => cases heq; exact absurd rfl (h _)
  next heq =>
    cases heq
    exact Option.bind_eq_some_iff.mpr ⟨_, hi, Option.bind_eq_some_iff.mpr ⟨_, rfl, hrest⟩⟩
  next heq => cases heq
  next heq => cases heq
  next hne _ _ => exact absurd rfl (hne _)

theorem field_rule (hrest : selectedRest n (.field s name) ts = some (e, r)) :
    selectedRest (n + 1) s (.mark .dot :: .name name :: ts) = some (e, r) := by
  rw [selectedRest]
  exact hrest

theorem selectedEnd_rule (hbracket : NotAt .openBracket ts) (hdot : NotAt .dot ts) :
    selectedRest (n + 1) s ts = some (s, ts) := by
  rw [selectedRest.eq_def]
  dsimp only
  split
  · exact absurd rfl (hbracket _)
  · exact absurd rfl (hbracket _)
  · exact absurd rfl (hdot _)
  · exact absurd rfl (hdot _)
  · rfl

theorem token_rule (h : ofToken? u = some e) : atom (n + 1) (u :: r) = some (e, r) := by
  cases u <;> first | cases h; done | (cases h; rfl)

theorem group_rule (he : joined n 0 ts = some (e, .mark .closeParen :: r)) :
    atom (n + 1) (.mark .openParen :: ts) = some (e, r) := by
  rw [atom]
  exact Option.bind_eq_some_iff.mpr ⟨_, he, rfl⟩

theorem list_rule (hes : sequence n .closeBracket ts = some (es, r)) :
    atom (n + 1) (.mark .openBracket :: ts) = some (.list es, r) := by
  rw [atom]
  exact Option.bind_eq_some_iff.mpr ⟨_, hes, rfl⟩

theorem object_rule (hfs : fieldSequence n ts = some (fs, r)) :
    atom (n + 1) (.mark .openBrace :: ts) = some (.object fs, r) := by
  rw [atom]
  exact Option.bind_eq_some_iff.mpr ⟨_, hfs, rfl⟩

theorem sequenceEnd_rule : sequence (n + 1) close (.mark close :: r) = some ([], r) := by
  rw [sequence, expect_eq_some_iff.mpr rfl]

theorem item_rule (h : NotAt close ts) (he : joined n 0 ts = some (e, .mark .comma :: r₁))
    (hes : sequence n close r₁ = some (es, r)) :
    sequence (n + 1) close ts = some (e :: es, r) := by
  rw [sequence, expect_eq_none_iff.mpr h]
  exact Option.bind_eq_some_iff.mpr ⟨_, he, Option.bind_eq_some_iff.mpr ⟨_, hes, rfl⟩⟩

theorem lastItem_rule (h : NotAt close ts) (hcomma : close ≠ .comma)
    (he : joined n 0 ts = some (e, .mark close :: r)) :
    sequence (n + 1) close ts = some ([e], r) := by
  rw [sequence, expect_eq_none_iff.mpr h]
  refine Option.bind_eq_some_iff.mpr ⟨_, he, ?_⟩
  dsimp only
  split
  next heq => cases heq; exact absurd rfl hcomma
  next => exact Option.bind_eq_some_iff.mpr ⟨_, expect_eq_some_iff.mpr rfl, rfl⟩

theorem entry_rule (hk : keyOf? u = some k) (he : joined n 0 ts = some (e, .mark .comma :: r₁))
    (hfs : fieldSequence n r₁ = some (fs, r)) :
    fieldSequence (n + 1) (u :: .mark .colon :: ts) = some ((k, e) :: fs, r) := by
  rw [fieldSequence_cons hk, fieldAfter]
  exact Option.bind_eq_some_iff.mpr ⟨_, rfl, Option.bind_eq_some_iff.mpr
    ⟨_, he, Option.bind_eq_some_iff.mpr ⟨_, hfs, rfl⟩⟩⟩

theorem lastEntry_rule (hk : keyOf? u = some k)
    (he : joined n 0 ts = some (e, .mark .closeBrace :: r)) :
    fieldSequence (n + 1) (u :: .mark .colon :: ts) = some ([(k, e)], r) := by
  rw [fieldSequence_cons hk, fieldAfter]
  exact Option.bind_eq_some_iff.mpr ⟨_, rfl, Option.bind_eq_some_iff.mpr
    ⟨_, he, Option.bind_eq_some_iff.mpr ⟨_, rfl, rfl⟩⟩⟩

end

/-- The number of steps that are nested before the first token is taken. -/
def Part.depth : Part → Nat
  | .joined level => 3 + (Operator.levels - level)
  | .piped => 2
  | .sequence _ => 9
  | _ => 1

theorem Part.depth_pos (part : Part) : 0 < part.depth := by
  cases part <;> simp only [Part.depth] <;> omega

theorem Part.depth_le (part : Part) : part.depth ≤ 9 := by
  cases part <;> simp only [Part.depth, Operator.levels] <;> omega

/-- **A reading step yields a value**, given twelve steps for each token. -/
def IsYielded (part : Part) (x : Reading) (ts r : List Token) : Prop :=
  ∀ n, 12 * ts.length + part.depth ≤ n + 1 → Yields (n + 1) part x ts r

section

variable {part : Part} {x : Reading} {ts r : List Token} {n : Nat}

theorem IsYielded.next (h : IsYielded part x ts r) (hn : 12 * ts.length + part.depth ≤ n) :
    Yields n part x ts r := by
  have hpos := part.depth_pos
  obtain ⟨n, rfl⟩ : ∃ m, n = m + 1 := ⟨n - 1, by omega⟩
  exact h n hn

/-- The steps are enough if a token was taken before. -/
theorem IsYielded.later (h : IsYielded part x ts r) (hn : 12 * (ts.length + 1) ≤ n) :
    Yields n part x ts r := by
  have hle := part.depth_le
  exact h.next (by omega)

theorem Reads.closing_add_length_le (h : Reads part x ts r) :
    part.closing.length + r.length ≤ ts.length := by
  simpa using h.takes.length_le

/-- **What the rules read** is yielded by a reading step. -/
theorem Reads.isYielded (h : Reads part x ts r) : IsYielded part x ts r := by
  -- The premises of a rule are followed with the steps that remain after the first one.
  induction h with
  | joined hlevel hleft _ ih₁ ih₂ =>
    intro n hn
    have hle := hleft.closing_add_length_le
    refine joined_rule hlevel (ih₁.next ?_) (ih₂.next ?_) <;>
      simp only [Part.depth, Operator.levels] at hn hlevel ⊢ <;> omega
  | choice hlevel hc _ ih₁ ih₂ =>
    intro n hn
    have hle := hc.closing_add_length_le
    refine choice_rule hlevel (ih₁.next ?_) (ih₂.next ?_) <;>
      simp only [Part.depth] at hn ⊢ <;> omega
  | piped ha hs _ ih₁ ih₂ ih₃ =>
    intro n hn
    have hle := ha.closing_add_length_le
    have hle' := hs.closing_add_length_le
    refine piped_rule (ih₁.next ?_) (ih₂.next ?_) (ih₃.next ?_) <;>
      simp only [Part.depth] at hn ⊢ <;> omega
  | operand hop hright _ ih₁ ih₂ =>
    intro n hn
    have hle := hright.closing_add_length_le
    simp only [Part.depth, List.length_cons] at hn
    exact operand_rule hop (ih₁.later (by omega)) (ih₂.later (by omega))
  | alternatives ht hf _ ih₁ ih₂ ih₃ =>
    intro n hn
    have hle := ht.closing_add_length_le
    have hle' := hf.closing_add_length_le
    simp only [Part.depth, List.length_cons] at hn hle
    exact alternatives_rule (ih₁.later (by omega)) (ih₂.later (by omega)) (ih₃.later (by omega))
  | call hargs _ ih₁ ih₂ =>
    intro n hn
    have hle := hargs.closing_add_length_le
    simp only [Part.depth, List.length_cons] at hn
    exact call_rule (ih₁.later (by omega)) (ih₂.later (by omega))
  | pipe h _ ih =>
    intro n hn
    simp only [Part.depth, List.length_cons] at hn
    exact pipe_rule h (ih.later (by omega))
  | filter hop hv _ ih₁ ih₂ =>
    intro n hn
    have hle := hv.closing_add_length_le
    simp only [Part.depth, List.length_cons] at hn hle
    exact filter_rule hop (ih₁.later (by omega)) (ih₂.later (by omega))
  | index h hi _ ih₁ ih₂ =>
    intro n hn
    have hle := hi.closing_add_length_le
    simp only [Part.depth, List.length_cons] at hn hle
    exact index_rule h (ih₁.later (by omega)) (ih₂.later (by omega))
  | field _ ih =>
    intro n hn
    simp only [Part.depth, List.length_cons] at hn
    exact field_rule (ih.later (by omega))
  | joinedEnd h => exact fun _ _ => joinedEnd_rule h
  | choiceEnd h => exact fun _ _ => choiceEnd_rule h
  | pipedEnd h => exact fun _ _ => pipedEnd_rule h
  | selectedEnd hbracket hdot => exact fun _ _ => selectedEnd_rule hbracket hdot
  | token h => exact fun _ _ => token_rule h
  | group _ ih =>
    intro n hn
    simp only [Part.depth, List.length_cons] at hn
    exact group_rule (ih.later (by omega))
  | list _ ih =>
    intro n hn
    simp only [Part.depth, List.length_cons] at hn
    exact list_rule (ih.later (by omega))
  | object _ ih =>
    intro n hn
    simp only [Part.depth, List.length_cons] at hn
    exact object_rule (ih.later (by omega))
  | sequenceEnd => exact fun _ _ => sequenceEnd_rule
  | item h he _ ih₁ ih₂ =>
    intro n hn
    have hle := he.closing_add_length_le
    simp only [Part.depth, List.length_cons] at hn hle
    refine item_rule h (ih₁.next ?_) (ih₂.later (by omega))
    simp only [Part.depth, Operator.levels]
    omega
  | lastItem h hcomma _ ih =>
    intro n hn
    refine lastItem_rule h hcomma (ih.next ?_)
    simp only [Part.depth, Operator.levels] at hn ⊢
    omega
  | fieldsEnd => exact fun _ _ => rfl
  | entry hk he _ ih₁ ih₂ =>
    intro n hn
    have hle := he.closing_add_length_le
    simp only [Part.depth, List.length_cons] at hn hle
    exact entry_rule hk (ih₁.later (by omega)) (ih₂.later (by omega))
  | lastEntry hk _ ih =>
    intro n hn
    simp only [Part.depth, List.length_cons] at hn
    exact lastEntry_rule hk (ih.later (by omega))

end

/-- **The expression that tokens spell** is the one that the rules read. -/
theorem ofTokens?_eq_some_iff {ts : List Token} {e : Expression} :
    ofTokens? ts = some e ↔ Reads (.joined 0) (.one e) ts [] := by
  unfold ofTokens?
  constructor
  · intro h
    split at h
    next he =>
      cases h
      exact Yields.reads he
    next => cases h
  · intro h
    have he : joined (12 * (ts.length + 2)) 0 ts = some (e, []) :=
      h.isYielded.later (by omega)
    rw [he]

end WorkflowEngine.Expr.Expression
