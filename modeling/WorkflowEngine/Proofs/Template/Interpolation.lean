import WorkflowEngine.Proofs.Template.Placeholder

/-!
# Interpolation

A template with text around its placeholders has a text as its value: that of the template with the
values of the placeholders put in. Two things are not as written. The blanks at the beginning and at
the end of the template are lost, as if they were not part of its text. And a placeholder ends at
the first two closing braces, so that a brace right before its end is text behind it.

A template is followed as a list of pieces here, as someone writes it. What is read off the written
template has the same placeholders and the same text, though texts beside one another are a single
segment.

## Main definitions

* `written`, `templateOf`: the template that pieces make up
* `Segment.IsProper`: a text in which no placeholder begins, and a placeholder that ends where it
  seems to
* `Segment.settled`: a placeholder with the brace before its end as text behind it
* `bodies`, `plain`, `filled`: the placeholders of pieces, their texts, and both with values put in

## Main results

* `exists_reads`: what is read off a template that is made of pieces
* `exists_margins`: blanks at both ends of a template are text
* `interpolation_drops_margins`: the value of a template with text around its placeholders
-/

namespace WorkflowEngine

namespace Text

variable {x : Char} {l : List Char}

/-- **Two of a character in a row** are found behind a text without them that does not end in the
character. -/
theorem breakAt_append_pair (h : ¬[x, x] <:+: l) (hl : l.getLast? ≠ some x) (r : List Char) :
    breakAt [x, x] (l ++ x :: x :: r) = some (l, r) := by
  induction l with
  | nil => simp [breakAt, dropLeading]
  | cons c l ih =>
    rw [List.infix_cons_iff, not_or] at h
    have hnone : dropLeading [x, x] (c :: (l ++ x :: x :: r)) = none := by
      refine Option.eq_none_iff_forall_ne_some.mpr fun rest hrest => ?_
      obtain ⟨rfl, hrest⟩ := List.cons.inj (dropLeading_eq_some_iff.mp hrest)
      -- the character itself is followed by the last one, or by another one of it
      cases l with
      | nil => exact hl rfl
      | cons d l =>
        obtain ⟨rfl, -⟩ := List.cons.inj hrest
        exact h.1 (List.prefix_append [d, d] l)
    have hlast : l.getLast? ≠ some x := by
      cases l with
      | nil => simp
      | cons d l => rwa [List.getLast?_cons_cons] at hl
    rw [List.cons_append, breakAt, hnone, ih h.2 hlast]
    rfl

/-- Texts without two of a character in a row, of which the first one does not end in the character,
have none together. -/
theorem not_pair_infix_append (h : ¬[x, x] <:+: l) (hl : l.getLast? ≠ some x) {r : List Char}
    (hr : ¬[x, x] <:+: r) : ¬[x, x] <:+: l ++ r := by
  induction l with
  | nil => exact hr
  | cons c l ih =>
    rw [List.infix_cons_iff, not_or] at h
    rw [List.cons_append, List.infix_cons_iff, not_or]
    cases l with
    | nil =>
      refine ⟨fun hpair => hl ?_, hr⟩
      rw [(List.cons_prefix_cons.mp hpair).1]
      rfl
    | cons d l =>
      rw [List.getLast?_cons_cons] at hl
      refine ⟨fun hpair => h.1 ?_, ih h.2 hl⟩
      rw [List.cons_append, List.cons_prefix_cons, List.cons_prefix_cons] at hpair
      obtain ⟨rfl, rfl, -⟩ := hpair
      exact List.prefix_append _ l

theorem getLast?_append_ne (hl : l.getLast? ≠ some x) {r : List Char} (hr : r.getLast? ≠ some x) :
    (l ++ r).getLast? ≠ some x := by
  rw [List.getLast?_append]
  cases h : r.getLast? with
  | none => exact hl
  | some d => exact fun he => hr (h.trans he)

/-- What stands on both sides of a list is nothing if the list is all of it. -/
theorem eq_append_append_iff {α : Type} {l m r : List α} : m = l ++ m ++ r ↔ l = [] ∧ r = [] := by
  constructor
  · intro h
    have hlength := congrArg List.length h
    simp only [List.length_append] at hlength
    exact ⟨List.length_eq_zero_iff.mp (by omega), List.length_eq_zero_iff.mp (by omega)⟩
  · rintro ⟨rfl, rfl⟩
    simp

/-- The blanks at the beginning of a text. -/
def leading (cs : List Char) : List Char := cs.takeWhile isBlank

/-- The blanks at the end of a text, behind the last character that is none. -/
def trailing (cs : List Char) : List Char := (trimStart cs).rtakeWhile isBlank

theorem isBlank_of_mem_leading {cs : List Char} : ∀ c ∈ leading cs, isBlank c = true :=
  fun _ => List.mem_takeWhile_imp

theorem isBlank_of_mem_trailing {cs : List Char} : ∀ c ∈ trailing cs, isBlank c = true :=
  fun _ => List.mem_rtakeWhile_imp

/-- **What trimming drops** are the blanks at both ends. -/
theorem leading_append_trimmed_append_trailing (cs : List Char) :
    leading cs ++ trimmed cs ++ trailing cs = cs := by
  have hend : trimmed cs ++ trailing cs = trimStart cs := List.rdropWhile_append_rtakeWhile
  rw [List.append_assoc, hend]
  exact List.takeWhile_append_dropWhile

/-- Nothing is dropped from a text without blanks at its ends. -/
theorem trimmed_eq_self_iff {cs : List Char} :
    trimmed cs = cs ↔ leading cs = [] ∧ trailing cs = [] := by
  rw [← eq_append_append_iff (m := trimmed cs), leading_append_trimmed_append_trailing]

end Text

namespace Template

open Text

/-! ### Pieces -/

namespace Segment

/-- A piece as it is written: a placeholder is written between its braces. -/
def written : Segment → List Char
  | .literal cs => cs
  | .placeholder body => opening ++ body ++ closing

/-- **A piece that may stand in a template**: no placeholder begins in a text, not even with what
follows the text, and no placeholder ends in a body. -/
def IsProper : Segment → Prop
  | .literal cs => ¬opening <:+: cs ∧ cs.getLast? ≠ some '{'
  | .placeholder body => ¬closing <:+: body

instance : DecidablePred IsProper
  | .literal cs => inferInstanceAs (Decidable (¬opening <:+: cs ∧ cs.getLast? ≠ some '\x7b'))
  | .placeholder body => inferInstanceAs (Decidable (¬closing <:+: body))

/-- **A piece that is read as it is written**: no placeholder ends in a body, nor with the first
brace behind it. -/
def IsSettled : Segment → Prop
  | .literal cs => ¬opening <:+: cs ∧ cs.getLast? ≠ some '{'
  | .placeholder body => ¬closing <:+: body ∧ body.getLast? ≠ some '}'

/-- **A piece as it is read.** A placeholder ends at the first two closing braces, and if its body
ends in one, this one and the next one are these. -/
def settled : Segment → List Segment
  | .literal cs => [.literal cs]
  | .placeholder body =>
    if body.getLast? = some '}' then [.placeholder body.dropLast, .literal ['}']]
    else [.placeholder body]

/-- The body of a placeholder. -/
def body? : Segment → Option (List Char)
  | .literal _ => none
  | .placeholder body => some body

/-- The characters of a text. -/
def plain : Segment → List Char
  | .literal cs => cs
  | .placeholder _ => []

/-- A piece with the value of its placeholder put in. -/
def filled (value : List Char → Json) : Segment → List Char
  | .literal cs => cs
  | .placeholder body => (value body).display.toList

end Segment

/-- **The characters of the template that pieces make up.** -/
def written (pieces : List Segment) : List Char := pieces.flatMap Segment.written

/-- **The template that pieces make up.** -/
def templateOf (pieces : List Segment) : String := String.ofList (written pieces)

/-- The pieces of a template as they are read. -/
def settled (pieces : List Segment) : List Segment := pieces.flatMap Segment.settled

/-- The bodies of the placeholders. -/
def bodies (pieces : List Segment) : List (List Char) := pieces.filterMap Segment.body?

/-- The text around the placeholders. -/
def plain (pieces : List Segment) : List Char := pieces.flatMap Segment.plain

/-- **The text with the values of the placeholders put in.** -/
def filled (value : List Char → Json) (pieces : List Segment) : List Char :=
  pieces.flatMap (Segment.filled value)

variable {engine : Expr.Engine} {context : Json} {cs : List Char} {ps qs : List Segment}

@[simp] theorem written_cons (p : Segment) (ps : List Segment) :
    written (p :: ps) = p.written ++ written ps := rfl

@[simp] theorem written_append : written (ps ++ qs) = written ps ++ written qs :=
  List.flatMap_append

@[simp] theorem bodies_append : bodies (ps ++ qs) = bodies ps ++ bodies qs := List.filterMap_append

@[simp] theorem plain_append : plain (ps ++ qs) = plain ps ++ plain qs := List.flatMap_append

@[simp] theorem filled_append (value : List Char → Json) :
    filled value (ps ++ qs) = filled value ps ++ filled value qs := List.flatMap_append

@[simp] theorem written_literal : written [.literal cs] = cs := List.append_nil _

@[simp] theorem bodies_literal : bodies [.literal cs] = [] := rfl

@[simp] theorem plain_literal : plain [.literal cs] = cs := List.append_nil _

@[simp] theorem filled_literal (value : List Char → Json) : filled value [.literal cs] = cs :=
  List.append_nil _

/-- A placeholder is written with its braces. -/
theorem opening_infix_written (h : bodies ps ≠ []) : opening <:+: written ps := by
  obtain ⟨body, hbody⟩ := List.exists_mem_of_ne_nil _ h
  obtain ⟨p, hp, hp'⟩ := List.mem_filterMap.mp hbody
  cases p with
  | literal => cases hp'
  | placeholder b =>
    obtain ⟨before, after, rfl⟩ := List.append_of_mem hp
    exact ⟨written before, b ++ closing ++ written after, by simp [Segment.written]⟩

/-- Pieces as they are read make up the same template. -/
theorem written_settled (pieces : List Segment) : written (settled pieces) = written pieces := by
  have hpiece (p : Segment) : written p.settled = p.written := by
    cases p with
    | literal cs => exact written_literal
    | placeholder body =>
      rw [Segment.settled]
      split
      next hlast =>
        obtain ⟨b, rfl⟩ := List.getLast?_eq_some_iff.mp hlast
        simp [written, Segment.written, closing]
      next => exact List.append_nil _
  induction pieces with
  | nil => rfl
  | cons p pieces ih =>
    have hcons : settled (p :: pieces) = p.settled ++ settled pieces := rfl
    rw [hcons, written_append, hpiece, ih, written_cons]

theorem isSettled_of_mem_settled {pieces : List Segment} (h : ∀ p ∈ pieces, p.IsProper) :
    ∀ q ∈ settled pieces, q.IsSettled := by
  intro q hq
  obtain ⟨p, hp, hq⟩ := List.mem_flatMap.mp hq
  have hproper := h p hp
  cases p with
  | literal cs =>
    obtain rfl := List.mem_singleton.mp hq
    exact hproper
  | placeholder body =>
    rw [Segment.settled] at hq
    split at hq
    next hlast =>
      obtain ⟨b, rfl⟩ := List.getLast?_eq_some_iff.mp hlast
      rw [List.dropLast_concat, List.mem_pair] at hq
      rcases hq with rfl | rfl
      · refine ⟨fun hin => hproper (hin.trans (List.prefix_append ..).isInfix), fun hb => ?_⟩
        obtain ⟨b', rfl⟩ := List.getLast?_eq_some_iff.mp hb
        exact hproper ⟨b', [], by simp [closing]⟩
      · exact ⟨by decide, by decide⟩
    next hlast =>
      obtain rfl := List.mem_singleton.mp hq
      exact ⟨hproper, hlast⟩

theorem length_bodies_settled (pieces : List Segment) :
    (bodies (settled pieces)).length = (bodies pieces).length := by
  have hpiece (p : Segment) : (bodies p.settled).length = (bodies [p]).length := by
    cases p with
    | literal cs => rfl
    | placeholder body => rw [Segment.settled]; split <;> rfl
  induction pieces with
  | nil => rfl
  | cons p pieces ih =>
    have hcons : settled (p :: pieces) = p.settled ++ settled pieces := rfl
    rw [hcons, ← List.singleton_append, bodies_append, bodies_append, List.length_append,
      List.length_append, hpiece, ih]

/-- The text around the placeholders is read as text. -/
theorem mem_plain_settled {c : Char} {pieces : List Segment} (hc : c ∈ plain pieces) :
    c ∈ plain (settled pieces) := by
  obtain ⟨p, hp, hc⟩ := List.mem_flatMap.mp hc
  cases p with
  | literal cs =>
    exact List.mem_flatMap.mpr ⟨_, List.mem_flatMap.mpr ⟨_, hp, List.mem_singleton_self _⟩, hc⟩
  | placeholder body => cases hc

/-! ### Reading -/

/-- **What is read off a template**: its placeholders, with no blanks around their bodies, and its
text, so that it is rendered as the pieces are. -/
structure Reads (segments pieces : List Segment) : Prop where
  bodies_eq : bodies segments = (bodies pieces).map trimmed
  plain_eq : plain segments = plain pieces
  texts_eq : ∀ engine context,
    segmentTexts engine context segments = segmentTexts engine context pieces

theorem segmentTexts_literal (engine : Expr.Engine) (context : Json) (cs : List Char)
    (ps : List Segment) :
    segmentTexts engine context (.literal cs :: ps) =
      (segmentTexts engine context ps).map (String.ofList cs ++ ·) := by
  rw [segmentTexts]
  cases segmentTexts engine context ps <;> rfl

namespace Reads

variable {segments : List Segment}

/-- An empty text makes no difference. -/
theorem of_empty (h : Reads segments (.literal [] :: ps)) : Reads segments ps where
  bodies_eq := h.bodies_eq
  plain_eq := h.plain_eq
  texts_eq engine context := by
    rw [h.texts_eq, segmentTexts_literal]
    cases segmentTexts engine context ps <;> simp [Except.map]

/-- A text at the beginning is a segment, unless it is empty. -/
theorem literal (h : Reads segments ps) (cs : List Char) :
    Reads (literalSegment cs ++ segments) (.literal cs :: ps) := by
  have hcons : Reads (.literal cs :: segments) (.literal cs :: ps) :=
    { bodies_eq := h.bodies_eq
      plain_eq := congrArg (cs ++ ·) h.plain_eq
      texts_eq := fun engine context => by
        rw [segmentTexts_literal, segmentTexts_literal, h.texts_eq] }
  cases cs with
  | nil =>
    refine ⟨h.bodies_eq, h.plain_eq, fun engine context => ?_⟩
    rw [← hcons.texts_eq, segmentTexts_literal]
    cases hs : segmentTexts engine context segments <;> simp [Except.map, literalSegment, hs]
  | cons c cs => exact hcons

/-- A placeholder at the beginning is a segment. -/
theorem placeholder (h : Reads segments ps) (body : List Char) :
    Reads (.placeholder (trimmed body) :: segments) (.placeholder body :: ps) where
  bodies_eq := congrArg (trimmed body :: ·) h.bodies_eq
  plain_eq := h.plain_eq
  texts_eq engine context := by
    rw [segmentTexts, segmentTexts, segmentText, segmentText, expressionValue_trimmed, h.texts_eq]

/-- Two texts beside one another are one text. -/
theorem merge {ds : List Char} (h : Reads segments (.literal (cs ++ ds) :: ps)) :
    Reads segments (.literal cs :: .literal ds :: ps) where
  bodies_eq := h.bodies_eq
  plain_eq := h.plain_eq.trans (List.append_assoc cs ds (Template.plain ps))
  texts_eq engine context := by
    rw [h.texts_eq, segmentTexts_literal, segmentTexts_literal, segmentTexts_literal]
    cases segmentTexts engine context ps <;> simp [Except.map, String.append_assoc]

end Reads

theorem breakAt_opening_of_not_infix (h : ¬opening <:+: cs) : breakAt opening cs = none :=
  Option.not_isSome_iff_eq_none.mp fun hsome => h (holds_iff.mp hsome)

/-- **What is read off a template that is made of pieces**, whatever text without placeholders is at
its end. -/
theorem exists_reads {tail : List Char} (hps : ∀ p ∈ ps, p.IsSettled) (htail : ¬opening <:+: tail) :
    ∃ segments, Segment.ofChars? (written ps ++ tail) = some segments ∧
      Reads segments (ps ++ [.literal tail]) := by
  -- Induction on the pieces, with the text before them that has no end yet.
  suffices h : ∀ cs, ¬opening <:+: cs → cs.getLast? ≠ some '{' →
      ∃ segments, Segment.ofChars? (cs ++ (written ps ++ tail)) = some segments ∧
        Reads segments (.literal cs :: (ps ++ [.literal tail])) by
    obtain ⟨segments, hsegments, hreads⟩ := h [] (by decide) nofun
    exact ⟨segments, hsegments, hreads.of_empty⟩
  induction ps with
  | nil =>
    intro cs hcs hlast
    have hnone := breakAt_opening_of_not_infix (not_pair_infix_append hcs hlast htail)
    have hnil : Reads [] [] := ⟨rfl, rfl, fun _ _ => rfl⟩
    refine ⟨_, Segment.ofChars?_of_none hnone, .merge ?_⟩
    rw [← List.append_nil (literalSegment _)]
    exact hnil.literal _
  | cons p ps ih =>
    intro cs hcs hlast
    obtain ⟨hp, hps'⟩ := List.forall_mem_cons.mp hps
    cases p with
    | literal ds =>
      obtain ⟨segments, hsegments, hreads⟩ := ih hps' (cs ++ ds)
        (not_pair_infix_append hcs hlast hp.1) (getLast?_append_ne hlast hp.2)
      refine ⟨segments, ?_, hreads.merge⟩
      simpa [Segment.written] using hsegments
    | placeholder body =>
      obtain ⟨segments, hsegments, hreads⟩ := ih hps' [] (by decide) nofun
      have hopening : breakAt opening (cs ++ (written (.placeholder body :: ps) ++ tail)) =
          some (cs, body ++ closing ++ (written ps ++ tail)) := by
        have := breakAt_append_pair hcs hlast (body ++ closing ++ (written ps ++ tail))
        simpa [Segment.written, opening] using this
      have hclosing : breakAt closing (body ++ closing ++ (written ps ++ tail)) =
          some (body, written ps ++ tail) := by
        have := breakAt_append_pair hp.1 hp.2 (written ps ++ tail)
        simpa [closing] using this
      exact ⟨_, (Segment.ofChars?_of_some hopening hclosing).trans
        (congrArg (Option.map _) hsegments), (hreads.of_empty.placeholder body).literal cs⟩

/-! ### Margins -/

/-- **Blanks at the beginning of a template are text**, and can be taken away from the pieces. -/
theorem exists_of_blanks_append {front rest : List Char} (hfront : ∀ c ∈ front, isBlank c = true)
    (h : written ps = front ++ rest) (hps : ∀ p ∈ ps, p.IsSettled) :
    ∃ qs, rest = written qs ∧ (∀ p ∈ qs, p.IsSettled) ∧ bodies ps = bodies qs ∧
      plain ps = front ++ plain qs ∧ ∀ value, filled value ps = front ++ filled value qs := by
  induction ps generalizing front with
  | nil =>
    obtain ⟨rfl, rfl⟩ := List.append_eq_nil_iff.mp h.symm
    exact ⟨[], rfl, hps, rfl, rfl, fun _ => rfl⟩
  | cons p ps ih =>
    obtain ⟨hp, hps'⟩ := List.forall_mem_cons.mp hps
    cases p with
    | literal cs =>
      -- the blanks end in the text, or go on behind it
      rcases List.append_eq_append_iff.mp h with ⟨more, rfl, hmore⟩ | ⟨left, rfl, rfl⟩
      · obtain ⟨qs, rfl, hqs, hbodies, hplain, hfilled⟩ :=
          ih (fun c hc => hfront c (List.mem_append_right _ hc)) hmore hps'
        refine ⟨qs, rfl, hqs, hbodies, ?_, fun value => ?_⟩
        · exact (congrArg (cs ++ ·) hplain).trans (List.append_assoc ..).symm
        · exact (congrArg (cs ++ ·) (hfilled value)).trans (List.append_assoc ..).symm
      · have hleft : (Segment.literal left).IsSettled := by
          refine ⟨fun hin => hp.1 (hin.trans (List.suffix_append ..).isInfix), fun hlast => hp.2 ?_⟩
          rw [List.getLast?_append, hlast]
          rfl
        refine ⟨.literal left :: ps, rfl, List.forall_mem_cons.mpr ⟨hleft, hps'⟩, rfl, ?_,
          fun value => ?_⟩
        · exact List.append_assoc front left (plain ps)
        · exact List.append_assoc front left (filled value ps)
    | placeholder body =>
      cases front with
      | nil => exact ⟨_, h.symm, hps, rfl, rfl, fun _ => rfl⟩
      | cons c front =>
        obtain ⟨rfl, -⟩ := List.cons.inj h
        exact absurd (hfront _ (List.mem_cons_self ..)) (by decide)

/-- **Blanks at the end of a template are text**, and can be taken away from the pieces. Of the text
before them nothing is left but that no placeholder begins in it. -/
theorem exists_of_append_blanks {rest back : List Char} (hback : ∀ c ∈ back, isBlank c = true)
    (h : written ps = rest ++ back) (hps : ∀ p ∈ ps, p.IsSettled) :
    ∃ qs tail, rest = written qs ++ tail ∧ (∀ p ∈ qs, p.IsSettled) ∧ ¬opening <:+: tail ∧
      bodies ps = bodies qs ∧ plain ps = plain qs ++ tail ++ back ∧
      ∀ value, filled value ps = filled value qs ++ tail ++ back := by
  induction ps using List.reverseRecOn generalizing back with
  | nil =>
    obtain ⟨rfl, rfl⟩ := List.append_eq_nil_iff.mp h.symm
    exact ⟨[], [], rfl, hps, by decide, rfl, rfl, fun _ => rfl⟩
  | append_singleton ps p ih =>
    obtain ⟨hps', hp⟩ := List.forall_mem_append.mp hps
    have hp := hp p (List.mem_singleton_self p)
    cases p with
    | literal cs =>
      rw [written_append, written_literal] at h
      -- the blanks begin in the text, or before it
      rcases List.append_eq_append_iff.mp h with ⟨tail, rfl, rfl⟩ | ⟨more, hmore, rfl⟩
      · refine ⟨ps, tail, rfl, hps', fun hin => hp.1 (hin.trans (List.prefix_append ..).isInfix),
          by simp, by simp, by simp⟩
      · obtain ⟨qs, tail, rfl, hqs, htail, hbodies, hplain, hfilled⟩ :=
          ih (fun c hc => hback c (List.mem_append_left _ hc)) hmore hps'
        exact ⟨qs, tail, rfl, hqs, htail, by simpa using hbodies, by simp [hplain],
          by simp [hfilled]⟩
    | placeholder body =>
      cases back using List.reverseRecOn with
      | nil =>
        refine ⟨ps ++ [.placeholder body], [], ?_, hps, by decide, rfl, by simp, by simp⟩
        simpa using h.symm
      | append_singleton back c =>
        have hlast : (written (ps ++ [.placeholder body])).getLast? = some '}' := by
          simp [written, Segment.written, closing]
        rw [h, ← List.append_assoc, List.getLast?_concat] at hlast
        obtain rfl := Option.some.inj hlast
        exact absurd (hback '}' (by simp)) (by decide)

/-- **What is left of a template without the blanks at both ends.** -/
theorem exists_margins (hps : ∀ p ∈ ps, p.IsSettled) :
    ∃ qs tail, trimmed (written ps) = written qs ++ tail ∧ (∀ p ∈ qs, p.IsSettled) ∧
      ¬opening <:+: tail ∧ bodies ps = bodies qs ∧
      plain ps = leading (written ps) ++ (plain qs ++ tail) ++ trailing (written ps) ∧
      ∀ value, filled value ps =
        leading (written ps) ++ (filled value qs ++ tail) ++ trailing (written ps) := by
  have hwritten := leading_append_trimmed_append_trailing (written ps)
  rw [List.append_assoc] at hwritten
  obtain ⟨qs, hqs, hsettled, hbodies, hplain, hfilled⟩ :=
    exists_of_blanks_append isBlank_of_mem_leading hwritten.symm hps
  obtain ⟨rs, tail, hrs, hsettled, htail, hbodies', hplain', hfilled'⟩ :=
    exists_of_append_blanks isBlank_of_mem_trailing hqs.symm hsettled
  refine ⟨rs, tail, hrs, hsettled, htail, hbodies.trans hbodies', ?_, fun value => ?_⟩
  · rw [hplain, hplain', ← List.append_assoc]
  · rw [hfilled, hfilled', ← List.append_assoc]

/-! ### Rendering -/

/-- **Pieces whose placeholders have values** are their text with the values put in. -/
theorem segmentTexts_of_values {value : List Char → Json}
    (h : ∀ body ∈ bodies ps, expressionValue engine body context = .ok (value body)) :
    segmentTexts engine context ps = .ok (String.ofList (filled value ps)) := by
  induction ps with
  | nil => rfl
  | cons p ps ih =>
    cases p with
    | literal cs =>
      rw [segmentTexts_literal, ih h, Except.map, ← String.ofList_append]
      rfl
    | placeholder body =>
      have hbodies : bodies (.placeholder body :: ps) = body :: bodies ps := rfl
      rw [hbodies, List.forall_mem_cons] at h
      rw [segmentTexts, segmentText, h.1, ih h.2]
      simp [filled, Segment.filled, Except.map, bind, Except.bind, pure, Except.pure]

/-- **Pieces fail with the first placeholder that fails.** -/
theorem segmentTexts_of_error {before after : List (List Char)} {body : List Char} {e : EvalError}
    (h : bodies ps = before ++ body :: after)
    (hbefore : ∀ b ∈ before, ∃ v, expressionValue engine b context = .ok v)
    (he : expressionValue engine body context = .error e) :
    segmentTexts engine context ps = .error e := by
  induction ps generalizing before with
  | nil => exact absurd h (by simp [bodies])
  | cons p ps ih =>
    cases p with
    | literal cs =>
      rw [segmentTexts_literal, ih h hbefore]
      rfl
    | placeholder b =>
      have hbodies : bodies (.placeholder b :: ps) = b :: bodies ps := rfl
      rw [hbodies] at h
      cases before with
      | nil =>
        obtain ⟨rfl, -⟩ := List.cons.inj h
        rw [segmentTexts, segmentText, he]
        rfl
      | cons b' before =>
        obtain ⟨rfl, hrest⟩ := List.cons.inj h
        obtain ⟨⟨v, hv⟩, hbefore⟩ := List.forall_mem_cons.mp hbefore
        rw [segmentTexts, segmentText, hv, ih hrest hbefore]
        rfl

/-! ### The value of a template -/

/-- **A template with text around its placeholders** is one of several segments. They are those of
its pieces without the blanks at both ends of it. -/
theorem exists_isMixed {pieces : List Segment} (hps : ∀ p ∈ pieces, p.IsSettled)
    (hone : bodies pieces ≠ [])
    (hmore : (∃ c ∈ plain pieces, isBlank c = false) ∨ 2 ≤ (bodies pieces).length) :
    ∃ segments qs, IsMixed (templateOf pieces) segments ∧ Reads segments qs ∧
      bodies qs = bodies pieces ∧
      ∀ value, filled value pieces =
        leading (written pieces) ++ filled value qs ++ trailing (written pieces) := by
  obtain ⟨qs, tail, htrimmed, hsettled, htail, hbodies, hplain, hfilled⟩ := exists_margins hps
  obtain ⟨segments, hsegments, hreads⟩ := exists_reads hsettled htail
  have hchars : trimmed (templateOf pieces).toList = written qs ++ tail := by
    rw [templateOf, String.toList_ofList, htrimmed]
  have hbodies' : bodies (qs ++ [.literal tail]) = bodies pieces := by simp [hbodies]
  refine ⟨segments, qs ++ [.literal tail], ?_, hreads, hbodies', fun value => ?_⟩
  · refine ⟨?_, hchars ▸ hsegments, ?_⟩
    · rw [hbodies] at hone
      exact holds_iff.mpr (hchars ▸ (opening_infix_written hone).trans List.infix_append_left)
    · rintro body rfl
      -- all that is left is the placeholder, so that there was but this one and blanks
      have hlength := congrArg List.length hreads.bodies_eq
      rw [List.length_map, hbodies'] at hlength
      rcases hmore with ⟨c, hc, hblank⟩ | htwo
      · have hnil : plain qs ++ tail = [] := by
          have hnone := hreads.plain_eq
          rw [plain_append, plain_literal] at hnone
          exact hnone.symm
        rw [hplain, hnil, List.append_nil] at hc
        refine Bool.eq_false_iff.mp hblank ?_
        exact (List.mem_append.mp hc).elim (isBlank_of_mem_leading c) (isBlank_of_mem_trailing c)
      · have hone' : (bodies [.placeholder body]).length = 1 := rfl
        omega
  · rw [hfilled, filled_append, filled_literal]

/-- **The value of a template with text around its placeholders.** Let each text be one in which no
placeholder begins, and no placeholder end in a body. If all placeholders have values, then so has
the template: the text with these values put in, but for the blanks at the beginning and at the end
of the template. Nothing is lost if and only if there are none. Otherwise the template fails with
the first placeholder that fails. A brace at the end of a body is taken as text behind the
placeholder. -/
theorem interpolation_drops_margins (engine : Expr.Engine) {context : Json}
    (hc : context.isObj = true) {pieces : List Segment} (hproper : ∀ p ∈ pieces, p.IsProper)
    (hone : bodies pieces ≠ [])
    (hmore : (∃ c ∈ plain pieces, isBlank c = false) ∨ 2 ≤ (bodies pieces).length) :
    (∀ value : List Char → Json,
      (∀ body ∈ bodies (settled pieces),
        expressionValue engine body context = .ok (value body)) →
      ∃ text, evaluate engine (templateOf pieces) context = .ok (.str (String.ofList text)) ∧
        filled value (settled pieces) =
          leading (written pieces) ++ text ++ trailing (written pieces) ∧
        (text = filled value (settled pieces) ↔ trimmed (written pieces) = written pieces)) ∧
    ∀ before body after e, bodies (settled pieces) = before ++ body :: after →
      (∀ b ∈ before, ∃ v, expressionValue engine b context = .ok v) →
      expressionValue engine body context = .error e →
      evaluate engine (templateOf pieces) context = .error e := by
  have hone' : bodies (settled pieces) ≠ [] := by
    rw [ne_eq, ← List.length_eq_zero_iff, length_bodies_settled, List.length_eq_zero_iff]
    exact hone
  have hmore' : (∃ c ∈ plain (settled pieces), isBlank c = false) ∨
      2 ≤ (bodies (settled pieces)).length := by
    rw [length_bodies_settled]
    exact hmore.imp_left fun ⟨c, hc, hblank⟩ => ⟨c, mem_plain_settled hc, hblank⟩
  obtain ⟨segments, qs, hmixed, hreads, hbodies, hfilled⟩ :=
    exists_isMixed (isSettled_of_mem_settled hproper) hone' hmore'
  rw [templateOf, written_settled, ← templateOf] at hmixed
  rw [written_settled] at hfilled
  have hvalue : evaluate engine (templateOf pieces) context = _ := hmixed.evaluate_eq hc
  rw [hreads.texts_eq] at hvalue
  constructor
  · intro value h
    refine ⟨filled value qs, ?_, hfilled value, ?_⟩
    · rw [hvalue, segmentTexts_of_values (hbodies ▸ h)]
      rfl
    · rw [hfilled value, eq_append_append_iff, trimmed_eq_self_iff]
  · intro before body after e h hbefore he
    rw [hvalue, segmentTexts_of_error (hbodies.trans h) hbefore he]
    rfl

/-- A greeting of two lines. -/
def greeting : List Segment :=
  [.literal "\n  Dear ".toList, .placeholder " name ".toList, .literal ",\n".toList,
    .placeholder "name".toList, .literal "?\n".toList]

/-- A name has the value that the context has for it. -/
theorem expressionValue_name :
    expressionValue Expr.engine "name".toList (.obj [("name", .str "Jo")]) = .ok (.str "Jo") := by
  have hformula : Formula.ofChars "name".toList = .operand "name" :=
    Formula.ofChars_of_operand (p := "name".toList) (by cbv) (by decide) rfl rfl
  have hscan : Expr.Token.scan "name" = some [.name "name"] := rfl
  have hengine : Expr.engine "name" (.obj [("name", .str "Jo")]) = .ok (.str "Jo") :=
    Expr.engine_of_tokens (e := .name "name") hscan (by cbv) rfl
  rw [expressionValue, hformula, Formula.eval_operand, hengine]
  rfl

/-- The two lines are kept, but for the blanks before the first and after the last of them. -/
theorem interpolation_drops_margins_greeting :
    templateOf greeting = "\n  Dear \x7b\x7b name \x7d\x7d,\n\x7b\x7bname\x7d\x7d?\n" ∧
    evaluate Expr.engine (templateOf greeting) (.obj [("name", .str "Jo")]) =
      .ok (.str "Dear Jo,\nJo?") := by
  have hproper : ∀ p ∈ greeting, p.IsProper := by decide
  have hvalues : ∀ body ∈ bodies (settled greeting),
      expressionValue Expr.engine body (.obj [("name", .str "Jo")]) = .ok (.str "Jo") := by
    have hbodies : bodies (settled greeting) = [" name ".toList, "name".toList] := rfl
    have hblanks : trimmed " name ".toList = "name".toList := by decide +kernel
    rw [hbodies, List.forall_mem_cons, List.forall_mem_singleton,
      ← expressionValue_trimmed " name ".toList, hblanks]
    exact ⟨expressionValue_name, expressionValue_name⟩
  have hobj : (Json.obj [("name", .str "Jo")]).isObj = true := rfl
  obtain ⟨text, hevaluate, hfilled, -⟩ :=
    (interpolation_drops_margins Expr.engine hobj hproper (by decide) (.inr (by decide))).1
      (fun _ => .str "Jo") hvalues
  have hends : filled (fun _ => .str "Jo") (settled greeting) =
      leading (written greeting) ++ "Dear Jo,\nJo?".toList ++ trailing (written greeting) := by
    decide +kernel
  obtain rfl := List.append_cancel_left (List.append_cancel_right (hfilled.symm.trans hends))
  exact ⟨rfl, by rw [hevaluate, String.ofList_toList]⟩

/-- A greeting of one line. -/
def shortGreeting : List Segment :=
  [.literal "Dear ".toList, .placeholder "name".toList, .literal "\n".toList]

/-- **The line break at the end of a template is lost**, though its placeholder has a value. -/
theorem final_line_break_is_lost :
    (∀ p ∈ shortGreeting, p.IsProper) ∧
    expressionValue Expr.engine "name".toList (.obj [("name", .str "Jo")]) = .ok (.str "Jo") ∧
    filled (fun _ => .str "Jo") shortGreeting = "Dear Jo\n".toList ∧
    evaluate Expr.engine (templateOf shortGreeting) (.obj [("name", .str "Jo")]) =
      .ok (.str "Dear Jo") := by
  refine ⟨by decide, expressionValue_name, by decide +kernel, ?_⟩
  have hmixed : IsMixed (templateOf shortGreeting)
      [.literal "Dear ".toList, .placeholder "name".toList] :=
    { hasPlaceholder := by decide +kernel
      ofChars? := by cbv
      several := by simp }
  rw [hmixed.evaluate_eq rfl, segmentTexts_literal, segmentTexts, segmentText, expressionValue_name]
  rfl

end Template

end WorkflowEngine
