import WorkflowEngine.Text.Blank
import WorkflowEngine.Text.Search

/-!
# Placeholders in text

A template is text with placeholders `\x7b\x7b body \x7d\x7d`. A placeholder ends at the first two
closing braces after its start, whatever its body is.

## Main definitions

* `Segment`: a piece of text, or the body of a placeholder without blanks around it
* `Segment.ofChars?`: the segments of a template; none if a placeholder has no end
* `hasPlaceholder`: the text has the start of a placeholder
-/

namespace WorkflowEngine.Template

open Text

/-- A piece of a template. -/
inductive Segment where
  | literal (text : List Char)
  | placeholder (body : List Char)
deriving Repr, DecidableEq

/-- What starts a placeholder. -/
def opening : List Char := ['{', '{']

/-- What ends a placeholder. -/
def closing : List Char := ['}', '}']

/-- The text has the start of a placeholder. -/
def hasPlaceholder (cs : List Char) : Bool := holds opening cs

/-- A literal segment, unless it is empty. -/
def literalSegment (cs : List Char) : List Segment := if cs.isEmpty then [] else [.literal cs]

/-- The segments of a template, in order; none if a placeholder has no end. -/
def Segment.ofChars? (cs : List Char) : Option (List Segment) :=
  match _h₁ : breakAt opening cs with
  | none => some (literalSegment cs)
  | some (before, after) =>
    match _h₂ : breakAt closing after with
    | none => none
    | some (body, rest) =>
      (Segment.ofChars? rest).map fun segments =>
        literalSegment before ++ .placeholder (trimmed body) :: segments
termination_by cs.length
decreasing_by
  have h₁ := length_breakAt ‹breakAt opening cs = _›
  have h₂ := length_breakAt ‹breakAt closing after = _›
  simp only [opening, closing, List.length_cons, List.length_nil] at h₁ h₂
  omega

end WorkflowEngine.Template
