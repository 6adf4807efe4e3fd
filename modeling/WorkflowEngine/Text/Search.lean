/-!
# Searching in text

Substring search, replacement and splitting on lists of characters. A match is always the leftmost
one, and matches never overlap.

## Main definitions

* `dropLeading pat cs`: the rest after a leading `pat`
* `breakAt pat cs`: what stands before and after the leftmost `pat`
* `holds pat cs`: `pat` occurs in the text
* `replaceAll pat new cs`: every occurrence of `pat` replaced
* `splitAll pat cs`: the pieces between the occurrences of `pat`
-/

namespace WorkflowEngine.Text

/-- The rest of the text after a leading `pat`, if the text starts with it. -/
def dropLeading : List Char → List Char → Option (List Char)
  | [], cs => some cs
  | _ :: _, [] => none
  | p :: ps, c :: cs => if p = c then dropLeading ps cs else none

/-- What stands before and after the leftmost occurrence of `pat`. -/
def breakAt (pat : List Char) : List Char → Option (List Char × List Char)
  | [] => (dropLeading pat []).map fun rest => ([], rest)
  | c :: cs =>
    match dropLeading pat (c :: cs) with
    | some rest => some ([], rest)
    | none => (breakAt pat cs).map fun (before, rest) => (c :: before, rest)

/-- The pattern occurs in the text. -/
def holds (pat cs : List Char) : Bool := (breakAt pat cs).isSome

theorem length_dropLeading {pat cs rest : List Char} (h : dropLeading pat cs = some rest) :
    rest.length + pat.length = cs.length := by
  induction pat generalizing cs with
  | nil => simp_all [dropLeading]
  | cons p ps ih =>
    cases cs with
    | nil => simp [dropLeading] at h
    | cons c cs =>
      simp only [dropLeading] at h
      split at h
      · simp [← ih h]
        omega
      · simp at h

/-- Nothing is lost or added around the occurrence that is found. -/
theorem length_breakAt {pat cs before rest : List Char} (h : breakAt pat cs = some (before, rest)) :
    before.length + pat.length + rest.length = cs.length := by
  induction cs generalizing before rest with
  | nil =>
    simp only [breakAt, Option.map_eq_some_iff] at h
    obtain ⟨r, hr, h⟩ := h
    have := length_dropLeading hr
    simp_all
  | cons c cs ih =>
    simp only [breakAt] at h
    split at h
    · next r hr =>
      have := length_dropLeading hr
      simp_all
      omega
    · simp only [Option.map_eq_some_iff] at h
      obtain ⟨⟨b, r⟩, hb, h⟩ := h
      have := ih hb
      cases h
      simp only [List.length_cons]
      omega

/-- Every occurrence of `pat` replaced by `new`; an empty pattern occurs nowhere. -/
def replaceAll (pat new cs : List Char) : List Char :=
  if pat.isEmpty then cs
  else
    match _h : breakAt pat cs with
    | none => cs
    | some (before, rest) => before ++ new ++ replaceAll pat new rest
termination_by cs.length
decreasing_by
  have := length_breakAt ‹breakAt pat cs = _›
  cases pat with
  | nil => simp_all
  | cons => simp only [List.length_cons] at this; omega

/-- The pieces between the occurrences of a non-empty `pat`, in order; one more than there are
occurrences. -/
def splitAll (pat cs : List Char) : List (List Char) :=
  if pat.isEmpty then [cs]
  else
    match _h : breakAt pat cs with
    | none => [cs]
    | some (before, rest) => before :: splitAll pat rest
termination_by cs.length
decreasing_by
  have := length_breakAt ‹breakAt pat cs = _›
  cases pat with
  | nil => simp_all
  | cons => simp only [List.length_cons] at this; omega

/-- A replacement by something no longer never lengthens the text. -/
theorem length_replaceAll_le {pat new : List Char} (h : new.length ≤ pat.length)
    (cs : List Char) : (replaceAll pat new cs).length ≤ cs.length := by
  fun_induction replaceAll pat new cs with
  | case1 => simp
  | case2 => simp
  | case3 cs _ before rest hb ih =>
    have := length_breakAt hb
    simp only [List.length_append]
    omega

/-- The text with every occurrence of one text replaced by another. -/
def replace (s pat new : String) : String :=
  String.ofList (replaceAll pat.toList new.toList s.toList)

/-- The text holds another text. -/
def contains (s pat : String) : Bool := holds pat.toList s.toList

/-- The text starts with another text. -/
def startsWith (s pat : String) : Bool := (dropLeading pat.toList s.toList).isSome

/-- The text ends with another text. -/
def endsWith (s pat : String) : Bool :=
  (dropLeading pat.toList.reverse s.toList.reverse).isSome

/-- The pieces of a text between the occurrences of a separator. The empty separator stands between
any two characters and at both ends. -/
def split (s sep : String) : List String :=
  if sep.isEmpty then [""] ++ s.toList.map String.singleton ++ [""]
  else (splitAll sep.toList s.toList).map String.ofList

end WorkflowEngine.Text
