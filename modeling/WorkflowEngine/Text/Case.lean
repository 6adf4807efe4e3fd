import WorkflowEngine.Text.Case.Table

/-!
# Letter case

Case mapping of whole texts. A character may become several, and the Greek sigma at the end of a
word has a small form of its own.

## Main definitions

* `upper s`, `lower s`: the text in capitals, in small letters
* `asciiLower s`: only the letters of ASCII in small letters
-/

namespace WorkflowEngine.Text

/-- A number lies in one of the ranges. -/
def inRanges (ranges : List (Nat × Nat)) (n : Nat) : Bool :=
  ranges.any fun (first, last) => first ≤ n && n ≤ last

/-- What a character becomes by a table of runs. -/
def mapByRuns (runs : List CaseRun) (n : Nat) : Nat :=
  match runs.find? fun r => r.first ≤ n && n ≤ r.last && (n - r.first) % r.step == 0 with
  | some r => ((n : Int) + r.shift).toNat
  | none => n

/-- The capital of a character. -/
def upperOf (c : Char) : List Char :=
  if c.toNat < 128 then [c.toUpper]
  else
    match upperSpecials.lookup c.toNat with
    | some cs => cs.map Char.ofNat
    | none => [Char.ofNat (mapByRuns upperRuns c.toNat)]

/-- The small letter of a character, whatever stands around it. -/
def lowerOf (c : Char) : List Char :=
  if c.toNat < 128 then [c.toLower]
  else
    match lowerSpecials.lookup c.toNat with
    | some cs => cs.map Char.ofNat
    | none => [Char.ofNat (mapByRuns lowerRuns c.toNat)]

/-- The first character that counts is a letter with case. -/
def meetsCased (cs : List Char) : Bool :=
  match cs.dropWhile fun c => inRanges ignorableRanges c.toNat with
  | c :: _ => inRanges casedRanges c.toNat
  | [] => false

/-- The small letters of a text that follows the characters `seen`, given in reverse. -/
def lowerAfter (seen : List Char) : List Char → List Char
  | [] => []
  | c :: cs =>
    let small :=
      if c = 'Σ' then if meetsCased seen && !meetsCased cs then ['ς'] else ['σ'] else lowerOf c
    small ++ lowerAfter (c :: seen) cs

/-- The text in capitals. -/
def upper (s : String) : String := String.ofList (s.toList.flatMap upperOf)

/-- The text in small letters. -/
def lower (s : String) : String := String.ofList (lowerAfter [] s.toList)

/-- The text with the capitals of ASCII as small letters. -/
def asciiLower (s : String) : String := String.ofList (s.toList.map Char.toLower)

end WorkflowEngine.Text
