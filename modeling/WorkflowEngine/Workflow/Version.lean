import WorkflowEngine.Data.Word
import WorkflowEngine.Text.Blank

/-!
# Versions

A version is three numbers, perhaps with labels of a release to come after a dash and of a build
after a plus. One or two of the numbers may be left out, and a `v` may stand in front.

## Main definitions

* `isSemantic`: a text is a version in full
* `isVersion`: a text is a version
-/

namespace WorkflowEngine.Version

/-- A number that fits into 64 bits, without leading zeros, and what follows it. -/
def number? (cs : List Char) : Option (List Char) :=
  let digits := cs.takeWhile Char.isDigit
  let rest := cs.drop digits.length
  match digits with
  | '0' :: _ :: _ => none
  | _ => ((Data.Word.natInBase? 10 digits).filter (· < Bits.words 64)).map fun _ => rest

/-- What follows a point. -/
def point? : List Char → Option (List Char)
  | '.' :: cs => some cs
  | _ => none

/-- The characters of labels. -/
def isLabelChar (c : Char) : Bool := c.isAlphanum || c == '-'

/-- The pieces between points. -/
def pieces : List Char → List (List Char)
  | [] => [[]]
  | c :: cs =>
    if c == '.' then [] :: pieces cs
    else
      match pieces cs with
      | p :: ps => (c :: p) :: ps
      | [] => [[c]]

/-- Labels: none is empty, and where numbers count none of them has a leading zero. -/
def areLabels (numbersCount : Bool) (cs : List Char) : Bool :=
  (pieces cs).all fun p =>
    !p.isEmpty && p.all isLabelChar &&
      !(numbersCount && p.all Char.isDigit && p.head? == some '0' && 1 < p.length)

/-- The labels after the three numbers, if there are any. -/
def isTail (cs : List Char) : Bool :=
  let build := fun cs : List Char =>
    match cs with
    | [] => true
    | '+' :: rest => areLabels false rest
    | _ => false
  match cs with
  | '-' :: rest =>
    let labels := rest.takeWhile (· != '+')
    areLabels true labels && build (rest.drop labels.length)
  | cs => build cs

/-- A text is a version in full. -/
def isSemantic (cs : List Char) : Bool :=
  match (number? cs).bind point? |>.bind number? |>.bind point? |>.bind number? with
  | some rest => isTail rest
  | none => false

/-- A text is a version. -/
def isVersion (s : String) : Bool :=
  let cs := (Text.trimmed s.toList).dropWhile (· == 'v')
  isSemantic cs || isSemantic (cs ++ ".0".toList) || isSemantic (cs ++ ".0.0".toList)

end WorkflowEngine.Version
