/-!
# A place in a Yaml text

The text that is still to be read, with the line and the column where it begins.

## Main definitions

* `Cursor`: a place in a text
* `Cursor.skip`, `Cursor.lineBreak?`: over one character, over one line break
* `isBreak`, `isBlank`, `isWordChar`: the classes of characters that matter
-/

namespace WorkflowEngine.Yaml

/-- A place in a text. -/
structure Cursor where
  rest : List Char
  index : Nat
  line : Nat
  column : Nat

/-- The characters that end a line. -/
def isBreak (c : Char) : Bool :=
  c == '\n' || c == '\r' || c == '\u0085' || c == '\u2028' || c == '\u2029'

/-- The blanks within a line. -/
def isBlank (c : Char) : Bool := c == ' ' || c == '\t'

/-- The characters of anchors and of the names of directives and tags. -/
def isWordChar (c : Char) : Bool := c.isAlphanum || c == '_' || c == '-'

/-- The characters that a text may hold. -/
def isAllowed (c : Char) : Bool :=
  let n := c.toNat
  n == 9 || n == 10 || n == 13 || (0x20 ≤ n && n ≤ 0x7e) || n == 0x85 ||
    (0xa0 ≤ n && n ≤ 0xd7ff) || (0xe000 ≤ n && n ≤ 0xfffd) || 0x10000 ≤ n

namespace Cursor

/-- The beginning of a text. -/
def ofChars (cs : List Char) : Cursor := ⟨cs, 0, 0, 0⟩

/-- Nothing is left. -/
def atEnd (c : Cursor) : Bool := c.rest.isEmpty

/-- Over one character that ends no line. -/
def skip (c : Cursor) : Cursor := ⟨c.rest.tail, c.index + 1, c.line, c.column + 1⟩

/-- Over several characters that end no line. -/
def skipMany (c : Cursor) (n : Nat) : Cursor := ⟨c.rest.drop n, c.index + n, c.line, c.column + n⟩

/-- The character at a distance. -/
def at? (c : Cursor) (n : Nat) : Option Char := c.rest[n]?

/-- The character at a distance is `x`. -/
def has (c : Cursor) (x : Char) (n : Nat) : Bool := c.rest[n]? == some x

/-- The text ends, or a line or a blank, at a distance. -/
def endsWordAt (c : Cursor) (n : Nat) : Bool :=
  match c.rest[n]? with
  | none => true
  | some x => isBreak x || isBlank x

/-- The text or a line ends here. -/
def endsLine (c : Cursor) : Bool :=
  match c.rest with
  | [] => true
  | x :: _ => isBreak x

/-- The line break that stands here, as it counts in texts, and what follows it. -/
def lineBreak? (c : Cursor) : Option (List Char × Cursor) :=
  match c.rest with
  | '\r' :: '\n' :: rest => some (['\n'], ⟨rest, c.index + 2, c.line + 1, 0⟩)
  | x :: rest =>
    if isBreak x then
      let text := if x == '\u2028' || x == '\u2029' then [x] else ['\n']
      some (text, ⟨rest, c.index + 1, c.line + 1, 0⟩)
    else none
  | [] => none

/-- Over a line break, if one stands here. -/
def skipBreak (c : Cursor) : Cursor :=
  match c.lineBreak? with
  | some (_, c) => c
  | none => c

/-- Over the characters of a class that ends no line. -/
def spanWhile (c : Cursor) (p : Char → Bool) : List Char × Cursor :=
  let taken := c.rest.takeWhile p
  (taken, c.skipMany taken.length)

/-- Over blanks, and a comment if one follows, up to the end of the line. -/
def skipToLineEnd (c : Cursor) : Cursor :=
  let (_, c) := c.spanWhile isBlank
  if c.has '#' 0 then (c.spanWhile fun x => !isBreak x).2 else c

/-- A mark between documents stands here. -/
def atDocumentMark (c : Cursor) : Bool :=
  c.column == 0 && c.endsWordAt 3 &&
    (c.rest.take 3 == ['-', '-', '-'] || c.rest.take 3 == ['.', '.', '.'])

end Cursor

end WorkflowEngine.Yaml
