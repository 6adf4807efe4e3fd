import WorkflowEngine.Data.Word

/-!
# Texts and keys of Toml

Texts stand in double quotes, with escapes, or in single quotes, without. Three quotes open a text
of several lines; a line break directly behind them does not count. Keys are bare words or texts of
one line, joined by points.

## Main definitions

* `newline?`, `skipBlanks`, `skipComment`, `lineEnd`: what stands between parts
* `text`: a text in quotes
* `keyPath`: the keys of an entry or header
-/

namespace WorkflowEngine.Toml

/-- What a reading step takes from the front of a text, and the rest. -/
abbrev Step (α : Type) := List Char → Option (α × List Char)

/-! ### Between parts -/

/-- The blanks within a line. -/
def isBlank (c : Char) : Bool := c == ' ' || c == '\t'

/-- The characters that comments and texts may hold. -/
def isText (c : Char) : Bool := c == '\t' || (' ' ≤ c && c ≤ '~') || '\x7f' < c

/-- The text from the first character that is no blank. -/
def skipBlanks (cs : List Char) : List Char := cs.dropWhile isBlank

/-- The text after a line break. -/
def newline? : List Char → Option (List Char)
  | '\n' :: cs => some cs
  | '\r' :: '\n' :: cs => some cs
  | _ => none

/-- The text after a comment, if there is one. -/
def skipComment : List Char → List Char
  | '#' :: cs => cs.dropWhile isText
  | cs => cs

/-- The text after the rest of a line that holds nothing more. -/
def lineEnd (cs : List Char) : Option (List Char) :=
  match skipComment (skipBlanks cs) with
  | [] => some []
  | cs => newline? cs

/-! ### Texts -/

/-- The character with a number of hexadecimal digits. -/
def hexEscape (length : Nat) : Step Char := fun cs => do
  let digits := cs.take length
  if digits.length < length then none
  else
    let n ← Data.Word.natInBase? 16 digits
    if n.isValidChar then some (Char.ofNat n, cs.drop length) else none

/-- The character of an escape, after the backslash. -/
def escaped : Step Char
  | 'b' :: cs => some ('\x08', cs)
  | 't' :: cs => some ('\t', cs)
  | 'n' :: cs => some ('\n', cs)
  | 'f' :: cs => some ('\x0c', cs)
  | 'r' :: cs => some ('\r', cs)
  | '"' :: cs => some ('"', cs)
  | '\\' :: cs => some ('\\', cs)
  | 'u' :: cs => hexEscape 4 cs
  | 'U' :: cs => hexEscape 8 cs
  | _ => none

/-- A kind of text: its quote, and whether it has escapes. -/
structure Quote where
  mark : Char
  escapes : Bool

/-- The characters of a text of one line up to its closing quote, after those `seen` in reverse. -/
def lineText (q : Quote) : Nat → List Char → Step String
  | 0, _, _ => none
  | fuel + 1, seen, cs =>
    match cs with
    | [] => none
    | c :: rest =>
      if c == q.mark then some (String.ofList seen.reverse, rest)
      else if c == '\\' && q.escapes then do
        let (c, rest) ← escaped rest
        lineText q fuel (c :: seen) rest
      else if isText c then lineText q fuel (c :: seen) rest
      else none

/-- The text after a backslash at the end of a line: all blanks and line breaks are skipped. -/
def continuation? (cs : List Char) : Option (List Char) :=
  (newline? (skipBlanks cs)).map fun rest => skipLines rest.length rest
where
  /-- The text from the first character that is no blank and no line break. -/
  skipLines : Nat → List Char → List Char
    | 0, cs => cs
    | fuel + 1, cs =>
      match newline? (skipBlanks cs) with
      | some rest => skipLines fuel rest
      | none => skipBlanks cs

/-- The characters of a text of several lines up to its closing quotes. Up to two quotes may stand
in it, also directly before the closing ones. -/
def blockText (q : Quote) : Nat → List Char → Step String
  | 0, _, _ => none
  | fuel + 1, seen, cs =>
    match newline? cs with
    | some rest => blockText q fuel ('\n' :: seen) rest
    | none =>
      match cs with
      | [] => none
      | c :: rest =>
        if c == q.mark then
          let marks := cs.takeWhile (· == q.mark)
          let rest := cs.dropWhile (· == q.mark)
          if marks.length < 3 then blockText q fuel (marks ++ seen) rest
          else if marks.length ≤ 5 then
            some (String.ofList ((marks.drop 3 ++ seen).reverse), rest)
          else none
        else if c == '\\' && q.escapes then
          match continuation? rest with
          | some rest => blockText q fuel seen rest
          | none => do
            let (c, rest) ← escaped rest
            blockText q fuel (c :: seen) rest
        else if isText c then blockText q fuel (c :: seen) rest
        else none

/-- The kind of text that a quote opens. -/
def Quote.ofChar? (c : Char) : Option Quote :=
  if c == '"' then some ⟨'"', true⟩ else if c == '\'' then some ⟨'\'', false⟩ else none

/-- A text of one line in quotes. -/
def quoted : Step String
  | [] => none
  | c :: cs => do lineText (← Quote.ofChar? c) (cs.length + 1) [] cs

/-- A text in quotes. -/
def text : Step String
  | a :: b :: c :: cs =>
    if a == b && b == c then do
      let q ← Quote.ofChar? a
      blockText q (cs.length + 1) [] ((newline? cs).getD cs)
    else quoted (a :: b :: c :: cs)
  | cs => quoted cs

/-! ### Keys -/

/-- The characters of bare keys. -/
def isBare (c : Char) : Bool := c.isAlphanum || c == '-' || c == '_'

/-- One key. -/
def key : Step String := fun cs =>
  let bare := cs.takeWhile isBare
  if bare.isEmpty then quoted cs else some (String.ofList bare, cs.dropWhile isBare)

/-- Keys joined by points, at most as many as `fuel`. -/
def keysFrom : Nat → Step (List String)
  | 0, _ => none
  | fuel + 1, cs => do
    let (k, rest) ← key (skipBlanks cs)
    match skipBlanks rest with
    | '.' :: rest =>
      let (ks, rest) ← keysFrom fuel rest
      return (k :: ks, rest)
    | rest => return ([k], rest)

/-- The keys that may be joined, and the lists that may lie within each other. -/
def maxDepth : Nat := 79

/-- The keys of an entry or header. -/
def keyPath : Step (List String) := keysFrom maxDepth

end WorkflowEngine.Toml
