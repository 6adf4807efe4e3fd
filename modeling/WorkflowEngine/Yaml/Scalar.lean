import WorkflowEngine.Data.Datum
import WorkflowEngine.Yaml.Cursor

/-!
# Scalars of Yaml texts

A scalar is a plain word, a quoted text or a block of lines. Within plain and quoted scalars a
single line break counts as one blank, and several count as one less.

## Main definitions

* `Folding`: a text that is read line by line
* `plain`, `singleQuoted`, `doubleQuoted`, `block`: the kinds of scalars, read from where they begin
-/

namespace WorkflowEngine.Yaml

open Data

/-- A text that is read line by line, in reverse, and the blanks and line breaks at its end, which
count only if more text follows. -/
structure Folding where
  text : List Char := []
  blanks : List Char := []
  firstBreak : List Char := []
  moreBreaks : List Char := []
  afterBreak : Bool := false

namespace Folding

/-- A blank. After a line break blanks do not count. -/
def blank (f : Folding) (c : Char) : Folding :=
  if f.afterBreak then f else { f with blanks := c :: f.blanks }

/-- A line break. Blanks before it do not count. -/
def lineBreak (f : Folding) (text : List Char) : Folding :=
  if f.afterBreak then { f with moreBreaks := text.reverse ++ f.moreBreaks }
  else { f with blanks := [], firstBreak := text, afterBreak := true }

/-- The pending blanks and line breaks become text. -/
def settle (f : Folding) : Folding :=
  let pending :=
    if f.afterBreak then
      if f.firstBreak = ['\n'] then if f.moreBreaks.isEmpty then [' '] else f.moreBreaks
      else f.moreBreaks ++ f.firstBreak.reverse
    else f.blanks
  { text := pending ++ f.text }

/-- A character of the text. -/
def push (f : Folding) (c : Char) : Folding := { f with text := c :: f.text }

/-- The text without the blanks and line breaks at its end. -/
def result (f : Folding) : String := String.ofList f.text.reverse

end Folding

/-- Over blanks and line breaks. -/
def foldBlanks : Nat → Folding → Cursor → Folding × Cursor
  | 0, f, c => (f, c)
  | fuel + 1, f, c =>
    match c.lineBreak? with
    | some (text, c) => foldBlanks fuel (f.lineBreak text) c
    | none =>
      match c.rest with
      | x :: _ => if isBlank x then foldBlanks fuel (f.blank x) c.skip else (f, c)
      | [] => (f, c)

/-- The characters that are one mark each inside brackets and braces. -/
def isFlowMark (c : Char) : Bool := c == ',' || c == '[' || c == ']' || c == '{' || c == '}'

/-- The characters of a plain word up to the next blank or line break. -/
def plainChunk (inFlow : Bool) : Nat → Folding → Cursor → Option (Folding × Cursor)
  | 0, f, c => some (f, c)
  | fuel + 1, f, c =>
    match c.rest with
    | [] => some (f, c)
    | x :: _ =>
      if c.endsWordAt 0 then some (f, c)
      else if inFlow && x == ':' && (c.at? 1).any (fun y => isFlowMark y || y == '?') then none
      else if (x == ':' && c.endsWordAt 1) || (inFlow && isFlowMark x) then some (f, c)
      else plainChunk inFlow fuel (f.settle.push x) c.skip

/-- Tabs do not indent: none stands before column `indent` in the blanks of a continued line. -/
def tabIndents (indent : Nat) : Nat → Bool → Cursor → Bool
  | 0, _, _ => false
  | fuel + 1, afterBreak, c =>
    match c.lineBreak? with
    | some (_, c) => tabIndents indent fuel true c
    | none =>
      match c.rest with
      | x :: _ =>
        if isBlank x then
          (afterBreak && x == '\t' && c.column < indent) || tabIndents indent fuel afterBreak c.skip
        else false
      | [] => false

/-- A plain scalar; it ends before a comment, a mark, a document mark or a line that is indented
less than `indent`. -/
def plainFrom (inFlow : Bool) (indent : Nat) : Nat → Folding → Cursor → Option (Folding × Cursor)
  | 0, f, c => some (f, c)
  | fuel + 1, f, c =>
    if c.atDocumentMark || c.has '#' 0 then some (f, c)
    else do
      let (f, c) ← plainChunk inFlow (c.rest.length + 1) f c
      match c.rest with
      | [] => return (f, c)
      | x :: _ =>
        if !(isBlank x || isBreak x) then return (f, c)
        else if tabIndents indent (c.rest.length + 1) f.afterBreak c then none
        else
          let (f, c) := foldBlanks (c.rest.length + 1) f c
          if !inFlow && c.column < indent then return (f, c) else plainFrom inFlow indent fuel f c

/-- A plain scalar, and whether it ended after a line break. -/
def plain (inFlow : Bool) (indent : Nat) (c : Cursor) : Option (String × Bool × Cursor) := do
  let (f, c) ← plainFrom inFlow indent (c.rest.length + 1) {} c
  return (f.result, f.afterBreak, c)

/-- The value of a list of hexadecimal digits. -/
def hexValue (cs : List Char) : Option Nat := Word.natInBase? 16 cs

/-- The character of an escape with a number of hexadecimal digits. -/
def escapedCode (digits : Nat) (c : Cursor) : Option (Char × Cursor) := do
  if c.rest.length < digits then none
  else
    let n ← hexValue (c.rest.take digits)
    if (0xd800 ≤ n && n ≤ 0xdfff) || 0x10ffff < n then none
    else return (Char.ofNat n, c.skipMany digits)

/-- The character that an escape stands for, after the backslash. -/
def escaped (c : Cursor) : Option (Char × Cursor) :=
  match c.rest with
  | [] => none
  | x :: _ =>
    let next := c.skip
    match x with
    | '0' => some ('\x00', next)
    | 'a' => some ('\x07', next)
    | 'b' => some ('\x08', next)
    | 't' | '\t' => some ('\t', next)
    | 'n' => some ('\n', next)
    | 'v' => some ('\x0b', next)
    | 'f' => some ('\x0c', next)
    | 'r' => some ('\r', next)
    | 'e' => some ('\x1b', next)
    | ' ' => some (' ', next)
    | '"' => some ('"', next)
    | '/' => some ('/', next)
    | '\\' => some ('\\', next)
    | 'N' => some ('\u0085', next)
    | '_' => some ('\u00a0', next)
    | 'L' => some ('\u2028', next)
    | 'P' => some ('\u2029', next)
    | 'x' => escapedCode 2 next
    | 'u' => escapedCode 4 next
    | 'U' => escapedCode 8 next
    | _ => none

/-- A quoted scalar after its opening quote. -/
def quotedFrom (quote : Char) : Nat → Folding → Cursor → Option (Folding × Cursor)
  | 0, _, _ => none
  | fuel + 1, f, c =>
    if c.atDocumentMark then none
    else
      match c.rest with
      | [] => none
      | x :: _ =>
        if isBlank x || isBreak x then
          let (f, c) := foldBlanks (c.rest.length + 1) f c
          quotedFrom quote fuel f.settle c
        else if quote == '\'' && x == '\'' && c.has '\'' 1 then
          quotedFrom quote fuel (f.push '\'') (c.skipMany 2)
        else if x == quote then some (f, c.skip)
        else if quote == '"' && x == '\\' then
          match c.skip.lineBreak? with
          | some (_, c) =>
            -- an escaped line break leaves only the further breaks
            let (f, c) := foldBlanks (c.rest.length + 1) { f with afterBreak := true } c
            quotedFrom quote fuel f.settle c
          | none => do
            let (y, c) ← escaped c.skip
            quotedFrom quote fuel (f.push y) c
        else quotedFrom quote fuel (f.push x) c.skip

/-- A quoted scalar from its opening quote. -/
def quoted (quote : Char) (c : Cursor) : Option (String × Cursor) := do
  let (f, c) ← quotedFrom quote (c.rest.length + 1) {} c.skip
  return (f.result, c)

/-- What happens to the line breaks at the end of a block. -/
inductive Chomping where
  | strip
  | clip
  | keep
deriving DecidableEq

/-- The header of a block: chomping and the indentation in either order, each optional. -/
def blockHeader (c : Cursor) : Option (Chomping × Option Nat × Cursor) :=
  let chomp := fun c : Cursor =>
    match c.rest with
    | '+' :: _ => (Chomping.keep, c.skip)
    | '-' :: _ => (Chomping.strip, c.skip)
    | _ => (Chomping.clip, c)
  let digit := fun c : Cursor =>
    match c.rest with
    | d :: _ =>
      if d == '0' then none
      else if d.isDigit then some (some (d.toNat - '0'.toNat), c.skip)
      else some (none, c)
    | [] => some (none, c)
  match c.rest with
  | [] => some (.clip, none, c)
  | x :: _ =>
    if x == '+' || x == '-' then
      let (chomping, c) := chomp c
      (digit c).map fun (indent, c) => (chomping, indent, c)
    else
      (digit c).map fun (indent, c) =>
        if indent.isSome then
          let (chomping, c) := chomp c
          (chomping, indent, c)
        else (.clip, none, c)

/-- The empty lines before a line of a block: the line breaks, in reverse, the greatest indentation
seen, and where the line begins. An indentation is a number of blanks at most; `none` takes all of
them. -/
def blockBreaks (indent : Option Nat) :
    Nat → List Char → Nat → Cursor → Option (List Char × Nat × Cursor)
  | 0, breaks, deepest, c => some (breaks, deepest, c)
  | fuel + 1, breaks, deepest, c =>
    let blanks := (c.rest.takeWhile (· == ' ')).length
    let blanks := match indent with
      | some n => min blanks (n - c.column)
      | none => blanks
    let c := c.skipMany blanks
    let deepest := max deepest c.column
    let mayIndent := match indent with
      | some n => c.column < n
      | none => true
    if mayIndent && c.has '\t' 0 then none
    else
      match c.lineBreak? with
      | some (text, c) => blockBreaks indent fuel (text.reverse ++ breaks) deepest c
      | none => some (breaks, deepest, c)

/-- A block that is read line by line: the text in reverse, the break after the last line, the
breaks after that in reverse, and whether the last line began with a blank. -/
structure BlockText where
  text : List Char
  lastBreak : List Char
  moreBreaks : List Char
  indentedLast : Bool

/-- The lines of a block with a known indentation. -/
def blockLines (folded : Bool) (indent : Nat) :
    Nat → BlockText → Cursor → Option (BlockText × Cursor)
  | 0, b, c => some (b, c)
  | fuel + 1, b, c =>
    if c.column != indent || c.atEnd then some (b, c)
    else do
      let indented := match c.rest with
        | x :: _ => isBlank x
        | [] => false
      let joint :=
        if folded && b.lastBreak = ['\n'] && !b.indentedLast && !indented then
          if b.moreBreaks.isEmpty then [' '] else []
        else b.lastBreak.reverse
      let text := b.moreBreaks ++ joint ++ b.text
      let (line, c) := c.spanWhile fun x => !isBreak x
      let (lastBreak, c) := match c.lineBreak? with
        | some (text, c) => (text, c)
        | none => ([], c)
      let (moreBreaks, _, c) ← blockBreaks (some indent) (c.rest.length + 1) [] 0 c
      blockLines folded indent fuel
        { text := line.reverse ++ text, lastBreak, moreBreaks, indentedLast := indented } c

/-- A block scalar from its indicator, inside a node that is indented by `outer`, or by none. -/
def block (outer : Option Nat) (c : Cursor) : Option (String × Cursor) := do
  let folded := c.has '>' 0
  let (chomping, increment, c) ← blockHeader c.skip
  let c := c.skipToLineEnd
  if !c.endsLine then none
  else
    let c := c.skipBreak
    let (moreBreaks, indent, c) ← match increment with
      | some n => do
        let indent := match outer with
          | some o => o + n
          | none => n
        let (breaks, _, c) ← blockBreaks (some indent) (c.rest.length + 1) [] 0 c
        pure (breaks, indent, c)
      | none => do
        let (breaks, deepest, c) ← blockBreaks none (c.rest.length + 1) [] 0 c
        let least := match outer with
          | some o => o + 1
          | none => 1
        pure (breaks, max deepest (max least 1), c)
    let (b, c) ← blockLines folded indent (c.rest.length + 1)
      { text := [], lastBreak := [], moreBreaks, indentedLast := false } c
    let text := match chomping with
      | .strip => b.text
      | .clip => b.lastBreak.reverse ++ b.text
      | .keep => b.moreBreaks ++ b.lastBreak.reverse ++ b.text
    return (String.ofList text.reverse, c)

end WorkflowEngine.Yaml
