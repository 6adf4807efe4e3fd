import WorkflowEngine.Yaml.Scalar
import WorkflowEngine.Yaml.Token

/-!
# From texts to tokens

Indentation opens and closes blocks. Whether a node is a key shows only when the colon after it is
met; until then its place is remembered as a candidate, and the marks of keys are put before their
tokens at the end.

## Main definitions

* `Candidate`: the place of a node that may turn out to be a key
* `Lexer`: how far a text has been read
* `Lexer.step`: over one token
* `Token.ofText?`: the tokens of a text
-/

namespace WorkflowEngine.Yaml

open Data

/-- The place of a node that may turn out to be a key: the number of tokens before it. Where a line
of a block has to begin with a key, the candidate is required. -/
structure Candidate where
  place : Nat
  start : Cursor
  required : Bool

/-- A key: the number of tokens before it, and whether it opens a mapping. -/
structure KeyMark where
  place : Nat
  opens : Bool

/-- How far a text has been read. Tokens and keys are in reverse. There is one candidate for the
block and one for each open bracket. -/
structure Lexer where
  cursor : Cursor
  tokens : List Token := []
  count : Nat := 0
  keys : List KeyMark := []
  indent : Option Nat := none
  outerIndents : List (Option Nat) := []
  candidate : Option Candidate := none
  outerCandidates : List (Option Candidate) := []
  mayBeKey : Bool := true

namespace Lexer

/-- The text stands inside brackets or braces. -/
def inFlow (l : Lexer) : Bool := !l.outerCandidates.isEmpty

/-- One more token. -/
def push (l : Lexer) (t : Token) : Lexer := { l with tokens := t :: l.tokens, count := l.count + 1 }

/-- One more token, of one character. -/
def pushMark (l : Lexer) (t : Token) : Lexer := { l.push t with cursor := l.cursor.skip }

/-- Over blanks, comments and line breaks. A mark of the byte order may begin a line and takes a
column. A tab does not stand where a key may begin. -/
def skipFiller : Nat → Lexer → Lexer
  | 0, l => l
  | fuel + 1, l =>
    let tabs := l.inFlow || !l.mayBeKey
    let c := if l.cursor.column == 0 && l.cursor.has '\ufeff' 0 then l.cursor.skip else l.cursor
    let (_, c) := c.spanWhile fun x => x == ' ' || (tabs && x == '\t')
    let c := if c.has '#' 0 then (c.spanWhile fun x => !isBreak x).2 else c
    match c.lineBreak? with
    | some (_, c) =>
      skipFiller fuel { l with cursor := c, mayBeKey := l.mayBeKey || !l.inFlow }
    | none => { l with cursor := c }

/-- A candidate is out of date on another line or after 1024 characters. -/
def isStale (l : Lexer) (c : Candidate) : Bool :=
  c.start.line < l.cursor.line || c.start.index + 1024 < l.cursor.index

/-- Drops a candidate that is out of date; a required one must not be. -/
def dropIfStale (l : Lexer) : Option Candidate → Option (Option Candidate)
  | none => some none
  | some c => if l.isStale c then if c.required then none else some none else some (some c)

/-- Drops all candidates that are out of date. -/
def dropStale (l : Lexer) : Option Lexer := do
  let candidate ← l.dropIfStale l.candidate
  let outerCandidates ← l.outerCandidates.mapM l.dropIfStale
  return { l with candidate, outerCandidates }

/-- Closes the blocks that are indented more than `column`, or all of them. -/
def closeBlocks (l : Lexer) (column : Option Nat) : Lexer :=
  if l.inFlow then l
  else
    let stays := fun indent : Option Nat =>
      match indent, column with
      | none, _ => true
      | some _, none => false
      | some i, some c => i ≤ c
    let indents := l.indent :: l.outerIndents
    let closed := (indents.takeWhile fun i => !stays i).length
    let kept := indents.drop closed
    { l with
      tokens := List.replicate closed .blockEnd ++ l.tokens
      count := l.count + closed
      indent := kept.head?.getD none
      outerIndents := kept.tail }

/-- The column is deeper than the block that is open. -/
def isDeeper (l : Lexer) (column : Nat) : Bool :=
  !l.inFlow && match l.indent with
    | none => true
    | some i => i < column

/-- Opens a block at a column, if that is deeper than the block that is open. -/
def openBlock (l : Lexer) (column : Nat) (t : Token) : Lexer :=
  if l.isDeeper column then
    { l.push t with indent := some column, outerIndents := l.indent :: l.outerIndents }
  else l

/-- Gives up the candidate; a required one must become a key. -/
def dropCandidate (l : Lexer) : Option Lexer :=
  match l.candidate with
  | some c => if c.required then none else some { l with candidate := none }
  | none => some l

/-- The next token may turn out to be a key, where keys may stand. -/
def saveCandidate (l : Lexer) : Option Lexer := do
  if l.mayBeKey then
    let required := !l.inFlow && l.indent == some l.cursor.column
    let l ← l.dropCandidate
    return { l with candidate := some ⟨l.count, l.cursor, required⟩ }
  else return l

/-- An opening bracket or brace. -/
def openFlow (l : Lexer) (t : Token) : Option Lexer := do
  let l ← l.saveCandidate
  return { l.pushMark t with
    candidate := none, outerCandidates := l.candidate :: l.outerCandidates, mayBeKey := true }

/-- A closing bracket or brace. -/
def closeFlow (l : Lexer) (t : Token) : Option Lexer := do
  let l ← l.dropCandidate
  let l := match l.outerCandidates with
    | c :: cs => { l with candidate := c, outerCandidates := cs }
    | [] => l
  return { l.pushMark t with mayBeKey := false }

/-- A comma between elements or entries. -/
def flowEntry (l : Lexer) : Option Lexer := do
  let l ← l.dropCandidate
  return { l.pushMark .flowEntry with mayBeKey := true }

/-- The dash before an element. -/
def blockEntry (l : Lexer) : Option Lexer := do
  if !l.inFlow && !l.mayBeKey then none
  else
    let l ← (l.openBlock l.cursor.column .blockSequenceStart).dropCandidate
    return { l.pushMark .blockEntry with mayBeKey := true }

/-- The question mark before a key. -/
def explicitKey (l : Lexer) : Option Lexer := do
  if !l.inFlow && !l.mayBeKey then none
  else
    let l ← (l.openBlock l.cursor.column .blockMappingStart).dropCandidate
    return { l.pushMark .key with mayBeKey := !l.inFlow }

/-- The colon before a value: the candidate, if there is one, is its key. -/
def value (l : Lexer) : Option Lexer :=
  match l.candidate with
  | some c =>
    let opens := l.isDeeper c.start.column
    let l := if opens then
        { l with indent := some c.start.column, outerIndents := l.indent :: l.outerIndents }
      else l
    some { l.pushMark .value with
      keys := ⟨c.place, opens⟩ :: l.keys, candidate := none, mayBeKey := false }
  | none =>
    if !l.inFlow && !l.mayBeKey then none
    else
      let l := l.openBlock l.cursor.column .blockMappingStart
      some { l.pushMark .value with mayBeKey := !l.inFlow }

/-- A directive or a document mark ends all blocks. -/
def endBlocks (l : Lexer) : Option Lexer := do
  let l ← (l.closeBlocks none).dropCandidate
  return { l with mayBeKey := false }

/-- A document mark. -/
def documentMark (l : Lexer) (t : Token) : Option Lexer := do
  let l ← l.endBlocks
  return { l.push t with cursor := l.cursor.skipMany 3 }

/-- The name after the star of an alias or the ampersand of an anchor. -/
def anchorName (c : Cursor) : Option (String × Cursor) :=
  let (name, c) := c.skip.spanWhile isWordChar
  let ends := c.endsWordAt 0 || match c.rest with
    | x :: _ => ['?', ':', ',', ']', '}', '%', '@', '`'].contains x
    | [] => true
  if name.isEmpty || !ends then none else some (String.ofList name, c)

/-- The characters of tags. -/
def isTagChar (verbatim : Bool) (c : Char) : Bool :=
  isWordChar c || ";/?:@&=+$.!~*'()".toList.contains c ||
    (verbatim && (c == ',' || c == '[' || c == ']'))

/-- The octets of percent escapes. -/
def escapedOctets : Nat → Cursor → Option (List UInt8 × Cursor)
  | 0, c => some ([], c)
  | fuel + 1, c =>
    match c.rest with
    | '%' :: a :: b :: _ => do
      let n ← hexValue [a, b]
      let (octets, c) ← escapedOctets fuel (c.skipMany 3)
      return (n.toUInt8 :: octets, c)
    | '%' :: _ => none
    | _ => some ([], c)

/-- The characters of a tag, with escapes decoded. -/
def tagChars (verbatim : Bool) : Nat → Cursor → Option (String × Cursor)
  | 0, c => some ("", c)
  | fuel + 1, c =>
    match c.rest with
    | '%' :: _ => do
      let (octets, c) ← escapedOctets (c.rest.length + 1) c
      let piece ← String.fromUTF8? (ByteArray.mk octets.toArray)
      let (text, c) ← tagChars verbatim fuel c
      return (piece ++ text, c)
    | x :: _ =>
      if isTagChar verbatim x then do
        let (text, c) ← tagChars verbatim fuel c.skip
        return (x.toString ++ text, c)
      else some ("", c)
    | [] => some ("", c)

/-- The characters of a tag after `known`; there is at least one in all. -/
def tagText (verbatim : Bool) (known : String) (c : Cursor) : Option (String × Cursor) := do
  let (text, c) ← tagChars verbatim (c.rest.length + 1) c
  if known.isEmpty && text.isEmpty then none
  else return (String.ofList known.toList.tail ++ text, c)

/-- The handle that a tag begins with: an exclamation mark, and perhaps a name and a second one. -/
def tagHandle (c : Cursor) : String × Cursor :=
  let (name, after) := c.skip.spanWhile isWordChar
  let handle := "!" ++ String.ofList name
  if after.has '!' 0 then (handle ++ "!", after.skip) else (handle, after)

/-- The tag has a handle of its own. -/
def isNamedHandle (handle : String) : Bool :=
  2 ≤ handle.length && handle.toList.getLast? == some '!'

/-- A tag. -/
def tagName (inFlow : Bool) (c : Cursor) : Option (TagName × Cursor) := do
  let (name, c) ←
    if c.has '<' 1 then do
      let (suffix, c) ← tagText true "" (c.skipMany 2)
      if c.has '>' 0 then pure (TagName.mk "" suffix, c.skip) else none
    else do
      let (handle, c) := tagHandle c
      if isNamedHandle handle then
        let (suffix, c) ← tagText false "" c
        pure (TagName.mk handle suffix, c)
      else
        let (suffix, c) ← tagText false handle c
        pure (if suffix.isEmpty then TagName.mk "" "!" else TagName.mk "!" suffix, c)
  if c.endsWordAt 0 || (inFlow && c.has ',' 0) then return (name, c) else none

/-- A number of at most nine digits. -/
def versionNumber (c : Cursor) : Option (Nat × Cursor) :=
  let (digits, c) := c.spanWhile Char.isDigit
  if digits.isEmpty || 9 < digits.length then none
  else (Word.natInBase? 10 digits).map (·, c)

/-- The directive that stands here, up to the end of its line. -/
def directive (c : Cursor) : Option (Token × Cursor) := do
  let (name, c) := c.skip.spanWhile isWordChar
  if name.isEmpty || !c.endsWordAt 0 then none
  let (_, c) := c.spanWhile isBlank
  let (token, c) ←
    if name = ['Y', 'A', 'M', 'L'] then do
      let (major, c) ← versionNumber c
      if !c.has '.' 0 then none
      let (minor, c) ← versionNumber c.skip
      pure (Token.version major minor, c)
    else if name = ['T', 'A', 'G'] then do
      if !c.has '!' 0 then none
      let (handle, c) := tagHandle c
      if !(handle == "!" || isNamedHandle handle) then none
      let (blanks, c) := c.spanWhile isBlank
      if blanks.isEmpty then none
      let (start, c) ← tagText true "" c
      if !c.endsWordAt 0 then none
      pure (Token.tagDirective handle start, c)
    else none
  let c := c.skipToLineEnd
  if c.endsLine then return (token, c.skipBreak) else none

/-- A token that may turn out to be a key. -/
def node (l : Lexer) (read : Cursor → Option (Token × Cursor)) : Option Lexer := do
  let l ← l.saveCandidate
  let (t, c) ← read l.cursor
  return { l.push t with cursor := c, mayBeKey := false }

/-- A plain scalar. After a line break a key may begin. -/
def plainScalar (l : Lexer) : Option Lexer := do
  let l ← l.saveCandidate
  let indent := match l.indent with
    | none => 0
    | some i => i + 1
  let (text, afterBreak, c) ← plain l.inFlow indent l.cursor
  return { l.push (.scalar text .plain) with cursor := c, mayBeKey := afterBreak }

/-- A block of lines. -/
def blockScalar (l : Lexer) (folded : Bool) : Option Lexer := do
  let l ← l.dropCandidate
  let (text, c) ← block l.indent l.cursor
  let style := if folded then Style.quoted else .literal
  return { l.push (.scalar text style) with cursor := c, mayBeKey := true }

/-- The marks that no plain scalar begins with. -/
def isMark (c : Char) : Bool := "-?:,[]{}#&*!|>'\"%@`".toList.contains c

/-- A plain scalar may begin with a character, given what follows it. -/
def startsPlain (l : Lexer) (x : Char) : Bool :=
  !isMark x ||
    (x == '-' && !(l.cursor.at? 1).any isBlank) ||
    (!l.inFlow && (x == '?' || x == ':') && !l.cursor.endsWordAt 1)

/-- The token that begins with a character. -/
def tokenAt (l : Lexer) (x : Char) : Option Lexer :=
  let c := l.cursor
  let alone := l.inFlow || c.endsWordAt 1
  if c.column == 0 && x == '%' then do
    let l ← l.endBlocks
    let (t, c) ← directive l.cursor
    return { l.push t with cursor := c }
  else if c.atDocumentMark then
    l.documentMark (if x == '-' then .documentStart else .documentEnd)
  else if x == '[' then l.openFlow .flowSequenceStart
  else if x == '{' then l.openFlow .flowMappingStart
  else if x == ']' then l.closeFlow .flowSequenceEnd
  else if x == '}' then l.closeFlow .flowMappingEnd
  else if x == ',' then l.flowEntry
  else if x == '-' && c.endsWordAt 1 then l.blockEntry
  else if x == '?' && alone then l.explicitKey
  else if x == ':' && alone then l.value
  else if x == '*' then l.node fun c => (anchorName c).map fun (n, c) => (.alias n, c)
  else if x == '&' then l.node fun c => (anchorName c).map fun (n, c) => (.anchor n, c)
  else if x == '!' then l.node fun c => (tagName l.inFlow c).map fun (n, c) => (.tag n, c)
  else if x == '|' && !l.inFlow then l.blockScalar false
  else if x == '>' && !l.inFlow then l.blockScalar true
  else if x == '\'' || x == '"' then
    l.node fun c => (quoted x c).map fun (s, c) => (.scalar s .quoted, c)
  else if l.startsPlain x && !c.endsWordAt 0 then l.plainScalar
  else none

/-- Over what stands between tokens, and the blocks that end there. -/
def approach (l : Lexer) : Option Lexer := do
  let l := skipFiller (l.cursor.rest.length + 1) l
  let l ← l.dropStale
  return l.closeBlocks (some l.cursor.column)

/-- The tokens up to the end of the text, in steps of one token. -/
def run : Nat → Lexer → Option Lexer
  | 0, _ => none
  | fuel + 1, l => do
    let l ← l.approach
    match l.cursor.rest with
    | [] => l.endBlocks
    | x :: _ => run fuel (← l.tokenAt x)

end Lexer

/-- Puts the marks of keys before their tokens, which are numbered from `n`. -/
def withKeys (keys : List KeyMark) (n : Nat) : List Token → List Token
  | [] => []
  | t :: ts =>
    match keys with
    | k :: ks =>
      if k.place = n then
        let marks := if k.opens then [Token.blockMappingStart, .key] else [.key]
        marks ++ t :: withKeys ks (n + 1) ts
      else t :: withKeys keys (n + 1) ts
    | [] => t :: ts

/-- The tokens of a text. -/
def Token.ofText? (s : String) : Option (List Token) := do
  let cs := s.toList
  if !cs.all isAllowed then none
  else
    let l ← Lexer.run (cs.length + 2) { cursor := .ofChars cs }
    let keys := l.keys.mergeSort fun a b => a.place ≤ b.place
    return withKeys keys 0 l.tokens.reverse

end WorkflowEngine.Yaml
