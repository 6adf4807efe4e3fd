import WorkflowEngine.Data.Datum
import WorkflowEngine.Decimal.Notation
import WorkflowEngine.Yaml.Cursor

/-!
# Writing Yaml documents

Lists and records are written in block form, one element or entry a line; a list that is the value
of an entry is indented no more than the entry. A text is written plain where it reads back as
itself, as a block of lines if it has several, and between quotes otherwise.

## Main definitions

* `ScalarForm`, `formOf`: the ways to write a text, and which one is taken
* `scalarText`: a text as written
* `write`: the text of a datum
-/

namespace WorkflowEngine.Yaml

open Data

/-- The ways to write a text. -/
inductive ScalarForm where
  | plain
  | singleQuoted
  | doubleQuoted
  | literal
deriving DecidableEq

/-- The characters that are written as they are. -/
def isPrintable (c : Char) : Bool :=
  let n := c.toNat
  n == 0x0a || (0x20 ≤ n && n ≤ 0x7e) || (0xa0 ≤ n && n != 0xfeff && n != 0xfffe && n != 0xffff)

/-- The characters that end a word. -/
def endsWord (c : Char) : Bool := isBlank c || isBreak c || c == '\x00'

/-- Somewhere a character of one class is followed by one of another. -/
def meets (p q : Char → Bool) (cs : List Char) : Bool :=
  (cs.zip cs.tail).any fun (a, b) => p a && q b

/-- The first character is followed by the end of a word. -/
def isLoneMark (cs : List Char) : Bool :=
  match cs with
  | [] => false
  | [_] => true
  | _ :: c :: _ => endsWord c

/-- A text that would be read as a mark of the block form. -/
def readsAsMark (cs : List Char) : Bool :=
  let first := cs.head?.getD ' '
  cs.take 3 == ['-', '-', '-'] || cs.take 3 == ['.', '.', '.'] ||
    "#,[]{}&*!|>'\"%@`".toList.contains first ||
    ((first == '?' || first == '-') && isLoneMark cs) ||
    cs.getLast? == some ':' || meets (· == ':') endsWord cs || meets endsWord (· == '#') cs

/-- The form of a text that would be written plain, or as a block of lines, if it may be. -/
def formOf (cs : List Char) : ScalarForm :=
  let first := cs.head?.getD 'x'
  let last := cs.getLast?.getD 'x'
  let isEdge := fun c => c == ' ' || isBreak c
  let needsEscapes := cs.any (!isPrintable ·) || meets (· == ' ') isBreak cs
  let word := String.ofList cs
  let isWord := match Word.kind word with
    | .text => !Word.isPadded cs
    | _ => false
  if needsEscapes then .doubleQuoted
  else if cs.contains '\n' then if last == ' ' then .doubleQuoted else .literal
  else if meets isBreak (· == ' ') cs then .doubleQuoted
  else if isWord && !isEdge first && !isEdge last && !cs.any isBreak && !readsAsMark cs then .plain
  else .singleQuoted

/-- Blanks. -/
def pad (n : Nat) : List Char := List.replicate n ' '

/-- The upper-case hexadecimal digits of a number, a given number of them. -/
def hexDigits (width n : Nat) : List Char :=
  let ds := (Nat.toDigits 16 n).map Char.toUpper
  List.replicate (width - ds.length) '0' ++ ds

/-- A character between double quotes. -/
def escape (c : Char) : List Char :=
  match c with
  | '\x00' => ['\\', '0']
  | '\x07' => ['\\', 'a']
  | '\x08' => ['\\', 'b']
  | '\t' => ['\\', 't']
  | '\n' => ['\\', 'n']
  | '\x0b' => ['\\', 'v']
  | '\x0c' => ['\\', 'f']
  | '\r' => ['\\', 'r']
  | '\x1b' => ['\\', 'e']
  | '"' => ['\\', '"']
  | '\\' => ['\\', '\\']
  | '\u0085' => ['\\', 'N']
  | '\u2028' => ['\\', 'L']
  | '\u2029' => ['\\', 'P']
  | c =>
    if isPrintable c then [c]
    else if c.toNat ≤ 0xff then '\\' :: 'x' :: hexDigits 2 c.toNat
    else if c.toNat ≤ 0xffff then '\\' :: 'u' :: hexDigits 4 c.toNat
    else '\\' :: 'U' :: hexDigits 8 c.toNat

/-- The characters between single quotes. Text after a line break is indented. -/
def singleQuotedChars (indent : Nat) (afterBreak : Bool) : List Char → List Char
  | [] => if afterBreak then pad indent else []
  | c :: cs =>
    if isBreak c then c :: singleQuotedChars indent true cs
    else
      let lead := if afterBreak && c != ' ' then pad indent else []
      let text := if c == '\'' then ['\'', '\''] else [c]
      lead ++ text ++ singleQuotedChars indent (afterBreak && c == ' ') cs

/-- The lines of a block, indented; empty lines are not. -/
def literalChars (indent : Nat) (afterBreak : Bool) : List Char → List Char
  | [] => []
  | c :: cs =>
    if isBreak c then c :: literalChars indent true cs
    else (if afterBreak then pad indent else []) ++ c :: literalChars indent false cs

/-- The header of a block: a hint on the indentation if the text begins with a blank, and how the
line breaks at its end are kept. -/
def literalHeader (cs : List Char) : List Char :=
  let hint := match cs with
    | c :: _ => if c == ' ' || isBreak c then ['2'] else []
    | [] => []
  let chomping := match cs.reverse with
    | [] => ['-']
    | [c] => if isBreak c then ['+'] else ['-']
    | c :: d :: _ => if !isBreak c then ['-'] else if isBreak d then ['+'] else []
  '|' :: hint ++ chomping

/-- A text as written, where further lines are indented by `indent`. -/
def scalarText (indent : Nat) (s : String) : List Char :=
  let cs := s.toList
  match formOf cs with
  | .plain => cs
  | .singleQuoted => '\'' :: singleQuotedChars indent false cs ++ ['\'']
  | .doubleQuoted => '"' :: cs.flatMap escape ++ ['"']
  | .literal => literalHeader cs ++ '\n' :: literalChars indent true cs

/-- How floats are written. -/
def floatText : Decimal.FloatText :=
  { maxWhole := 16, maxZeros := 4, plus := "", notANumber := ".nan", infinity := ".inf" }

/-- A key of a record may stand on one line with its value. -/
def isSimpleKey (s : String) : Bool := !s.toList.any isBreak && s.utf8ByteSize ≤ 128

/-- What ends the line of a text, unless the text ends it itself. -/
def lineEnd (text : List Char) : List Char :=
  if text.getLast? == some '\n' then [] else ['\n']

/-- Texts on lines of their own, all but the first indented. -/
def stack (indent : Nat) : List (List Char) → List Char
  | [] => []
  | [t] => t
  | t :: ts => t ++ lineEnd t ++ pad indent ++ stack indent ts

/-- A value after its key: a list goes on with the next line, at the column of the key, a record
two columns deeper, and all else stays on the line. -/
def afterKey (indent : Nat) (value : Datum) (text : Nat → List Char) : List Char :=
  match value with
  | .list (_ :: _) => '\n' :: pad indent ++ text indent
  | .record (_ :: _) => '\n' :: pad (indent + 2) ++ text (indent + 2)
  | _ => ' ' :: text (indent + 2)

/-- An entry of a record, given the text of its value at a column. -/
def entryText (indent : Nat) (key value : Datum) (text : Nat → List Char) : List Char :=
  let k := (key.text?).getD ""
  let keyText := scalarText (indent + 2) k
  if isSimpleKey k then keyText ++ ':' :: afterKey indent value text
  else
    let head := '?' :: ' ' :: keyText
    head ++ lineEnd head ++ pad indent ++ ':' :: ' ' :: text (indent + 2)

mutual
/-- A datum that begins at column `indent` of a line. -/
def nodeText (indent : Nat) : Datum → List Char
  | .null => "null".toList
  | .bool b => (if b then "true" else "false").toList
  | .int n => (toString n).toList
  | .float x => (floatText.write x).toList
  | .text s => scalarText indent s
  | .scalar s => scalarText indent s.text
  | .list ds => if ds.isEmpty then ['[', ']'] else stack indent (itemTexts indent ds)
  | .record es => if es.isEmpty then ['{', '}'] else stack indent (entryTexts indent es)
  | .marked d => nodeText indent d
  | .unreadable => "null".toList

/-- The elements of a list. -/
def itemTexts (indent : Nat) : List Datum → List (List Char)
  | [] => []
  | d :: ds => ('-' :: ' ' :: nodeText (indent + 2) d) :: itemTexts indent ds

/-- The entries of a record. -/
def entryTexts (indent : Nat) : List (Datum × Datum) → List (List Char)
  | [] => []
  | (k, d) :: es => entryText indent k d (fun i => nodeText i d) :: entryTexts indent es
end

/-- The text of a datum. -/
def write (d : Datum) : String :=
  let text := nodeText 0 d
  String.ofList (text ++ lineEnd text)

end WorkflowEngine.Yaml
