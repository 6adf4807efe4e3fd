import WorkflowEngine.Json.Basic
import WorkflowEngine.Decimal.Notation

/-!
# Json text

The compact form has no blanks; the indented form puts every element and field on a line of its own.
Only quotes, backslashes and control characters are escaped.

## Main definitions

* `Json.floatText`: how floats are written
* `Json.compact`: the compact text of a value
* `Json.indented`: the indented text of a value
-/

namespace WorkflowEngine.Json

open Decimal

/-- Floats are positional from `0.00001` to below `10 ^ 16`; elsewhere they have an exponent with a
sign. -/
def floatText : FloatText :=
  { maxWhole := 16, maxZeros := 4, plus := "+", notANumber := "null", infinity := "null" }

/-- The text of a number. -/
def Number.text : Number → String
  | .int n => toString n
  | .float x => if x.isFinite then floatText.write x else "null"

/-- The lower-case hexadecimal digit of a number below sixteen. -/
def hexDigit (n : Nat) : Char := if n < 10 then Char.ofNat (48 + n) else Char.ofNat (87 + n)

/-- A character as it stands between quotes. -/
def escape (c : Char) : List Char :=
  match c with
  | '"' => ['\\', '"']
  | '\\' => ['\\', '\\']
  | '\n' => ['\\', 'n']
  | '\r' => ['\\', 'r']
  | '\t' => ['\\', 't']
  | '\x08' => ['\\', 'b']
  | '\x0c' => ['\\', 'f']
  | c =>
    if c < ' ' then ['\\', 'u', '0', '0', hexDigit (c.toNat / 16), hexDigit (c.toNat % 16)]
    else [c]

/-- A text between quotes. -/
def quote (s : String) : String := String.ofList ('"' :: s.toList.flatMap escape ++ ['"'])

mutual
/-- The compact text of a value. -/
def compact : Json → String
  | .null => "null"
  | .bool b => if b then "true" else "false"
  | .num n => n.text
  | .str s => quote s
  | .arr items => "[" ++ compactItems items ++ "]"
  | .obj fields => "\x7b" ++ compactFields fields ++ "\x7d"

/-- The compact texts of elements, separated by commas. -/
def compactItems : List Json → String
  | [] => ""
  | [v] => compact v
  | v :: w :: vs => compact v ++ "," ++ compactItems (w :: vs)

/-- The compact texts of fields, separated by commas. -/
def compactFields : List (String × Json) → String
  | [] => ""
  | [(k, v)] => quote k ++ ":" ++ compact v
  | (k, v) :: f :: fs => quote k ++ ":" ++ compact v ++ "," ++ compactFields (f :: fs)
end

/-- A line break and the blanks of a nesting depth. -/
def newline (depth : Nat) : String := "\n" ++ String.ofList (List.replicate (2 * depth) ' ')

mutual
/-- The indented text of a value that stands at a nesting depth. -/
def indentedAt (depth : Nat) : Json → String
  | .arr [] => "[]"
  | .arr items => "[" ++ indentedItems (depth + 1) items ++ newline depth ++ "]"
  | .obj [] => "\x7b\x7d"
  | .obj fields => "\x7b" ++ indentedFields (depth + 1) fields ++ newline depth ++ "\x7d"
  | .null => "null"
  | .bool b => if b then "true" else "false"
  | .num n => n.text
  | .str s => quote s

/-- Elements, each on a line of its own. -/
def indentedItems (depth : Nat) : List Json → String
  | [] => ""
  | [v] => newline depth ++ indentedAt depth v
  | v :: w :: vs => newline depth ++ indentedAt depth v ++ "," ++ indentedItems depth (w :: vs)

/-- Fields, each on a line of its own. -/
def indentedFields (depth : Nat) : List (String × Json) → String
  | [] => ""
  | [(k, v)] => newline depth ++ quote k ++ ": " ++ indentedAt depth v
  | (k, v) :: f :: fs =>
    newline depth ++ quote k ++ ": " ++ indentedAt depth v ++ "," ++ indentedFields depth (f :: fs)
end

/-- The indented text of a value. -/
def indented (v : Json) : String := indentedAt 0 v

end WorkflowEngine.Json
