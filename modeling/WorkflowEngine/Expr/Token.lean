import WorkflowEngine.Decimal.Reading

/-!
# Tokens of expressions

Expressions are written in ASCII. A number has no sign and no exponent; a point directly before a
digit begins a number. A text stands between quotes of either kind, and the only escape in it is a
backslash before its own quote. Of several tokens that fit, the longest is taken.

## Main definitions

* `Token`: words, literals, operators and marks
* `Token.scan`: the tokens of a text
-/

namespace WorkflowEngine.Expr

open Decimal

/-- The operators between two operands. -/
inductive Operator where
  | or
  | and
  | equal
  | notEqual
  | greaterEqual
  | lessEqual
  | greater
  | less
  | isIn
  | add
  | subtract
  | multiply
  | floorDivide
  | divide
  | modulus
  | exponent
deriving Repr, DecidableEq

/-- The marks that are no operators. -/
inductive Mark where
  | openParen
  | closeParen
  | openBracket
  | closeBracket
  | openBrace
  | closeBrace
  | comma
  | dot
  | question
  | colon
  | pipe
deriving Repr, DecidableEq

/-- The tokens of expressions. -/
inductive Token where
  | number (value : Float)
  | text (value : String)
  | name (value : String)
  | bool (value : Bool)
  | null
  | op (operator : Operator)
  | mark (mark : Mark)
deriving Repr, BEq

namespace Token

/-- Blanks between tokens. -/
def isSpace (c : Char) : Bool := c == ' ' || ('\t' ≤ c && c ≤ '\r')

/-- The first character of a name. -/
def startsName (c : Char) : Bool := c.isAlpha || c == '_'

/-- The other characters of a name. -/
def continuesName (c : Char) : Bool := c.isAlphanum || c == '_'

/-- A name, or the keyword that is spelled like it. -/
def ofWord (word : String) : Token :=
  if word == "true" then .bool true
  else if word == "false" then .bool false
  else if word == "null" then .null
  else if word == "in" then .op .isIn
  else .name word

/-- The characters up to the closing quote, and the rest. -/
def untilQuote (quote : Char) : List Char → Option (List Char × List Char)
  | [] => none
  | '\\' :: c :: cs =>
    if c = quote then (untilQuote quote cs).map fun (s, rest) => (c :: s, rest) else none
  | c :: cs =>
    if c = quote then some ([], cs)
    else if c = '\\' then none
    else (untilQuote quote cs).map fun (s, rest) => (c :: s, rest)

/-- A number that begins with the given characters. -/
def ofNumber (cs : List Char) : Float × List Char :=
  let (whole, rest) := spanDigits cs
  match rest with
  | '.' :: d :: more =>
    if d.isDigit then
      let (fraction, rest) := spanDigits (d :: more)
      (nearest (ofDigits (ofDigits 0 whole) fraction) (-fraction.length), rest)
    else (nearest (ofDigits 0 whole) 0, rest)
  | rest => (nearest (ofDigits 0 whole) 0, rest)

/-- The operator or mark that a text begins with. -/
def ofSign : List Char → Option (Token × List Char)
  | '|' :: '|' :: cs => some (.op .or, cs)
  | '&' :: '&' :: cs => some (.op .and, cs)
  | '=' :: '=' :: cs => some (.op .equal, cs)
  | '!' :: '=' :: cs => some (.op .notEqual, cs)
  | '>' :: '=' :: cs => some (.op .greaterEqual, cs)
  | '<' :: '=' :: cs => some (.op .lessEqual, cs)
  | '>' :: cs => some (.op .greater, cs)
  | '<' :: cs => some (.op .less, cs)
  | '+' :: cs => some (.op .add, cs)
  | '-' :: cs => some (.op .subtract, cs)
  | '*' :: cs => some (.op .multiply, cs)
  | '/' :: '/' :: cs => some (.op .floorDivide, cs)
  | '/' :: cs => some (.op .divide, cs)
  | '%' :: cs => some (.op .modulus, cs)
  | '^' :: cs => some (.op .exponent, cs)
  | '(' :: cs => some (.mark .openParen, cs)
  | ')' :: cs => some (.mark .closeParen, cs)
  | '[' :: cs => some (.mark .openBracket, cs)
  | ']' :: cs => some (.mark .closeBracket, cs)
  | '{' :: cs => some (.mark .openBrace, cs)
  | '}' :: cs => some (.mark .closeBrace, cs)
  | ',' :: cs => some (.mark .comma, cs)
  | '.' :: cs => some (.mark .dot, cs)
  | '?' :: cs => some (.mark .question, cs)
  | ':' :: cs => some (.mark .colon, cs)
  | '|' :: cs => some (.mark .pipe, cs)
  | _ => none

/-- The text begins with a number. -/
def startsNumber : List Char → Bool
  | '.' :: d :: _ => d.isDigit
  | d :: _ => d.isDigit
  | [] => false

/-- The token that a text without leading blanks begins with. -/
def next (cs : List Char) : Option (Token × List Char) :=
  match cs with
  | [] => none
  | c :: rest =>
    if startsNumber cs then
      let (x, rest) := ofNumber cs
      some (.number x, rest)
    else if startsName c then
      some (ofWord (String.ofList (cs.takeWhile continuesName)), cs.dropWhile continuesName)
    else if c = '\'' || c = '"' then
      (untilQuote c rest).map fun (s, rest) => (.text (String.ofList s), rest)
    else ofSign cs

/-- The tokens of a text, of which there are at most `fuel`. -/
def scanFrom : Nat → List Char → Option (List Token)
  | 0, cs => if (cs.dropWhile isSpace).isEmpty then some [] else none
  | fuel + 1, cs =>
    let cs := cs.dropWhile isSpace
    if cs.isEmpty then some []
    else do
      let (t, rest) ← next cs
      return t :: (← scanFrom fuel rest)

/-- The tokens of a text; none if some part of it is no token. -/
def scan (s : String) : Option (List Token) :=
  let cs := s.toList
  if cs.all fun c => c.toNat < 128 then scanFrom cs.length cs else none

end Token

end WorkflowEngine.Expr
