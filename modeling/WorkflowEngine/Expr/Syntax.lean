import WorkflowEngine.Expr.Token

/-!
# Expressions

The syntax of expressions. From loose to tight, all operators grouping to the left:

* `&&` and `||`, on one level
* comparisons and `in`
* `+` and `-`
* `*`, `/` and `//`
* `%` and `^`
* `condition ? whenTrue : whenFalse`, whose three parts hold no operators
* `subject|name(arguments)`
* `subject[index]`, `subject[.field op value]` and `subject.field`
* literals, lists, objects, names and parentheses

## Main definitions

* `Expression`: expressions
* `Expression.ofTokens?`: the expression that tokens spell
* `Expression.read`: the expression of a text
-/

namespace WorkflowEngine.Expr

/-- Expressions. -/
inductive Expression where
  | number (value : Float)
  | text (value : String)
  | bool (value : Bool)
  | null
  | list (items : List Expression)
  | object (fields : List (String × Expression))
  | name (name : String)
  | binary (op : Operator) (left right : Expression)
  | transform (subject : Expression) (name : String) (args : List Expression)
  | index (subject index : Expression)
  | filter (subject : Expression) (field : String) (op : Operator) (value : Expression)
  | field (subject : Expression) (name : String)
  | choice (condition whenTrue whenFalse : Expression)
deriving Repr, Inhabited

/-- The level of an operator, from loose to tight. -/
def Operator.level : Operator → Nat
  | .or | .and => 0
  | .equal | .notEqual | .greaterEqual | .lessEqual | .greater | .less | .isIn => 1
  | .add | .subtract => 2
  | .multiply | .floorDivide | .divide => 3
  | .modulus | .exponent => 4

/-- The number of levels of operators. -/
def Operator.levels : Nat := 5

namespace Expression

/-- What a reading step takes from the front of the tokens, and the rest. -/
abbrev Step (α : Type) := List Token → Option (α × List Token)

/-- Takes one mark. -/
def expect (m : Mark) : List Token → Option (List Token)
  | .mark m' :: rest => if m = m' then some rest else none
  | _ => none

mutual
/-- Operands at a level, joined by its operators. -/
def joined : Nat → Nat → Step Expression
  | 0, _, _ => none
  | fuel + 1, level, ts =>
    if level < Operator.levels then do
      let (left, rest) ← joined fuel (level + 1) ts
      joinedRest fuel level left rest
    else do
      let (condition, rest) ← piped fuel ts
      choiceRest fuel condition rest

/-- The operators of a level and their right operands that follow a left operand. -/
def joinedRest : Nat → Nat → Expression → Step Expression
  | 0, _, _, _ => none
  | fuel + 1, level, left, ts =>
    match ts with
    | .op op :: rest =>
      if op.level = level then do
        let (right, rest) ← joined fuel (level + 1) rest
        joinedRest fuel level (.binary op left right) rest
      else some (left, ts)
    | _ => some (left, ts)

/-- The alternatives that follow a condition. -/
def choiceRest : Nat → Expression → Step Expression
  | 0, _, _ => none
  | fuel + 1, condition, ts =>
    match ts with
    | .mark .question :: rest => do
      let (whenTrue, rest) ← piped fuel rest
      let rest ← expect .colon rest
      let (whenFalse, rest) ← piped fuel rest
      choiceRest fuel (.choice condition whenTrue whenFalse) rest
    | _ => some (condition, ts)

/-- A subject and the transforms it is piped through. -/
def piped : Nat → Step Expression
  | 0, _ => none
  | fuel + 1, ts => do
    let (subject, rest) ← atom fuel ts
    let (subject, rest) ← selectedRest fuel subject rest
    pipedRest fuel subject rest

/-- The transforms that follow a subject. -/
def pipedRest : Nat → Expression → Step Expression
  | 0, _, _ => none
  | fuel + 1, subject, ts =>
    match ts with
    | .mark .pipe :: .name n :: .mark .openParen :: rest => do
      let (args, rest) ← sequence fuel .closeParen rest
      pipedRest fuel (.transform subject n args) rest
    | .mark .pipe :: .name n :: rest => pipedRest fuel (.transform subject n []) rest
    | .mark .pipe :: _ => none
    | _ => some (subject, ts)

/-- The selections that follow a subject. -/
def selectedRest : Nat → Expression → Step Expression
  | 0, _, _ => none
  | fuel + 1, subject, ts =>
    match ts with
    | .mark .openBracket :: .mark .dot :: .name n :: .op op :: rest =>
      if op.level = 1 then do
        let (value, rest) ← atom fuel rest
        let rest ← expect .closeBracket rest
        selectedRest fuel (.filter subject n op value) rest
      else none
    | .mark .openBracket :: rest => do
      let (i, rest) ← joined fuel 0 rest
      let rest ← expect .closeBracket rest
      selectedRest fuel (.index subject i) rest
    | .mark .dot :: .name n :: rest => selectedRest fuel (.field subject n) rest
    | .mark .dot :: _ => none
    | _ => some (subject, ts)

/-- A literal, a list, an object, a name or an expression in parentheses. -/
def atom : Nat → Step Expression
  | 0, _ => none
  | fuel + 1, ts =>
    match ts with
    | .number x :: rest => some (.number x, rest)
    | .text s :: rest => some (.text s, rest)
    | .bool b :: rest => some (.bool b, rest)
    | .null :: rest => some (.null, rest)
    | .name n :: rest => some (.name n, rest)
    | .mark .openParen :: rest => do
      let (e, rest) ← joined fuel 0 rest
      let rest ← expect .closeParen rest
      return (e, rest)
    | .mark .openBracket :: rest => do
      let (items, rest) ← sequence fuel .closeBracket rest
      return (.list items, rest)
    | .mark .openBrace :: rest => do
      let (fields, rest) ← fieldSequence fuel rest
      return (.object fields, rest)
    | _ => none

/-- Expressions separated by commas up to a closing mark; a comma may stand before it. -/
def sequence : Nat → Mark → Step (List Expression)
  | 0, _, _ => none
  | fuel + 1, close, ts =>
    match expect close ts with
    | some rest => some ([], rest)
    | none => do
      let (e, rest) ← joined fuel 0 ts
      match rest with
      | .mark .comma :: rest =>
        let (es, rest) ← sequence fuel close rest
        return (e :: es, rest)
      | rest =>
        let rest ← expect close rest
        return ([e], rest)

/-- The fields of an object up to its closing brace; a comma may stand before it. -/
def fieldSequence : Nat → Step (List (String × Expression))
  | 0, _ => none
  | fuel + 1, ts =>
    match expect .closeBrace ts with
    | some rest => some ([], rest)
    | none => do
      let (key, rest) ← match ts with
        | .name k :: rest => some (k, rest)
        | .text k :: rest => some (k, rest)
        | _ => none
      let rest ← expect .colon rest
      let (e, rest) ← joined fuel 0 rest
      match rest with
      | .mark .comma :: rest =>
        let (fields, rest) ← fieldSequence fuel rest
        return ((key, e) :: fields, rest)
      | rest =>
        let rest ← expect .closeBrace rest
        return ([(key, e)], rest)
end

/-- The expression that tokens spell. Between two tokens that are taken no more than a dozen steps
are nested. -/
def ofTokens? (ts : List Token) : Option Expression :=
  match joined (12 * (ts.length + 2)) 0 ts with
  | some (e, []) => some e
  | _ => none

/-- The expression of a text. -/
def read (s : String) : Option Expression := (Token.scan s).bind ofTokens?

end Expression

end WorkflowEngine.Expr
