import WorkflowEngine.Expr.Operation
import WorkflowEngine.Expr.Transform

/-!
# Evaluation of expressions

The value of an expression in a context of names. Operands are evaluated from left to right; `&&`
and `||` leave the right one alone when the left one decides, and a condition or a left operand of
`||` that cannot be evaluated counts as false.

## Main definitions

* `Engine`: what turns the text of an expression and a context into a value
* `Expression.eval`: the value of an expression
* `engine`: reads an expression and evaluates it
-/

namespace WorkflowEngine.Expr

/-- What turns the text of an expression and a context into a value. -/
abbrev Engine := String → Json → Except Fault Json

/-- The field of an object, or null. -/
def fieldOf (subject : Json) (name : String) : Json := (subject.get? name).getD .null

/-- The element of an array whose position is a number rounded down, or null. Negative positions
count as zero. -/
def elementAt (subject : Json) (x : Float) : Json :=
  let i := x.floor
  if i < 9007199254740992.0 then (subject.at? i.toUInt64.toNat).getD .null else .null

/-- What an index selects. -/
def select (subject index : Json) : Except Fault Json :=
  match index with
  | .str name => .ok (fieldOf subject name)
  | .num n => .ok (elementAt subject n.toFloat)
  | _ => .error .invalidIndex

/-- An element passes a filter; one that cannot be compared does not. -/
def passes (field : String) (op : Operator) (value element : Json) : Bool :=
  match apply op (fieldOf element field) value with
  | .ok v => isTrue v
  | .error _ => false

/-- The result counts as true; a fault does not. -/
def isTrueResult : Except Fault Json → Bool
  | .ok v => isTrue v
  | .error _ => false

mutual
/-- The value of an expression in a context. -/
def Expression.eval (context : Json) : Expression → Except Fault Json
  | .number x => .ok (.ofFloat x)
  | .text s => .ok (.str s)
  | .bool b => .ok (.bool b)
  | .null => .ok .null
  | .list items => (evalList context items).map .arr
  | .object fields => (evalFields context [] fields).map .obj
  | .name n =>
    match context.get? n with
    | some v => .ok v
    | none => .error (.undefined n)
  | .binary .or left right =>
    let l := Expression.eval context left
    if isTrueResult l then l else Expression.eval context right
  | .binary .and left right => do
    let l ← Expression.eval context left
    if isTrue l then Expression.eval context right else return l
  | .binary op left right => do
    let l ← Expression.eval context left
    let r ← Expression.eval context right
    apply op l r
  | .transform subject name args => do
    let s ← Expression.eval context subject
    let vs ← evalList context args
    match transform? name with
    | some f => return f (s :: vs)
    | none => .error (.unknownTransform name)
  | .index subject i => do
    let s ← Expression.eval context subject
    let v ← Expression.eval context i
    select s v
  | .filter subject field op value => do
    match ← Expression.eval context subject with
    | .arr items =>
      let v ← Expression.eval context value
      return .arr (items.filter (passes field op v))
    | _ => .error .invalidFilter
  | .field subject n => do return fieldOf (← Expression.eval context subject) n
  | .choice condition whenTrue whenFalse =>
    if isTrueResult (Expression.eval context condition) then Expression.eval context whenTrue
    else Expression.eval context whenFalse

/-- The values of expressions, in order. -/
def evalList (context : Json) : List Expression → Except Fault (List Json)
  | [] => .ok []
  | e :: es => do return (← Expression.eval context e) :: (← evalList context es)

/-- The fields of an object after those already evaluated; a key must not stand twice. -/
def evalFields (context : Json) (seen : Dict Json) :
    List (String × Expression) → Except Fault (Dict Json)
  | [] => .ok seen
  | (key, e) :: rest =>
    if Dict.hasKey seen key then .error (.duplicateKey key)
    else do
      let v ← Expression.eval context e
      evalFields context (Dict.insert seen key v) rest
end

/-- Reads an expression and evaluates it. -/
def engine : Engine := fun text context =>
  match Expression.read text with
  | some e => e.eval context
  | none => .error .malformed

end WorkflowEngine.Expr
