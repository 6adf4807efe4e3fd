import WorkflowEngine.Expr.Syntax
import WorkflowEngine.Json.Printer
import WorkflowEngine.Text.Search

/-!
# Operations on values

What the operators of expressions do with two values, and why an evaluation fails. All arithmetic is
on floats. Two numbers are equal if they differ by less than a millionth; elsewhere equality is
exact, and values of different types are different.

## Main definitions

* `Fault`, `Fault.message`: why an evaluation fails, and the text that says so
* `isTrue`: the values that count as true inside expressions
* `apply`: the value of an operation
-/

namespace WorkflowEngine.Expr

/-- Why an evaluation fails. -/
inductive Fault where
  | malformed
  | undefined (name : String)
  | invalidIndex
  | invalidFilter
  | duplicateKey (key : String)
  | unknownTransform (name : String)
  | invalidOperation (op : Operator) (left right : Json)
deriving Repr

/-- The name of an operation in messages. -/
def Operator.label : Operator → String
  | .or => "Bitwise Or"
  | .and => "Bitwise And"
  | .equal => "Equal"
  | .notEqual => "Not equal"
  | .greaterEqual => "Greater than or equal to"
  | .lessEqual => "Less than or equal to"
  | .greater => "Greater than"
  | .less => "Less than"
  | .isIn => "In"
  | .add => "Add"
  | .subtract => "Subtract"
  | .multiply => "Multiply"
  | .floorDivide => "Floor division"
  | .divide => "Divide"
  | .modulus => "Modulus"
  | .exponent => "Exponent"

/-- The text that says why an evaluation fails. -/
def Fault.message : Fault → String
  | .malformed => "Parsing error: the text is no expression"
  | .undefined name => "Identifier '" ++ name ++ "' is undefined"
  | .invalidIndex => "Invalid index type"
  | .invalidFilter => "Invalid filter"
  | .duplicateKey key => "Duplicate object key: " ++ key
  | .unknownTransform name => "Unknown transform: " ++ name
  | .invalidOperation op left right =>
    "Invalid binary operation, left: " ++ left.compact ++ ", right: " ++ right.compact ++
      ", operation: " ++ op.label

/-- The values that count as true inside expressions. -/
def isTrue : Json → Bool
  | .null => false
  | .bool b => b
  | .num n => n.toFloat != 0.0
  | .str s => !s.isEmpty
  | .arr _ => true
  | .obj _ => true

/-- Two floats are equal if they differ by less than a millionth. -/
def closeTo (x y : Float) : Bool := (x - y).abs < 0.000001

/-- The value of an operation on two numbers. -/
def applyNumbers (op : Operator) (x y : Float) : Json :=
  match op with
  | .add => .ofFloat (x + y)
  | .subtract => .ofFloat (x - y)
  | .multiply => .ofFloat (x * y)
  | .divide => .ofFloat (x / y)
  | .floorDivide => .ofFloat (x / y).floor
  | .modulus => .ofFloat (Decimal.remainder x y)
  | .exponent => .ofFloat (x.pow y)
  | .less => .bool (x < y)
  | .lessEqual => .bool (x ≤ y)
  | .greater => .bool (y < x)
  | .greaterEqual => .bool (y ≤ x)
  | .equal => .bool (closeTo x y)
  | .notEqual => .bool !(closeTo x y)
  | .isIn => .bool false
  | .and => .ofFloat (if x != 0.0 then y else x)
  | .or => .ofFloat (if x != 0.0 then x else y)

/-- The value of an operation on two texts. -/
def applyTexts (op : Operator) (s t : String) : Except Fault Json :=
  match op with
  | .equal => .ok (.bool (s == t))
  | .notEqual => .ok (.bool (s != t))
  | .add => .ok (.str (s ++ t))
  | .isIn => .ok (.bool (Text.contains t s))
  | .less => .ok (.bool (s < t))
  | .lessEqual => .ok (.bool !(t < s))
  | .greater => .ok (.bool (t < s))
  | .greaterEqual => .ok (.bool !(s < t))
  | .and => .ok (.str (if s.isEmpty then s else t))
  | .or => .ok (.str (if s.isEmpty then t else s))
  | op => .error (.invalidOperation op (.str s) (.str t))

/-- Two values that are not both numbers are equal. -/
def same : Json → Json → Bool
  | .bool a, .bool b => a == b
  | .null, .null => true
  | .str a, .str b => a == b
  | .arr a, .arr b => a == b
  | .obj a, .obj b => Json.obj a == Json.obj b
  | _, _ => false

/-- The value of an operation. -/
def apply (op : Operator) (left right : Json) : Except Fault Json :=
  match op, left, right with
  | .and, a, b => .ok (if isTrue a then b else a)
  | .or, a, b => .ok (if isTrue a then a else b)
  | op, .num a, .num b => .ok (applyNumbers op a.toFloat b.toFloat)
  | op, .str a, .str b => applyTexts op a b
  | .equal, a, b => .ok (.bool (same a b))
  | .notEqual, a, b => .ok (.bool !(same a b))
  | .isIn, a, .arr items => .ok (.bool (items.any (a == ·)))
  | .isIn, .str a, .obj fields => .ok (.bool (Dict.hasKey fields a))
  | op, a, b => .error (.invalidOperation op a b)

end WorkflowEngine.Expr
