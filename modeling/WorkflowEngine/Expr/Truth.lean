import WorkflowEngine.Json.Printer
import WorkflowEngine.Text.Blank
import WorkflowEngine.Text.Case

/-!
# Truth and text of values

What a value counts as where a truth value or a text is asked for: in conditions, in text around
placeholders and for the choice of a case.

## Main definitions

* `Json.truth`: the value as a truth value; some words count as false
* `Json.display`: the value as text
-/

namespace WorkflowEngine

/-- The words that count as false, whatever blanks stand around them. -/
def Text.truth (s : String) : Bool :=
  !(["", "false", "0", "null", "undefined"].contains (asciiLower (trim s)))

namespace Json

/-- The value as a truth value: numbers other than zero, arrays, objects and all texts but the words
for false. -/
def truth : Json → Bool
  | .null => false
  | .bool b => b
  | .num n => n.toFloat != 0.0
  | .str s => Text.truth s
  | .arr _ => true
  | .obj _ => true

/-- A float is a whole number of so few digits that it is written without a fraction. -/
def isShortWhole (x : Float) : Bool := x.floor == x && x.abs < 1e15

/-- A number as text; small whole floats have no fraction. -/
def Number.display : Number → String
  | .int n => toString n
  | .float x => if isShortWhole x then toString x.toInt64.toInt else (Number.float x).text

/-- The value as text: nothing for null, a text itself, and compact Json for arrays and objects. -/
def display : Json → String
  | .null => ""
  | .str s => s
  | .num n => n.display
  | v => v.compact

end Json

end WorkflowEngine
