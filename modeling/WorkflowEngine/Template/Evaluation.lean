import WorkflowEngine.Expr.Evaluation
import WorkflowEngine.Template.Formula
import WorkflowEngine.Template.Segment

/-!
# Evaluation of templates and conditions

A template without placeholders is the text itself, one that is a single placeholder has the value
of its body, and any other is its text with each placeholder replaced by the text of its value. A
condition may be written bare or with placeholders inside a larger expression.

Everything is said over an engine that evaluates operands; the context reaches nothing but the
engine.

## Main definitions

* `EvalError`, `EvalError.message`: why an evaluation fails, and the text that says so
* `Formula.eval`, `evaluateExpression`: the value of an expression
* `evaluate`: the value of a template
* `render`: the text of a template
* `evaluateCondition`: the truth of a condition
-/

namespace WorkflowEngine.Template

/-- Why an evaluation fails. -/
inductive EvalError where
  /-- The engine could not evaluate an operand. -/
  | operand (text : String) (fault : Expr.Fault)
  /-- A placeholder has no end. -/
  | unterminated (template : String)
  /-- The context is not an object. -/
  | contextNotObject
deriving Repr

/-- The text that says why an evaluation fails. -/
def EvalError.message : EvalError → String
  | .operand text fault =>
    "expression evaluation failed: '" ++ text ++ "': " ++ fault.message
  | .unterminated template =>
    "expression evaluation failed: unterminated placeholder in '" ++ template ++ "'"
  | .contextNotObject => "invalid context: context must be a JSON object"

mutual
/-- The value of a formula. A failing alternative counts as null; if none is true, the last one is
the value. -/
def Formula.eval (engine : Expr.Engine) (context : Json) : Formula → Except EvalError Json
  | .nothing => .ok .null
  | .choice c t f => do
    if (← Formula.eval engine context c).truth then Formula.eval engine context t
    else Formula.eval engine context f
  | .firstTrue alternatives => .ok (firstTrue engine context .null alternatives)
  | .operand text =>
    match engine text context with
    | .ok v => .ok v
    | .error fault => .error (.operand text fault)

/-- The first true value of several formulas, or the value of the last one. -/
def firstTrue (engine : Expr.Engine) (context : Json) (last : Json) : List Formula → Json
  | [] => last
  | f :: fs =>
    let v := match Formula.eval engine context f with
      | .ok v => v
      | .error _ => .null
    if v.truth then v else firstTrue engine context v fs
end

variable (engine : Expr.Engine)

/-- The value of an expression. -/
def expressionValue (cs : List Char) (context : Json) : Except EvalError Json :=
  (Formula.ofChars cs).eval engine context

/-- Evaluation needs an object as context. -/
def inObject {α : Type} (context : Json) (result : Except EvalError α) : Except EvalError α :=
  if context.isObj then result else .error .contextNotObject

/-- The value of an expression. -/
def evaluateExpression (text : String) (context : Json) : Except EvalError Json :=
  inObject context (expressionValue engine text.toList context)

/-- The text of a segment. -/
def segmentText (context : Json) : Segment → Except EvalError String
  | .literal cs => .ok (String.ofList cs)
  | .placeholder body => (expressionValue engine body context).map Json.display

/-- The texts of segments, joined. -/
def segmentTexts (context : Json) : List Segment → Except EvalError String
  | [] => .ok ""
  | s :: rest => do
    let text ← segmentText engine context s
    return text ++ (← segmentTexts context rest)

/-- The segments of a template, or why it has none. -/
def segmentsOf (cs : List Char) : Except EvalError (List Segment) :=
  match Segment.ofChars? cs with
  | some segments => .ok segments
  | none => .error (.unterminated (String.ofList cs))

/-- The value of a template. -/
def evaluate (template : String) (context : Json) : Except EvalError Json :=
  inObject context <|
    let cs := Text.trimmed template.toList
    if hasPlaceholder cs then do
      match ← segmentsOf cs with
      | [.placeholder body] => expressionValue engine body context
      | segments => return .str (← segmentTexts engine context segments)
    else .ok (.str template)

/-- The text of a template. -/
def render (template : String) (context : Json) : Except EvalError String :=
  (evaluate engine template context).map Json.display

/-- The characters of a segment inside a larger expression. -/
def inlinedSegment : Segment → List Char
  | .literal cs => cs
  | .placeholder body => '(' :: body ++ [')']

/-- The larger expression that placeholders stand in. -/
def inlined (segments : List Segment) : List Char := segments.flatMap inlinedSegment

/-- The truth of a condition. Placeholders with text around them are taken as parts of one
expression; where that cannot be evaluated, the rendered text decides. -/
def evaluateCondition (template : String) (context : Json) : Except EvalError Bool :=
  inObject context <|
    let cs := Text.trimmed template.toList
    if hasPlaceholder cs then do
      match ← segmentsOf cs with
      | [.placeholder body] => return (← expressionValue engine body context).truth
      | segments =>
        match expressionValue engine (inlined segments) context with
        | .ok v => return v.truth
        | .error _ => return Text.truth (← render engine (String.ofList cs) context)
    else do return (← expressionValue engine cs context).truth

end WorkflowEngine.Template
