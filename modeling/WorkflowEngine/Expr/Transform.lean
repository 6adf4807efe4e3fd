import WorkflowEngine.Expr.Truth
import WorkflowEngine.Text.Search

/-!
# Transforms

The named functions that a subject can be piped through. The first argument is the subject. A
transform never fails: what is no text where one is expected counts as the empty text.

## Main definitions

* `transform? name`: the transform with a name
-/

namespace WorkflowEngine.Expr

/-- The argument at a position as a text, or a default for anything else. -/
def textArg (args : List Json) (i : Nat) (default : String) : String :=
  match args[i]? with
  | some (.str s) => s
  | _ => default

/-- The subject holds something: an array an element, a text another text. -/
def containsArg : List Json → Bool
  | .arr items :: needle :: _ => items.any (· == needle)
  | .str s :: .str needle :: _ => Text.contains s needle
  | _ => false

/-- The number of characters, elements or fields of a value. -/
def lengthOf : Json → Nat
  | .str s => s.length
  | .arr items => items.length
  | .obj fields => fields.length
  | _ => 0

/-- The subject, or a fallback for null and the empty text. -/
def orDefault (args : List Json) : Json :=
  let fallback := args.getD 1 .null
  match args.getD 0 .null with
  | .null => fallback
  | .str s => if s.isEmpty then fallback else .str s
  | v => v

/-- The transform with a name. -/
def transform? (name : String) : Option (List Json → Json) :=
  match name with
  | "lower" => some fun args => .str (Text.lower (textArg args 0 ""))
  | "upper" => some fun args => .str (Text.upper (textArg args 0 ""))
  | "trim" => some fun args => .str (Text.trim (textArg args 0 ""))
  | "split" => some fun args =>
    .arr ((Text.split (textArg args 0 "") (textArg args 1 ",")).map .str)
  | "not" => some fun args => .bool !(args.getD 0 .null).truth
  | "contains" => some fun args => .bool (containsArg args)
  | "startsWith" => some fun args =>
    .bool (Text.startsWith (textArg args 0 "") (textArg args 1 ""))
  | "endsWith" => some fun args => .bool (Text.endsWith (textArg args 0 "") (textArg args 1 ""))
  | "length" => some fun args => .num (.float (Float.ofNat (lengthOf (args.getD 0 .null))))
  | "default" => some orDefault
  | _ => none

end WorkflowEngine.Expr
