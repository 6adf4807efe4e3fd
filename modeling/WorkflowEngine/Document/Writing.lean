import WorkflowEngine.Data.Datum
import WorkflowEngine.Document.Basic

/-!
# Writing workflow documents

A document is written as a record of the fields that are present, in a fixed order.

## Main definitions

* `StepNode.toDatum`, `Document.toDatum`: documents as data
* `Document.toJson`: a document as a value
-/

namespace WorkflowEngine

namespace Data

/-- A field that is present, under its name. -/
def field (name : String) (value : Option Datum) : List (Datum × Datum) :=
  match value with
  | some d => [(.text name, d)]
  | none => []

/-- A field with a text. -/
def textField (name : String) (value : Option String) : List (Datum × Datum) :=
  field name (value.map .text)

/-- A field with a truth value. -/
def boolField (name : String) (value : Option Bool) : List (Datum × Datum) :=
  field name (value.map .bool)

/-- A record of the values under their keys. -/
def recordOf {α : Type} (write : α → Datum) (d : Dict α) : Datum :=
  .record (d.map fun (k, v) => (.text k, write v))

/-- A field with a record, unless that is empty. -/
def recordField {α : Type} (name : String) (write : α → Datum) (d : Dict α) :
    List (Datum × Datum) :=
  field name (if d.isEmpty then none else some (recordOf write d))

end Data

open Data

/-- A parameter as data. -/
def ParameterNode.toDatum (p : ParameterNode) : Datum :=
  .record <|
    textField "type" p.type ++ textField "description" p.description ++
      field "default" (p.default.map .ofJson) ++ boolField "required" p.required

namespace StepNode

mutual
/-- A step as data. -/
def toDatum : StepNode → Datum
  | .mk f ifSteps elseSteps cases defaultSteps steps =>
    .record <|
      textField "id" f.id ++ textField "type" f.type ++ textField "name" f.name ++
        field "timeout" (f.timeout.map fun n => .int n) ++
        field "retryCount" (f.retryCount.map fun n => .int n) ++
        boolField "continueOnError" f.continueOnError ++
        textField "action" f.action ++ recordField "config" .ofJson f.config ++
        textField "model" f.model ++ textField "prompt" f.prompt ++
        textField "condition" f.condition ++
        field "if" (listDatum? ifSteps) ++ field "else" (listDatum? elseSteps) ++
        field "switch" (casesDatum? cases) ++ field "default" (listDatum? defaultSteps) ++
        textField "loopType" f.loopType ++ field "maxIterations" (f.maxIterations.map .ofJson) ++
        textField "breakOn" f.breakOn ++ textField "onError" f.onError ++
        field "steps" (listDatum? steps) ++
        field "maxConcurrency" (f.maxConcurrency.map .int) ++ boolField "failFast" f.failFast

/-- Steps that are present as data. -/
def listDatum? : Option (List StepNode) → Option Datum
  | none => none
  | some steps => some (.list (listData steps))

/-- Cases that are present as data. -/
def casesDatum? : Option (List (String × List StepNode)) → Option Datum
  | none => none
  | some cases => some (.record (casesData cases))

/-- Steps as data. -/
def listData : List StepNode → List Datum
  | [] => []
  | s :: ss => toDatum s :: listData ss

/-- Cases as data. -/
def casesData : List (String × List StepNode) → List (Datum × Datum)
  | [] => []
  | (k, steps) :: cs => (.text k, .list (listData steps)) :: casesData cs
end

end StepNode

/-- A document as data. -/
def Document.toDatum (d : Document) : Datum :=
  .record <|
    textField "id" d.id ++ textField "name" d.name ++ textField "description" d.description ++
      textField "version" d.version ++ textField "extends" d.parent ++
      boolField "abstract" d.isAbstract ++ boolField "reusable" d.reusable ++
      recordField "parameters" ParameterNode.toDatum d.parameters ++
      recordField "variables" .ofJson d.vars ++
      [(.text "steps", .list (StepNode.listData d.steps))] ++
      recordField "metadata" .ofJson d.metadata ++
      textField "createdAt" (d.createdAt.map Timestamp.text) ++
      textField "updatedAt" (d.updatedAt.map Timestamp.text)

/-- A document as a value. -/
def Document.toJson (d : Document) : Json := d.toDatum.toJson

end WorkflowEngine
