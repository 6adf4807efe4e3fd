import WorkflowEngine.Data.Fields
import WorkflowEngine.Document.Basic
import WorkflowEngine.Json.Reader
import WorkflowEngine.Yaml.Reader

/-!
# Reading workflow documents

## Main definitions

* `StepNode.ofDatum?`, `Document.ofDatum?`: documents from data
* `Document.ofJson?`, `Document.ofYaml?`: documents from texts
-/

namespace WorkflowEngine

open Data

/-- A point in time from data. -/
def Timestamp.ofDatum? (d : Datum) : Option Timestamp := d.text?.bind Timestamp.ofText?

/-- A parameter from data. -/
def ParameterNode.ofDatum? (d : Datum) : Option ParameterNode := do
  let f ← d.fields? ["type", "description", "default", "required"]
  return {
    type := ← f.optional "type" Datum.text?
    description := ← f.optional "description" Datum.text?
    default := ← f.optional "default" Datum.json?
    required := ← f.optional "required" Datum.bool? }

/-- The names of the fields of a step, in their order. -/
def StepNode.fieldNames : List String :=
  ["id", "type", "name", "timeout", "retryCount", "continueOnError", "action", "config", "model",
    "prompt", "condition", "if", "else", "switch", "default", "loopType", "maxIterations",
    "breakOn", "onError", "steps", "maxConcurrency", "failFast"]

/-- The fields of a step that hold no steps. -/
def StepFields.ofFields? (f : Fields) : Option StepFields := do
  return {
    id := ← f.optional "id" Datum.text?
    type := ← f.optional "type" Datum.text?
    name := ← f.optional "name" Datum.text?
    timeout := ← f.optional "timeout" (Datum.nat? (Bits.words 64))
    retryCount := ← f.optional "retryCount" (Datum.nat? (Bits.words 32))
    continueOnError := ← f.optional "continueOnError" Datum.bool?
    action := ← f.optional "action" Datum.text?
    config := ← f.withDefault "config" [] (readDict Datum.json?)
    model := ← f.optional "model" Datum.text?
    prompt := ← f.optional "prompt" Datum.text?
    condition := ← f.optional "condition" Datum.text?
    loopType := ← f.optional "loopType" Datum.text?
    maxIterations := ← f.optional "maxIterations" Datum.json?
    breakOn := ← f.optional "breakOn" Datum.text?
    onError := ← f.optional "onError" Datum.text?
    maxConcurrency := ← f.optional "maxConcurrency" Datum.int?
    failFast := ← f.optional "failFast" Datum.bool? }

/-- A step from data in which at most `depth` lists and records are nested. -/
def StepNode.ofDatumWithin? (depth : Nat) (d : Datum) : Option StepNode :=
  match depth with
  | 0 => none
  | depth + 1 => do
    let f ← d.fields? StepNode.fieldNames
    let steps := readList (StepNode.ofDatumWithin? depth)
    return .mk (← StepFields.ofFields? f) (← f.optional "if" steps) (← f.optional "else" steps)
      (← f.optional "switch" (readDict steps)) (← f.optional "default" steps)
      (← f.optional "steps" steps)

/-- A step from data. -/
def StepNode.ofDatum? (d : Datum) : Option StepNode := StepNode.ofDatumWithin? (d.depth + 1) d

/-- The names of the fields of a document, in their order. -/
def Document.fieldNames : List String :=
  ["id", "name", "description", "version", "extends", "abstract", "reusable", "parameters",
    "variables", "steps", "metadata", "createdAt", "updatedAt"]

/-- A document from data. -/
def Document.ofDatum? (d : Datum) : Option Document := do
  let f ← d.fields? Document.fieldNames
  return {
    id := ← f.optional "id" Datum.text?
    name := ← f.optional "name" Datum.text?
    description := ← f.optional "description" Datum.text?
    version := ← f.optional "version" Datum.text?
    parent := ← f.optional "extends" Datum.text?
    isAbstract := ← f.optional "abstract" Datum.bool?
    reusable := ← f.optional "reusable" Datum.bool?
    parameters := ← f.withDefault "parameters" [] (readDict ParameterNode.ofDatum?)
    vars := ← f.withDefault "variables" [] (readDict Datum.json?)
    steps := ← f.withDefault "steps" [] (readList StepNode.ofDatum?)
    metadata := ← f.withDefault "metadata" [] (readDict Datum.json?)
    createdAt := ← f.optional "createdAt" Timestamp.ofDatum?
    updatedAt := ← f.optional "updatedAt" Timestamp.ofDatum? }

/-- The deepest nesting of a Json document that is readable. -/
def Document.jsonDepth : Nat := 127

/-- A document from Json text. -/
def Document.ofJson? (s : String) : Option Document := do
  Document.ofDatum? ((← Json.readDatum s).cut Document.jsonDepth)

/-- A document from Yaml text. -/
def Document.ofYaml? (s : String) : Option Document := do
  Document.ofDatum? (← Yaml.read s)

end WorkflowEngine
