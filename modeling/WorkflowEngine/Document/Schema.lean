import WorkflowEngine.Json.Basic

/-!
# The schema of workflow documents

What a workflow document may look like, as a Json Schema.

## Main definitions

* `Document.schema`: the schema
-/

namespace WorkflowEngine.Document.Schema

/-- A schema with a description. -/
def described (text : String) (fields : List (String × Json)) : List (String × Json) :=
  ("description", .str text) :: fields

/-- Values of a type, or nothing. -/
def optional (type : String) (fields : List (String × Json) := []) : List (String × Json) :=
  ("type", .arr [.str type, .str "null"]) :: fields

/-- Whole numbers of a format, or nothing. -/
def number (format : String) (fields : List (String × Json) := []) : List (String × Json) :=
  optional "integer" (("format", .str format) :: fields)

/-- Numbers that are not negative, or nothing. -/
def natural (format : String) : List (String × Json) :=
  number format [("minimum", Json.ofNat 0)]

/-- A part of the schema that is defined apart. -/
def reference (name : String) : Json := .ofFields [("$ref", .str ("#/$defs/" ++ name))]

/-- Lists of steps. -/
def steps : List (String × Json) := [("items", reference "StepNode")]

/-- Records with values of a kind. -/
def records (values : Json) : List (String × Json) :=
  [("type", .str "object"), ("additionalProperties", values)]

/-- Records with any values. -/
def anyRecords : List (String × Json) := records (.bool true)

/-- Records with the given fields. -/
def properties (fields : List (String × List (String × Json))) : List (String × Json) :=
  [("type", .str "object"),
    ("properties", .ofFields (fields.map fun (name, f) => (name, .ofFields f)))]

/-- The description of parameters. -/
def parameter : Json :=
  let fields := properties [
    ("description", optional "string"),
    ("required", optional "boolean"),
    ("type", described "One of `string`, `number`, `boolean`, `object`, `array`."
      (optional "string"))]
  .ofFields <| described "A declared workflow parameter." <|
    fields.map fun (name, v) =>
      match name, v with
      | "properties", .obj known => (name, .obj (Dict.insert known "default" (.bool true)))
      | _, _ => (name, v)

/-- The text that describes steps. -/
def stepText : String :=
  "One step as authored. Which fields are meaningful depends on `type`.\n\n```yaml\n" ++
    "- id: review-loop\n  type: loop\n  loopType: retry\n  maxIterations: 3\n  steps:\n" ++
    "    - id: run-tests\n      type: command\n      action: shell.run\n      config:\n" ++
    "        command: cargo test\n```"

/-- The description of steps. -/
def step : Json :=
  .ofFields <| described stepText <| properties [
    ("action", optional "string"),
    ("breakOn", optional "string"),
    ("condition", optional "string"),
    ("config", anyRecords),
    ("continueOnError", optional "boolean"),
    ("default", optional "array" steps),
    ("else", optional "array" steps),
    ("failFast", optional "boolean"),
    ("id", optional "string"),
    ("if", optional "array" steps),
    ("loopType", optional "string"),
    ("maxConcurrency", number "int64"),
    ("maxIterations", described "A number or an expression string." []),
    ("model", optional "string"),
    ("name", optional "string"),
    ("onError", optional "string"),
    ("prompt", optional "string"),
    ("retryCount", natural "uint32"),
    ("steps", optional "array" steps),
    ("switch", optional "object"
      [("additionalProperties", .ofFields (("type", .str "array") :: steps))]),
    ("timeout", described "Per-call timeout in seconds." (natural "uint64")),
    ("type", optional "string")]

/-- The address of the language that the schema is written in. -/
def dialect : String :=
  "https:" ++ "/".intercalate ["", "", "json-schema.org", "draft", "2020-12", "schema"]

end Schema

open Schema

/-- The schema of workflow documents. -/
def schema : Json :=
  .ofFields <| [
    ("$schema", .str dialect),
    ("title", .str "WorkflowDocument"),
    ("$defs", .ofFields [("ParameterNode", parameter), ("StepNode", step)])] ++
    described "A workflow as authored on disk or submitted through an API." (properties [
      ("abstract", described "Template-only workflows cannot be executed directly."
        (optional "boolean")),
      ("createdAt", optional "string"),
      ("description", optional "string"),
      ("extends", described "Id of the parent workflow this one inherits steps from."
        (optional "string")),
      ("id", optional "string"),
      ("metadata", anyRecords),
      ("name", optional "string"),
      ("parameters", records (reference "ParameterNode")),
      ("reusable", optional "boolean"),
      ("steps", [("type", .str "array"), ("default", .arr [])] ++ steps),
      ("updatedAt", optional "string"),
      ("variables",
        described "Literal values or `\x7b\x7b \x7d\x7d` templates resolved at run start."
          anyRecords),
      ("version", described "Semantic version string (e.g. \"1.2.0\")." (optional "string"))])

end WorkflowEngine.Document
