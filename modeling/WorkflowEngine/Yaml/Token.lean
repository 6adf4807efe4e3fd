import WorkflowEngine.Data.Datum

/-!
# Tokens of Yaml texts

## Main definitions

* `Token`: what a text consists of: directives, marks, properties of nodes and scalars
* `TagName`: a tag as written, with a handle and a suffix
-/

namespace WorkflowEngine.Yaml

open Data

/-- A tag as written. The handle is an abbreviation for the beginning of the tag. -/
structure TagName where
  handle : String
  suffix : String
deriving Repr, DecidableEq

/-- What a text consists of. -/
inductive Token where
  | version (major minor : Nat)
  | tagDirective (handle tagBegin : String)
  | documentStart
  | documentEnd
  | blockSequenceStart
  | blockMappingStart
  | blockEnd
  | flowSequenceStart
  | flowSequenceEnd
  | flowMappingStart
  | flowMappingEnd
  | blockEntry
  | flowEntry
  | key
  | value
  | alias (name : String)
  | anchor (name : String)
  | tag (name : TagName)
  | scalar (text : String) (style : Style)
deriving Repr, DecidableEq

end WorkflowEngine.Yaml
