import WorkflowEngine.Proofs.Data.Ids
import WorkflowEngine.Proofs.Document.RoundTrip
import WorkflowEngine.Record.Format

/-!
# Records of runs as values, and back

A record of a run is read back from its value but for one thing. A result that is null is written,
as a field that is null, and a reader takes such a field for one that is absent. So a record is the
same again if and only if no result in it is null.

## Main definitions

* `StepResult.IsProper`, `Execution.IsProper`: records whose numbers fit into their words
* `Execution.withoutNulls`: the record without the results that are null

## Main results

* `Execution.ofDatum?_toJson`: what a record is read back as
* `Execution.read_write`: which records are read back as themselves
-/

namespace WorkflowEngine

open Data

/-- A result whose value keeps to the rules of its type, and whose duration fits into a word. -/
structure StepResult.IsProper (r : StepResult) : Prop where
  result : ∀ v ∈ r.result, v.IsProper
  durationMs : r.durationMs < Bits.words 64

/-- A record whose id fits into its word, with proper results and points in time. -/
structure Execution.IsProper (e : Execution) : Prop where
  id : e.id.IsProper
  stepResults : ∀ r ∈ e.stepResults, r.IsProper
  startedAt : e.startedAt.IsProper
  updatedAt : e.updatedAt.IsProper
  completedAt : ∀ t ∈ e.completedAt, t.IsProper

/-- The value that is present, unless it is null. -/
def Json.unlessNull : Option Json → Option Json
  | some .null => none
  | v => v

/-- What a step has produced, where null is nothing. -/
def StepResult.withoutNull (r : StepResult) : StepResult :=
  { r with result := Json.unlessNull r.result }

/-- The record without the results that are null. -/
def Execution.withoutNulls (e : Execution) : Execution :=
  { e with stepResults := e.stepResults.map StepResult.withoutNull }

theorem Json.unlessNull_eq_self_iff {v : Option Json} : unlessNull v = v ↔ v ≠ some .null := by
  cases v with
  | none => exact ⟨nofun, fun _ => rfl⟩
  | some v =>
    cases v with
    | null => exact ⟨nofun, fun h => absurd rfl h⟩
    | bool | num | str | arr | obj => exact ⟨nofun, fun _ => rfl⟩

theorem StepResult.withoutNull_eq_self_iff {r : StepResult} :
    r.withoutNull = r ↔ r.result ≠ some .null := by
  rw [← Json.unlessNull_eq_self_iff]
  constructor
  · exact congrArg StepResult.result
  · intro h
    rw [withoutNull, h]

theorem StepResult.map_withoutNull_eq_self_iff {rs : List StepResult} :
    rs.map withoutNull = rs ↔ ∀ r ∈ rs, r.result ≠ some .null := by
  induction rs with
  | nil => exact ⟨fun _ => nofun, fun _ => rfl⟩
  | cons r rs ih =>
    rw [List.map_cons, List.cons.injEq, withoutNull_eq_self_iff, ih, List.forall_mem_cons]

theorem Execution.withoutNulls_eq_self_iff {e : Execution} :
    e.withoutNulls = e ↔ ∀ r ∈ e.stepResults, r.result ≠ some .null := by
  rw [← StepResult.map_withoutNull_eq_self_iff]
  constructor
  · exact congrArg Execution.stepResults
  · intro h
    rw [withoutNulls, h]

/-! ### Fields -/

namespace Data.Fields

variable {f : Fields} {name : String}

/-- A field that may be null is read back as absent if it is. -/
theorem optional_unlessNull {a : Option Json} (hproper : ∀ v ∈ a, v.IsProper)
    (h : f.lookup name = a.map .ofJson) :
    f.optional name Datum.json? = some (Json.unlessNull a) := by
  cases a with
  | none => rw [Fields.optional, h]; rfl
  | some v =>
    by_cases hnull : v = .null
    · subst hnull
      rw [Fields.optional, h]
      rfl
    · have hkeep : Json.unlessNull (some v) = some v :=
        Json.unlessNull_eq_self_iff.mpr fun he => hnull (Option.some.inj he)
      have hread : (Datum.ofJson v).json? = some v := Datum.json?_ofJson (hproper v rfl)
      rw [hkeep, Fields.optional, h]
      simp [Datum.optional, Datum.isPresent?_ofJson hnull, hread]

end Data.Fields

theorem StepStatus.ofDatum?_name (s : StepStatus) : ofDatum? (.ofJson (.str s.name)) = some s := by
  cases s <;> rfl

theorem Status.ofDatum?_name (s : Status) : ofDatum? (.ofJson (.str s.name)) = some s := by
  cases s <;> rfl

theorem Uuid.ofDatum?_text {u : Uuid} (h : u.IsProper) :
    ofDatum? (.ofJson (.str u.text)) = some u := by
  rw [Datum.ofJson, ofDatum?, Datum.text?, Option.bind_some, ofText?_text h]

/-! ### What is written is a value -/

/-- The names of the fields of a result, in their order. -/
def StepResult.fieldNames : List String := ["stepId", "status", "result", "error", "durationMs"]

/-- The fields of a result as an object. -/
def StepResult.jsonFields (r : StepResult) : List (String × Option Json) :=
  [("stepId", some (.str r.stepId)), ("status", some (.str r.status.name)), ("result", r.result),
    ("error", r.error.map .str), ("durationMs", some (.ofNat r.durationMs))]

theorem StepResult.toJson_eq (r : StepResult) : r.toJson = .ofFields? r.jsonFields := rfl

/-- The names of the fields of a record, in their order. -/
def Execution.fieldNames : List String :=
  ["executionId", "workflowId", "workItemId", "status", "currentStepId", "stepResults",
    "branchName", "error", "startedAt", "updatedAt", "completedAt"]

/-- The fields of a record as an object. -/
def Execution.jsonFields (e : Execution) : List (String × Option Json) :=
  [("executionId", some (.str e.id.text)), ("workflowId", some (.str e.workflowId)),
    ("workItemId", some (.str e.workItemId)), ("status", some (.str e.status.name)),
    ("currentStepId", e.currentStepId.map .str),
    ("stepResults", some (.arr (e.stepResults.map StepResult.toJson))),
    ("branchName", e.branchName.map .str), ("error", e.error.map .str),
    ("startedAt", some (.str e.startedAt.text)), ("updatedAt", some (.str e.updatedAt.text)),
    ("completedAt", e.completedAt.map fun t => .str t.text)]

theorem Execution.toJson_eq (e : Execution) : e.toJson = .ofFields? e.jsonFields := rfl

theorem StepResult.isProper_toJson {r : StepResult} (h : r.IsProper) : r.toJson.IsProper := by
  rw [toJson_eq]
  refine Json.isProper_ofFields? ?_
  simp only [jsonFields, List.forall_mem_cons]
  refine ⟨?_, ?_, h.result, isProper_text, ?_, nofun⟩
  · rintro _ ⟨⟩
    exact .str _
  · rintro _ ⟨⟩
    exact .str _
  · rintro _ ⟨⟩
    exact Json.isProper_ofInt (Json.inRange_of_lt h.durationMs)

theorem Execution.isProper_toJson {e : Execution} (h : e.IsProper) : e.toJson.IsProper := by
  have htext : ∀ s : String, ∀ v ∈ some (Json.str s), v.IsProper := by
    rintro s _ ⟨⟩
    exact .str s
  rw [toJson_eq]
  refine Json.isProper_ofFields? ?_
  simp only [jsonFields, List.forall_mem_cons]
  refine ⟨htext _, htext _, htext _, htext _, isProper_text, ?_, isProper_text, isProper_text,
    htext _, htext _, Json.isProper_map fun _ _ => .str _, nofun⟩
  rintro _ ⟨⟩
  refine .arr fun v hv => ?_
  obtain ⟨r, hr, rfl⟩ := List.mem_map.mp hv
  exact StepResult.isProper_toJson (h.stepResults r hr)

/-! ### What is written is read back -/

/-- **What a result is read back as.** -/
theorem StepResult.ofDatum?_toJson {r : StepResult} (h : r.IsProper) :
    ofDatum? (.ofJson r.toJson) = some r.withoutNull := by
  have hnames : fieldNames.Nodup := by decide
  obtain ⟨f, hf, hlookup, -⟩ := Datum.fields?_ofFields? r.jsonFields hnames fieldNames
  rw [fieldNames] at hf
  have hstepId : f.required "stepId" Datum.text? = some r.stepId :=
    Fields.required_of_lookup (v := .str r.stepId) (hlookup _ (by decide)) rfl
  have hstatus : f.required "status" StepStatus.ofDatum? = some r.status :=
    Fields.required_of_lookup (v := .str r.status.name) (hlookup _ (by decide))
      (StepStatus.ofDatum?_name r.status)
  have hresult : f.optional "result" Datum.json? = some (Json.unlessNull r.result) :=
    Fields.optional_unlessNull h.result (hlookup _ (by decide))
  have herror : f.optional "error" Datum.text? = some r.error :=
    Fields.optional_text (hlookup _ (by decide))
  have hduration : f.withDefault "durationMs" 0 wordOfDatum? = some r.durationMs := by
    have hlookup : f.lookup "durationMs" = (some (Json.ofNat r.durationMs)).map .ofJson :=
      hlookup _ (by decide)
    refine Fields.withDefault_of_lookup hlookup (fun h => absurd h (Option.some_ne_none _)) ?_
    rintro _ ⟨⟩
    exact Fields.nat?_ofJson (Nat.le_refl _) h.durationMs
  rw [toJson_eq, ofDatum?]
  refine Option.bind_eq_some_iff.mpr ⟨f, hf, ?_⟩
  simp only [hstepId, hstatus, hresult, herror, hduration]
  rfl

/-- **What a record is read back as.** -/
theorem Execution.ofDatum?_toJson {e : Execution} (h : e.IsProper) :
    ofDatum? (.ofJson e.toJson) = some e.withoutNulls := by
  have hnames : fieldNames.Nodup := by decide
  obtain ⟨f, hf, hlookup, -⟩ := Datum.fields?_ofFields? e.jsonFields hnames fieldNames
  rw [fieldNames] at hf
  have hid : f.required "executionId" Uuid.ofDatum? = some e.id :=
    Fields.required_of_lookup (v := .str e.id.text) (hlookup _ (by decide))
      (Uuid.ofDatum?_text h.id)
  have hworkflow : f.required "workflowId" Datum.text? = some e.workflowId :=
    Fields.required_of_lookup (v := .str e.workflowId) (hlookup _ (by decide)) rfl
  have hitem : f.required "workItemId" Datum.text? = some e.workItemId :=
    Fields.required_of_lookup (v := .str e.workItemId) (hlookup _ (by decide)) rfl
  have hstatus : f.required "status" Status.ofDatum? = some e.status :=
    Fields.required_of_lookup (v := .str e.status.name) (hlookup _ (by decide))
      (Status.ofDatum?_name e.status)
  have hcurrent : f.optional "currentStepId" Datum.text? = some e.currentStepId :=
    Fields.optional_text (hlookup _ (by decide))
  have hresults : f.withDefault "stepResults" [] (readList StepResult.ofDatum?) =
      some (e.stepResults.map StepResult.withoutNull) := by
    have hlookup : f.lookup "stepResults" =
        (some (Json.arr (e.stepResults.map StepResult.toJson))).map .ofJson :=
      hlookup _ (by decide)
    refine Fields.withDefault_of_lookup hlookup (fun h => absurd h (Option.some_ne_none _)) ?_
    rintro _ ⟨⟩
    rw [readList, Datum.items?_ofJson_arr, List.map_map]
    exact mapM_map fun r hr => StepResult.ofDatum?_toJson (h.stepResults r hr)
  have hbranch : f.optional "branchName" Datum.text? = some e.branchName :=
    Fields.optional_text (hlookup _ (by decide))
  have herror : f.optional "error" Datum.text? = some e.error :=
    Fields.optional_text (hlookup _ (by decide))
  have hstarted : f.required "startedAt" Timestamp.ofDatum? = some e.startedAt :=
    Fields.required_of_lookup (v := .str e.startedAt.text) (hlookup _ (by decide))
      (Timestamp.ofDatum?_text h.startedAt)
  have hupdated : f.required "updatedAt" Timestamp.ofDatum? = some e.updatedAt :=
    Fields.required_of_lookup (v := .str e.updatedAt.text) (hlookup _ (by decide))
      (Timestamp.ofDatum?_text h.updatedAt)
  have hcompleted : f.optional "completedAt" Timestamp.ofDatum? = some e.completedAt :=
    Fields.optional_time h.completedAt (hlookup _ (by decide))
  rw [toJson_eq, ofDatum?]
  refine Option.bind_eq_some_iff.mpr ⟨f, hf, ?_⟩
  simp only [hid, hworkflow, hitem, hstatus, hcurrent, hresults, hbranch, herror, hstarted,
    hupdated, hcompleted]
  rfl

/-- **Which records are read back as themselves**: those without a result that is null. Of the
others everything is read back but these results, which are then absent. -/
theorem Execution.read_write {e : Execution} (h : e.IsProper) :
    e.toJson.IsProper ∧ ofDatum? (.ofJson e.toJson) = some e.withoutNulls ∧
      (ofDatum? (.ofJson e.toJson) = some e ↔ ∀ r ∈ e.stepResults, r.result ≠ some .null) := by
  refine ⟨isProper_toJson h, ofDatum?_toJson h, ?_⟩
  rw [ofDatum?_toJson h, Option.some.injEq, withoutNulls_eq_self_iff]

/-- The record of a run whose step `a` was done with a value, and whose step `b` failed. -/
def Execution.withResult (v : Json) : Execution :=
  { Execution.start ⟨5⟩ "w" "i" ⟨1704067200, 0⟩ with
    stepResults := [.completed "a" v 5, .failed "b" "no" 7] }

theorem Execution.isProper_withResult {v : Json} (h : v.IsProper) : (withResult v).IsProper := by
  have hid : 5 < Bits.words 128 := by decide
  have htime : Timestamp.IsProper ⟨1704067200, 0⟩ := ⟨by decide, by decide, by decide⟩
  have hfive : 5 < Bits.words 64 := by decide
  have hseven : 7 < Bits.words 64 := by decide
  refine ⟨hid, ?_, htime, htime, nofun⟩
  simp only [withResult, List.forall_mem_cons]
  refine ⟨⟨?_, hfive⟩, ⟨nofun, hseven⟩, nofun⟩
  rintro _ ⟨⟩
  exact h

theorem Execution.read_write_withResult :
    (withResult (.bool true)).IsProper ∧ (withResult (.bool true)).toJson.IsProper ∧
      ofDatum? (.ofJson (withResult (.bool true)).toJson) =
        some (withResult (.bool true)).withoutNulls ∧
      (ofDatum? (.ofJson (withResult (.bool true)).toJson) = some (withResult (.bool true)) ↔
        ∀ r ∈ (withResult (.bool true)).stepResults, r.result ≠ some .null) :=
  have h := isProper_withResult (.bool true)
  ⟨h, read_write h⟩

/-- A result that is null is lost. -/
theorem Execution.null_is_lost :
    ofDatum? (.ofJson (withResult .null).toJson) ≠ some (withResult .null) := by
  rw [ofDatum?_toJson (isProper_withResult .null), Ne, Option.some.injEq, withoutNulls_eq_self_iff]
  intro h
  exact h (.completed "a" .null 5) (List.mem_cons_self ..) rfl

end WorkflowEngine
