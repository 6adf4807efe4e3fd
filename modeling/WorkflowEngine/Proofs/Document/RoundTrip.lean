import WorkflowEngine.Document.Reading
import WorkflowEngine.Document.Writing
import WorkflowEngine.Proofs.Data.Instants
import WorkflowEngine.Proofs.Data.Values

/-!
# Documents as values, and back

What is read of a value is a proper document: its numbers fit into their words, its records are in
order, and nothing that may be absent is null. A proper document is the same again after it has been
written as a value and read.

## Main definitions

* `ParameterNode.IsProper`, `StepFields.IsProper`, `StepNode.IsProper`, `Document.IsProper`: what
  can be read of a value

## Main results

* `Document.isProper_of_ofDatum?`: what is read of a value is proper
* `Document.ofDatum?_toJson`: a proper document is read back from its value
* `Document.read_write_read`: what is read of a value is read again from what is written
-/

namespace WorkflowEngine

open Data

/-! ### What can be read -/

/-- A record of proper values. -/
structure Data.AreProper (d : Dict Json) : Prop where
  sorted : d.Sorted
  values : ∀ x ∈ d, x.2.IsProper

/-- A parameter that can be read of a value. -/
def ParameterNode.IsProper (p : ParameterNode) : Prop :=
  ∀ v ∈ p.default, v.IsProper ∧ v ≠ .null

/-- The fields of a step that can be read of a value. -/
structure StepFields.IsProper (f : StepFields) : Prop where
  timeout : ∀ n ∈ f.timeout, n < Bits.words 64
  retryCount : ∀ n ∈ f.retryCount, n < Bits.words 32
  config : AreProper f.config
  maxIterations : ∀ v ∈ f.maxIterations, v.IsProper ∧ v ≠ .null
  maxConcurrency : ∀ n ∈ f.maxConcurrency, Bits.isSigned 64 n = true

/-- A step that can be read of a value, with all that it holds. -/
inductive StepNode.IsProper : StepNode → Prop
  | mk {fields : StepFields} {ifSteps elseSteps defaultSteps steps : Option (List StepNode)}
    {cases : Option (Dict (List StepNode))} (own : fields.IsProper)
    (ifProper : ∀ l ∈ ifSteps, ∀ n ∈ l, IsProper n)
    (elseProper : ∀ l ∈ elseSteps, ∀ n ∈ l, IsProper n)
    (sorted : ∀ d ∈ cases, d.Sorted) (casesProper : ∀ d ∈ cases, ∀ x ∈ d, ∀ n ∈ x.2, IsProper n)
    (defaultProper : ∀ l ∈ defaultSteps, ∀ n ∈ l, IsProper n)
    (stepsProper : ∀ l ∈ steps, ∀ n ∈ l, IsProper n) :
    IsProper (.mk fields ifSteps elseSteps cases defaultSteps steps)

/-- A document that can be read of a value. -/
structure Document.IsProper (d : Document) : Prop where
  sorted : d.parameters.Sorted
  parameters : ∀ x ∈ d.parameters, x.2.IsProper
  vars : AreProper d.vars
  steps : ∀ n ∈ d.steps, n.IsProper
  metadata : AreProper d.metadata
  createdAt : ∀ t ∈ d.createdAt, t.IsProper
  updatedAt : ∀ t ∈ d.updatedAt, t.IsProper

/-! ### Numbers -/

theorem Json.inRange_of_lt {n : Nat} (h : n < Bits.words 64) : Number.inRange n = true := by
  have h63 : Bits.words 63 = 9223372036854775808 := rfl
  have h64 : Bits.words 64 = 18446744073709551616 := rfl
  rw [h64] at h
  simp only [Number.inRange, Bits.isWord, Nat.reduceSub, h63, h64, Bool.and_eq_true,
    decide_eq_true_eq, Int.negOfNat_eq, Int.ofNat_eq_natCast]
  omega

theorem Json.inRange_of_isSigned {n : Int} (h : Bits.isSigned 64 n = true) :
    Number.inRange n = true := by
  have h63 : Bits.words 63 = 9223372036854775808 := rfl
  have h64 : Bits.words 64 = 18446744073709551616 := rfl
  simp only [Number.inRange, Bits.isWord, Bits.isSigned, Nat.reduceSub, h63, h64, Bool.and_eq_true,
    decide_eq_true_eq, Int.negOfNat_eq, Int.ofNat_eq_natCast] at h ⊢
  omega

/-! ### What is read is proper -/

theorem Datum.nat?_lt {limit n : Nat} {d : Datum} (h : d.nat? limit = some n) : n < limit := by
  unfold Datum.nat? at h
  split at h
  · split at h
    next hn =>
      cases h
      simp only [Bool.and_eq_true, decide_eq_true_eq] at hn
      omega
    next => cases h
  · obtain ⟨s, -, h⟩ := Option.bind_eq_some_iff.mp h
    exact of_decide_eq_true (Option.filter_eq_some_iff.mp h).2

theorem Datum.isSigned_of_int? {n : Int} {d : Datum} (h : d.int? = some n) :
    Bits.isSigned 64 n = true := by
  unfold Datum.int? at h
  split at h
  · split at h
    next hn =>
      cases h
      exact hn
    next => cases h
  · obtain ⟨s, -, h⟩ := Option.bind_eq_some_iff.mp h
    exact (Option.filter_eq_some_iff.mp h).2

theorem Timestamp.isProper_of_ofDatum? {t : Timestamp} {d : Datum} (h : ofDatum? d = some t) :
    t.IsProper := by
  obtain ⟨s, -, h⟩ := Option.bind_eq_some_iff.mp h
  exact isProper_of_ofText? h

namespace Data.Fields

variable {f : Fields} {name : String}

theorem isProper_of_optional_json? {a : Option Json} (hf : ∀ x ∈ f, x.2.IsValue)
    (h : f.optional name Datum.json? = some a) : ∀ v ∈ a, v.IsProper ∧ v ≠ .null := by
  intro v hv
  obtain ⟨w, hw, hnull, hread⟩ := of_optional hf h v hv
  rw [Datum.json?_ofJson hw, Option.some.injEq] at hread
  subst hread
  exact ⟨hw, hnull⟩

theorem areProper_of_readDict {d : Dict Json} (hf : ∀ x ∈ f, x.2.IsValue)
    (h : f.withDefault name [] (readDict Datum.json?) = some d) : AreProper d := by
  rcases of_withDefault hf h with rfl | ⟨e, he, h⟩
  · exact ⟨List.Pairwise.nil, nofun⟩
  · obtain ⟨hsorted, hread⟩ := of_readDict he h
    refine ⟨hsorted, fun x hx => ?_⟩
    obtain ⟨v, hv, hx⟩ := hread x hx
    exact (hv.json? hx).1

end Data.Fields

theorem ParameterNode.isProper_of_ofDatum? {p : ParameterNode} {d : Datum} (hd : d.IsValue)
    (h : ofDatum? d = some p) : p.IsProper := by
  simp only [ofDatum?, Option.bind_eq_bind, Option.bind_eq_some_iff] at h
  obtain ⟨f, hf, _, -, _, -, default, hdefault, _, -, h⟩ := h
  cases h
  exact Fields.isProper_of_optional_json? (hd.fields? hf) hdefault

theorem StepFields.isProper_of_ofFields? {s : StepFields} {f : Fields}
    (hf : ∀ x ∈ f, x.2.IsValue) (h : ofFields? f = some s) : s.IsProper := by
  unfold ofFields? at h
  -- all of the seventeen fields have been read
  iterate 17 obtain ⟨_, _, h⟩ := Option.bind_eq_some_iff.mp h
  cases h
  refine ⟨fun n hn => ?_, fun n hn => ?_,
    Fields.areProper_of_readDict hf ‹f.withDefault "config" _ _ = _›,
    Fields.isProper_of_optional_json? hf ‹f.optional "maxIterations" _ = _›, fun n hn => ?_⟩
  · obtain ⟨v, -, -, hv⟩ := Fields.of_optional hf ‹f.optional "timeout" _ = _› n hn
    exact Datum.nat?_lt hv
  · obtain ⟨v, -, -, hv⟩ := Fields.of_optional hf ‹f.optional "retryCount" _ = _› n hn
    exact Datum.nat?_lt hv
  · obtain ⟨v, -, -, hv⟩ := Fields.of_optional hf ‹f.optional "maxConcurrency" _ = _› n hn
    exact Datum.isSigned_of_int? hv

namespace StepNode

/-- What is read of a field that holds steps is proper if all steps that are read are. -/
theorem isProper_of_optional {f : Fields} {name : String} {read : Datum → Option StepNode}
    {a : Option (List StepNode)} (hf : ∀ x ∈ f, x.2.IsValue)
    (hread : ∀ d n, d.IsValue → read d = some n → n.IsProper)
    (h : f.optional name (readList read) = some a) : ∀ l ∈ a, ∀ n ∈ l, n.IsProper := by
  intro l hl n hn
  obtain ⟨v, hv, -, hlist⟩ := Fields.of_optional hf h l hl
  obtain ⟨e, he, hn⟩ := of_mem_readList ⟨v, hv, rfl⟩ hlist n hn
  exact hread e n he hn

theorem isProper_of_ofDatumWithin? {depth : Nat} {d : Datum} {n : StepNode} (hd : d.IsValue)
    (h : ofDatumWithin? depth d = some n) : n.IsProper := by
  induction depth generalizing d n with
  | zero => cases h
  | succ depth ih =>
    simp only [ofDatumWithin?, Option.bind_eq_bind, Option.bind_eq_some_iff] at h
    obtain ⟨f, hf, fields, hfields, ifSteps, hif, elseSteps, helse, cases, hcases, defaultSteps,
      hdefault, steps, hsteps, h⟩ := h
    cases h
    have hvalues := hd.fields? hf
    have hread : ∀ d n, d.IsValue → ofDatumWithin? depth d = some n → n.IsProper :=
      fun _ _ => ih
    refine .mk (StepFields.isProper_of_ofFields? hvalues hfields)
      (isProper_of_optional hvalues hread hif) (isProper_of_optional hvalues hread helse) ?_ ?_
      (isProper_of_optional hvalues hread hdefault) (isProper_of_optional hvalues hread hsteps)
    · intro c hc
      obtain ⟨v, hv, -, hdict⟩ := Fields.of_optional hvalues hcases c hc
      exact (of_readDict ⟨v, hv, rfl⟩ hdict).1
    · intro c hc x hx n hn
      obtain ⟨v, hv, -, hdict⟩ := Fields.of_optional hvalues hcases c hc
      obtain ⟨e, he, hlist⟩ := (of_readDict ⟨v, hv, rfl⟩ hdict).2 x hx
      obtain ⟨e, he, hn⟩ := of_mem_readList he hlist n hn
      exact ih he hn

end StepNode

/-- **What is read of a value is proper.** -/
theorem Document.isProper_of_ofDatum? {doc : Document} {d : Datum} (hd : d.IsValue)
    (h : ofDatum? d = some doc) : doc.IsProper := by
  obtain ⟨f, hf, h⟩ := Option.bind_eq_some_iff.mp h
  -- all of the thirteen fields have been read
  iterate 7 obtain ⟨_, -, h⟩ := Option.bind_eq_some_iff.mp h
  obtain ⟨parameters, hparameters, h⟩ := Option.bind_eq_some_iff.mp h
  obtain ⟨vars, hvars, h⟩ := Option.bind_eq_some_iff.mp h
  obtain ⟨steps, hsteps, h⟩ := Option.bind_eq_some_iff.mp h
  obtain ⟨metadata, hmetadata, h⟩ := Option.bind_eq_some_iff.mp h
  obtain ⟨createdAt, hcreated, h⟩ := Option.bind_eq_some_iff.mp h
  obtain ⟨updatedAt, hupdated, h⟩ := Option.bind_eq_some_iff.mp h
  cases h
  have hvalues := hd.fields? hf
  have hparametersRead : Dict.Sorted parameters ∧ ∀ x ∈ parameters, x.2.IsProper := by
    rcases Fields.of_withDefault hvalues hparameters with rfl | ⟨e, he, h⟩
    · exact ⟨List.Pairwise.nil, nofun⟩
    · obtain ⟨hsorted, hread⟩ := of_readDict he h
      refine ⟨hsorted, fun x hx => ?_⟩
      obtain ⟨v, hv, hx⟩ := hread x hx
      exact ParameterNode.isProper_of_ofDatum? hv hx
  refine ⟨hparametersRead.1, hparametersRead.2, Fields.areProper_of_readDict hvalues hvars, ?_,
    Fields.areProper_of_readDict hvalues hmetadata, ?_, ?_⟩
  · intro n hn
    rcases Fields.of_withDefault hvalues hsteps with rfl | ⟨e, he, h⟩
    · cases hn
    · obtain ⟨e, he, hn⟩ := of_mem_readList he h n hn
      exact StepNode.isProper_of_ofDatumWithin? he hn
  · intro t ht
    obtain ⟨v, -, -, ht⟩ := Fields.of_optional hvalues hcreated t ht
    exact Timestamp.isProper_of_ofDatum? ht
  · intro t ht
    obtain ⟨v, -, -, ht⟩ := Fields.of_optional hvalues hupdated t ht
    exact Timestamp.isProper_of_ofDatum? ht

/-! ### What is written -/

namespace Datum

/-- The fields of a record as fields of an object. -/
theorem toJsonFields_append (es fs : List (Datum × Datum)) :
    toJsonFields (es ++ fs) = toJsonFields es ++ toJsonFields fs := by
  simp [toJsonFields_eq_map]

theorem toJsonFields_field (name : String) (value : Option Datum) :
    toJsonFields (field name value) =
      [(name, value.map toJson)].filterMap fun x => x.2.map (x.1, ·) := by
  cases value <;> rfl

/-- A record that is written unless it is empty. -/
def recordJson? {α : Type} (write : α → Datum) (d : Dict α) : Option Json :=
  if d.isEmpty then none else some (.obj (Dict.ofList (d.map fun x => (x.1, (write x.2).toJson))))

theorem toJsonFields_recordField {α : Type} (name : String) (write : α → Datum) (d : Dict α) :
    toJsonFields (recordField name write d) =
      [(name, recordJson? write d)].filterMap fun x => x.2.map (x.1, ·) := by
  rw [recordField, toJsonFields_field, recordJson?]
  split
  · rfl
  · rw [Option.map_some, recordOf, toJson, toJsonFields_eq_map, List.map_map]
    rfl

end Datum

open Datum

/-- The fields of a parameter as an object. -/
def ParameterNode.jsonFields (p : ParameterNode) : List (String × Option Json) :=
  [("type", p.type.map .str),
    ("description", p.description.map .str),
    ("default", p.default.map fun v => (ofJson v).toJson),
    ("required", p.required.map .bool)]

theorem ParameterNode.toJson_toDatum (p : ParameterNode) :
    p.toDatum.toJson = .ofFields? p.jsonFields := by
  simp only [ParameterNode.toDatum, toJson, textField, boolField, toJsonFields_append,
    toJsonFields_field, ← List.filterMap_append, List.cons_append, List.nil_append, Option.map_map]
  rfl

namespace StepNode

/-- Steps as a value. -/
def stepsJson (steps : List StepNode) : Json := .arr (steps.map fun n => n.toDatum.toJson)

/-- Cases as a value. -/
def casesJson (cases : Dict (List StepNode)) : Json :=
  .obj (Dict.ofList (cases.map fun x => (x.1, stepsJson x.2)))

theorem listData_eq_map (steps : List StepNode) : listData steps = steps.map toDatum := by
  induction steps with
  | nil => rfl
  | cons n steps ih => rw [listData, ih, List.map_cons]

theorem toJson_list (steps : List StepNode) :
    (Datum.list (listData steps)).toJson = stepsJson steps := by
  rw [toJson, toJsonItems_eq_map, listData_eq_map, List.map_map]
  rfl

theorem casesData_eq_map (cases : List (String × List StepNode)) :
    casesData cases = cases.map fun x => (.text x.1, .list (listData x.2)) := by
  induction cases with
  | nil => rfl
  | cons x cases ih => rw [casesData, ih, List.map_cons]

theorem map_toJson_listDatum? (steps : Option (List StepNode)) :
    (listDatum? steps).map toJson = steps.map stepsJson := by
  cases steps with
  | none => rfl
  | some steps => rw [listDatum?, Option.map_some, toJson_list, Option.map_some]

theorem map_toJson_casesDatum? (cases : Option (Dict (List StepNode))) :
    (casesDatum? cases).map toJson = cases.map casesJson := by
  cases cases with
  | none => rfl
  | some cases =>
    rw [casesDatum?, Option.map_some, toJson, toJsonFields_eq_map, casesData_eq_map, List.map_map,
      Option.map_some, casesJson]
    congr 3
    exact List.map_congr_left fun x _ => congrArg (Prod.mk x.1) (toJson_list x.2)

/-- The fields of a step as an object. -/
def jsonFields : StepNode → List (String × Option Json)
  | .mk f ifSteps elseSteps cases defaultSteps steps =>
    [("id", f.id.map .str),
      ("type", f.type.map .str),
      ("name", f.name.map .str),
      ("timeout", f.timeout.map fun n : Nat => .num (.ofInt n)),
      ("retryCount", f.retryCount.map fun n : Nat => .num (.ofInt n)),
      ("continueOnError", f.continueOnError.map .bool),
      ("action", f.action.map .str),
      ("config", recordJson? .ofJson f.config),
      ("model", f.model.map .str),
      ("prompt", f.prompt.map .str),
      ("condition", f.condition.map .str),
      ("if", ifSteps.map stepsJson),
      ("else", elseSteps.map stepsJson),
      ("switch", cases.map casesJson),
      ("default", defaultSteps.map stepsJson),
      ("loopType", f.loopType.map .str),
      ("maxIterations", f.maxIterations.map fun v => (ofJson v).toJson),
      ("breakOn", f.breakOn.map .str),
      ("onError", f.onError.map .str),
      ("steps", steps.map stepsJson),
      ("maxConcurrency", f.maxConcurrency.map fun n => .num (.ofInt n)),
      ("failFast", f.failFast.map .bool)]

theorem toJson_toDatum (n : StepNode) : n.toDatum.toJson = .ofFields? n.jsonFields := by
  obtain ⟨f, ifSteps, elseSteps, cases, defaultSteps, steps⟩ := n
  have hcount : ∀ a : Option Nat, (a : Option Int) = a.map fun n : Nat => (n : Int) := fun a => by
    cases a <;> rfl
  simp only [toDatum, hcount, toJson, textField, boolField, toJsonFields_append, toJsonFields_field,
    toJsonFields_recordField, ← List.filterMap_append, List.cons_append, List.nil_append,
    map_toJson_listDatum?, map_toJson_casesDatum?, Option.map_map]
  rfl

end StepNode

/-- The fields of a document as an object. -/
def Document.jsonFields (d : Document) : List (String × Option Json) :=
  [("id", d.id.map .str),
    ("name", d.name.map .str),
    ("description", d.description.map .str),
    ("version", d.version.map .str),
    ("extends", d.parent.map .str),
    ("abstract", d.isAbstract.map .bool),
    ("reusable", d.reusable.map .bool),
    ("parameters", recordJson? ParameterNode.toDatum d.parameters),
    ("variables", recordJson? .ofJson d.vars),
    ("steps", some (StepNode.stepsJson d.steps)),
    ("metadata", recordJson? .ofJson d.metadata),
    ("createdAt", d.createdAt.map fun t => .str t.text),
    ("updatedAt", d.updatedAt.map fun t => .str t.text)]

theorem Document.toJson_eq (d : Document) : d.toJson = .ofFields? d.jsonFields := by
  have hsteps : toJsonFields [(.text "steps", .list (StepNode.listData d.steps))] =
      [("steps", some (StepNode.stepsJson d.steps))].filterMap fun x => x.2.map (x.1, ·) := by
    rw [toJsonFields_eq_map, ← StepNode.toJson_list]
    rfl
  simp only [toJson, toDatum, Datum.toJson, textField, boolField, toJsonFields_append,
    toJsonFields_field, toJsonFields_recordField, hsteps, ← List.filterMap_append,
    List.cons_append, List.nil_append, Option.map_map]
  rfl

/-! ### What is written is a value -/

/-- What is written of something proper is proper. -/
theorem Json.isProper_map {α : Type} {write : α → Json} {a : Option α}
    (h : ∀ x ∈ a, (write x).IsProper) : ∀ v ∈ a.map write, v.IsProper := by
  intro v hv
  obtain ⟨x, hx, rfl⟩ := Option.map_eq_some_iff.mp hv
  exact h x hx

theorem Json.isProper_ofInt {n : Int} (h : Number.inRange n = true) :
    (Json.num (.ofInt n)).IsProper := by
  rw [Number.ofInt, if_pos h]
  exact .int h

theorem isProper_recordJson? {α : Type} {write : α → Datum} {d : Dict α}
    (h : ∀ x ∈ d, (write x.2).toJson.IsProper) : ∀ v ∈ recordJson? write d, v.IsProper := by
  intro v hv
  unfold recordJson? at hv
  split at hv
  · cases hv
  · cases hv
    refine .obj (Dict.sorted_ofList _) fun x hx => ?_
    obtain ⟨y, hy, rfl⟩ := List.mem_map.mp (Dict.mem_ofList hx)
    exact h y hy

section Written

variable {a : Option String} {b : Option Bool}

theorem isProper_text : ∀ v ∈ a.map Json.str, v.IsProper := Json.isProper_map fun _ _ => .str _

theorem isProper_bool : ∀ v ∈ b.map Json.bool, v.IsProper := Json.isProper_map fun _ _ => .bool _

end Written

theorem Data.AreProper.toJson {d : Dict Json} (h : AreProper d) :
    ∀ x ∈ d, (ofJson x.2).toJson.IsProper := fun x hx => by
  rw [toJson_ofJson (h.values x hx)]
  exact h.values x hx

theorem ParameterNode.isProper_toJson {p : ParameterNode} (h : p.IsProper) :
    p.toDatum.toJson.IsProper := by
  rw [toJson_toDatum]
  refine Json.isProper_ofFields? ?_
  simp only [jsonFields, List.forall_mem_cons]
  refine ⟨isProper_text, isProper_text, Json.isProper_map fun v hv => ?_, isProper_bool, nofun⟩
  rw [toJson_ofJson (h v hv).1]
  exact (h v hv).1

namespace StepNode

theorem isProper_stepsJson {steps : List StepNode} (h : ∀ n ∈ steps, n.toDatum.toJson.IsProper) :
    (stepsJson steps).IsProper := by
  refine .arr fun v hv => ?_
  obtain ⟨n, hn, rfl⟩ := List.mem_map.mp hv
  exact h n hn

theorem isProper_casesJson {cases : Dict (List StepNode)}
    (h : ∀ x ∈ cases, ∀ n ∈ x.2, n.toDatum.toJson.IsProper) : (casesJson cases).IsProper := by
  refine .obj (Dict.sorted_ofList _) fun x hx => ?_
  obtain ⟨y, hy, rfl⟩ := List.mem_map.mp (Dict.mem_ofList hx)
  exact isProper_stepsJson (h y hy)

theorem isProper_toJson {n : StepNode} (h : n.IsProper) : n.toDatum.toJson.IsProper := by
  induction h with
  | @mk fields ifSteps elseSteps defaultSteps steps cases own _ _ _ _ _ _ ihIf ihElse ihCases
      ihDefault ihSteps =>
    obtain ⟨htimeout, hretry, hconfig, hmax, hconcurrency⟩ := own
    have hsteps : ∀ a : Option (List StepNode),
        (∀ l ∈ a, ∀ n ∈ l, n.toDatum.toJson.IsProper) →
        ∀ v ∈ a.map stepsJson, v.IsProper := fun a h =>
      Json.isProper_map fun l hl => isProper_stepsJson (h l hl)
    have hcount : ∀ a : Option Nat, (∀ n ∈ a, n < Bits.words 64) →
        ∀ v ∈ a.map fun n : Nat => Json.num (.ofInt n), v.IsProper := fun a h =>
      Json.isProper_map fun n hn => Json.isProper_ofInt (Json.inRange_of_lt (h n hn))
    rw [toJson_toDatum]
    refine Json.isProper_ofFields? ?_
    simp only [jsonFields, List.forall_mem_cons]
    refine ⟨isProper_text, isProper_text, isProper_text, hcount _ htimeout, hcount _ ?_,
      isProper_bool, isProper_text, isProper_recordJson? hconfig.toJson, isProper_text,
      isProper_text, isProper_text, hsteps _ ihIf, hsteps _ ihElse,
      Json.isProper_map fun d hd => isProper_casesJson (ihCases d hd), hsteps _ ihDefault,
      isProper_text, Json.isProper_map fun v hv => ?_, isProper_text, isProper_text,
      hsteps _ ihSteps, Json.isProper_map fun n hn => ?_, isProper_bool, List.forall_mem_nil _⟩
    · exact fun n hn => Nat.lt_trans (hretry n hn) (by decide)
    · rw [toJson_ofJson (hmax v hv).1]
      exact (hmax v hv).1
    · exact Json.isProper_ofInt (Json.inRange_of_isSigned (hconcurrency n hn))

end StepNode

/-- What is written of a proper document is a value that keeps to the rules of its type. -/
theorem Document.isProper_toJson {d : Document} (h : d.IsProper) : d.toJson.IsProper := by
  rw [toJson_eq]
  refine Json.isProper_ofFields? ?_
  simp only [jsonFields, List.forall_mem_cons]
  refine ⟨isProper_text, isProper_text, isProper_text, isProper_text, isProper_text, isProper_bool,
    isProper_bool,
    isProper_recordJson? fun x hx => ParameterNode.isProper_toJson (h.parameters x hx),
    isProper_recordJson? h.vars.toJson, ?_, isProper_recordJson? h.metadata.toJson,
    Json.isProper_map fun _ _ => .str _, Json.isProper_map fun _ _ => .str _, nofun⟩
  rintro _ ⟨⟩
  exact StepNode.isProper_stepsJson fun n hn => StepNode.isProper_toJson (h.steps n hn)

/-! ### What is written is read back -/

theorem Timestamp.ofDatum?_text {t : Timestamp} (h : t.IsProper) :
    ofDatum? (.ofJson (.str t.text)) = some t := by
  rw [ofJson, ofDatum?, text?, Option.bind_some, ofText?_text h]

namespace Data.Fields

variable {f : Fields} {name : String}

theorem optional_text {a : Option String} (h : f.lookup name = (a.map Json.str).map .ofJson) :
    f.optional name Datum.text? = some a :=
  optional_of_lookup h fun _ _ => ⟨nofun, rfl⟩

theorem optional_bool {a : Option Bool} (h : f.lookup name = (a.map Json.bool).map .ofJson) :
    f.optional name Datum.bool? = some a :=
  optional_of_lookup h fun _ _ => ⟨nofun, rfl⟩

theorem nat?_ofJson {n limit : Nat} (hlimit : limit ≤ Bits.words 64) (h : n < limit) :
    (Datum.ofJson (.num (.ofInt n))).nat? limit = some n := by
  rw [Json.Number.ofInt, if_pos (Json.inRange_of_lt (Nat.lt_of_lt_of_le h hlimit)), ofJson, nat?,
    if_pos]
  · rfl
  · simpa using h

theorem optional_nat {a : Option Nat} {limit : Nat} (hlimit : limit ≤ Bits.words 64)
    (hlt : ∀ n ∈ a, n < limit)
    (h : f.lookup name = (a.map fun n : Nat => Json.num (.ofInt n)).map .ofJson) :
    f.optional name (Datum.nat? limit) = some a :=
  optional_of_lookup h fun n hn => ⟨nofun, nat?_ofJson hlimit (hlt n hn)⟩

theorem optional_int {a : Option Int} (hsigned : ∀ n ∈ a, Bits.isSigned 64 n = true)
    (h : f.lookup name = (a.map fun n => Json.num (.ofInt n)).map .ofJson) :
    f.optional name Datum.int? = some a := by
  refine optional_of_lookup h fun n hn => ⟨nofun, ?_⟩
  have hn := hsigned n hn
  rw [Json.Number.ofInt, if_pos (Json.inRange_of_isSigned hn), ofJson, int?, if_pos hn]

theorem optional_json {a : Option Json} (hproper : ∀ v ∈ a, v.IsProper ∧ v ≠ .null)
    (h : f.lookup name = (a.map fun v => (ofJson v).toJson).map .ofJson) :
    f.optional name Datum.json? = some a := by
  refine optional_of_lookup h fun v hv => ?_
  obtain ⟨hv, hnull⟩ := hproper v hv
  rw [toJson_ofJson hv]
  exact ⟨hnull, json?_ofJson hv⟩

theorem optional_time {a : Option Timestamp} (hproper : ∀ t ∈ a, t.IsProper)
    (h : f.lookup name = (a.map fun t => Json.str t.text).map .ofJson) :
    f.optional name Timestamp.ofDatum? = some a :=
  optional_of_lookup h fun t ht => ⟨nofun, Timestamp.ofDatum?_text (hproper t ht)⟩

/-- A record that is written unless it is empty is read back. -/
theorem withDefault_record {α : Type} {write : α → Datum} {read : Datum → Option α} {d : Dict α}
    (sorted : d.Sorted) (hread : ∀ x ∈ d, read (.ofJson (write x.2).toJson) = some x.2)
    (h : f.lookup name = (recordJson? write d).map .ofJson) :
    f.withDefault name [] (readDict read) = some d := by
  refine withDefault_of_lookup h (fun hnone => ?_) fun v hv => ?_
  · unfold recordJson? at hnone
    split at hnone
    next hempty => exact List.isEmpty_iff.mp hempty
    next => cases hnone
  · unfold recordJson? at hv
    split at hv
    next => cases hv
    next =>
      cases hv
      rw [Dict.ofList_of_sorted (sorted.map fun a => (write a).toJson)]
      exact readDict_ofJson (fun a => (write a).toJson) sorted hread

theorem withDefault_values {d : Dict Json} (hproper : AreProper d)
    (h : f.lookup name = (recordJson? .ofJson d).map .ofJson) :
    f.withDefault name [] (readDict Datum.json?) = some d :=
  withDefault_record hproper.sorted (fun x hx => by
    rw [toJson_ofJson (hproper.values x hx)]
    exact json?_ofJson (hproper.values x hx)) h

end Data.Fields

theorem ParameterNode.ofDatum?_toJson {p : ParameterNode} (h : p.IsProper) :
    ofDatum? (.ofJson p.toDatum.toJson) = some p := by
  have hnames : ["type", "description", "default", "required"].Nodup := by decide
  obtain ⟨f, hf, hlookup, -⟩ := fields?_ofFields? p.jsonFields hnames
    ["type", "description", "default", "required"]
  have htype : f.optional "type" Datum.text? = some p.type :=
    Fields.optional_text (hlookup _ (by decide))
  have hdescription : f.optional "description" Datum.text? = some p.description :=
    Fields.optional_text (hlookup _ (by decide))
  have hdefault : f.optional "default" Datum.json? = some p.default :=
    Fields.optional_json h (hlookup _ (by decide))
  have hrequired : f.optional "required" Datum.bool? = some p.required :=
    Fields.optional_bool (hlookup _ (by decide))
  rw [toJson_toDatum, ofDatum?]
  refine Option.bind_eq_some_iff.mpr ⟨f, hf, ?_⟩
  simp only [htype, hdescription, hdefault, hrequired]
  rfl

theorem StepFields.ofFields?_of_lookup {n : StepNode} {f : Fields} (h : n.fields.IsProper)
    (hlookup : ∀ name ∈ StepNode.fieldNames,
      f.lookup name = (n.jsonFields.lookup name).join.map ofJson) :
    ofFields? f = some n.fields := by
  obtain ⟨s, ifSteps, elseSteps, cases, defaultSteps, steps⟩ := n
  obtain ⟨htimeout, hretry, hconfig, hmax, hconcurrency⟩ := h
  have hid : f.optional "id" Datum.text? = some s.id :=
    Fields.optional_text (hlookup _ (by decide))
  have htype : f.optional "type" Datum.text? = some s.type :=
    Fields.optional_text (hlookup _ (by decide))
  have hname : f.optional "name" Datum.text? = some s.name :=
    Fields.optional_text (hlookup _ (by decide))
  have htimeout : f.optional "timeout" (Datum.nat? (Bits.words 64)) = some s.timeout :=
    Fields.optional_nat (Nat.le_refl _) htimeout (hlookup _ (by decide))
  have hretry : f.optional "retryCount" (Datum.nat? (Bits.words 32)) = some s.retryCount :=
    Fields.optional_nat (by decide) hretry (hlookup _ (by decide))
  have hcontinue : f.optional "continueOnError" Datum.bool? = some s.continueOnError :=
    Fields.optional_bool (hlookup _ (by decide))
  have haction : f.optional "action" Datum.text? = some s.action :=
    Fields.optional_text (hlookup _ (by decide))
  have hconfig : f.withDefault "config" [] (readDict Datum.json?) = some s.config :=
    Fields.withDefault_values hconfig (hlookup _ (by decide))
  have hmodel : f.optional "model" Datum.text? = some s.model :=
    Fields.optional_text (hlookup _ (by decide))
  have hprompt : f.optional "prompt" Datum.text? = some s.prompt :=
    Fields.optional_text (hlookup _ (by decide))
  have hcondition : f.optional "condition" Datum.text? = some s.condition :=
    Fields.optional_text (hlookup _ (by decide))
  have hloopType : f.optional "loopType" Datum.text? = some s.loopType :=
    Fields.optional_text (hlookup _ (by decide))
  have hmax : f.optional "maxIterations" Datum.json? = some s.maxIterations :=
    Fields.optional_json hmax (hlookup _ (by decide))
  have hbreakOn : f.optional "breakOn" Datum.text? = some s.breakOn :=
    Fields.optional_text (hlookup _ (by decide))
  have honError : f.optional "onError" Datum.text? = some s.onError :=
    Fields.optional_text (hlookup _ (by decide))
  have hconcurrency : f.optional "maxConcurrency" Datum.int? = some s.maxConcurrency :=
    Fields.optional_int hconcurrency (hlookup _ (by decide))
  have hfailFast : f.optional "failFast" Datum.bool? = some s.failFast :=
    Fields.optional_bool (hlookup _ (by decide))
  simp only [ofFields?, hid, htype, hname, htimeout, hretry, hcontinue, haction, hconfig, hmodel,
    hprompt, hcondition, hloopType, hmax, hbreakOn, honError, hconcurrency, hfailFast]
  rfl

namespace StepNode

/-- A step that is read back from its value within any depth that is greater than that of the
value. -/
def ReadsBack (n : StepNode) : Prop :=
  ∀ depth, (ofJson n.toDatum.toJson).depth < depth →
    ofDatumWithin? depth (.ofJson n.toDatum.toJson) = some n

theorem readList_stepsJson {depth : Nat} {steps : List StepNode} (h : ∀ n ∈ steps, n.ReadsBack)
    (hdepth : (ofJson (stepsJson steps)).depth ≤ depth) :
    readList (ofDatumWithin? depth) (.ofJson (stepsJson steps)) = some steps :=
  readList_ofJson (fun n => n.toDatum.toJson) fun n hn =>
    h n hn depth
      (Nat.lt_of_lt_of_le (depth_ofJson_lt_arr (List.mem_map.mpr ⟨n, hn, rfl⟩)) hdepth)

theorem readDict_casesJson {depth : Nat} {cases : Dict (List StepNode)} (sorted : cases.Sorted)
    (h : ∀ x ∈ cases, ∀ n ∈ x.2, n.ReadsBack)
    (hdepth : (ofJson (casesJson cases)).depth ≤ depth) :
    readDict (readList (ofDatumWithin? depth)) (.ofJson (casesJson cases)) = some cases := by
  rw [casesJson, Dict.ofList_of_sorted (sorted.map stepsJson)] at hdepth ⊢
  refine readDict_ofJson stepsJson sorted fun x hx => readList_stepsJson (h x hx) ?_
  have hmem : (x.1, stepsJson x.2) ∈ cases.map fun x => (x.1, stepsJson x.2) :=
    List.mem_map.mpr ⟨x, hx, rfl⟩
  exact Nat.le_trans (Nat.le_of_lt (depth_ofJson_lt_obj hmem)) hdepth

/-- A field that holds steps is read back. -/
theorem optional_stepsJson {f : Fields} {name : String} {depth : Nat}
    {a : Option (List StepNode)} (h : ∀ l ∈ a, ∀ n ∈ l, n.ReadsBack)
    (hlookup : f.lookup name = (a.map stepsJson).map .ofJson)
    (hdepth : ∀ x ∈ f, x.2.depth ≤ depth) :
    f.optional name (readList (ofDatumWithin? depth)) = some a := by
  refine Fields.optional_of_lookup hlookup fun l hl => ⟨nofun, readList_stepsJson (h l hl) ?_⟩
  obtain rfl := Option.mem_def.mp hl
  exact hdepth _ (Dict.mem_of_find? hlookup)

/-- **A proper step is read back from its value.** -/
theorem IsProper.readsBack {n : StepNode} (h : n.IsProper) : n.ReadsBack := by
  induction h with
  | @mk fields ifSteps elseSteps defaultSteps steps cases own _ _ sorted _ _ _ ihIf ihElse ihCases
      ihDefault ihSteps =>
    intro depth hdepth
    obtain ⟨depth, rfl⟩ : ∃ k, depth = k + 1 := ⟨depth - 1, by omega⟩
    rw [toJson_toDatum] at hdepth ⊢
    have hnames : fieldNames.Nodup := by decide
    obtain ⟨f, hf, hlookup, hless⟩ := fields?_ofFields?
      (jsonFields (.mk fields ifSteps elseSteps cases defaultSteps steps)) hnames fieldNames
    have hle : ∀ x ∈ f, x.2.depth ≤ depth := fun x hx => by
      have := hless x hx
      omega
    have hfields : StepFields.ofFields? f = some fields :=
      StepFields.ofFields?_of_lookup (n := .mk fields ifSteps elseSteps cases defaultSteps steps)
        own hlookup
    have hif : f.optional "if" (readList (ofDatumWithin? depth)) = some ifSteps :=
      optional_stepsJson ihIf (hlookup _ (by decide)) hle
    have helse : f.optional "else" (readList (ofDatumWithin? depth)) = some elseSteps :=
      optional_stepsJson ihElse (hlookup _ (by decide)) hle
    have hcases : f.optional "switch" (readDict (readList (ofDatumWithin? depth))) =
        some cases := by
      have hswitch : f.lookup "switch" = (cases.map casesJson).map .ofJson :=
        hlookup _ (by decide)
      refine Fields.optional_of_lookup hswitch fun d hd => ⟨nofun, ?_⟩
      refine readDict_casesJson (sorted d hd) (ihCases d hd) ?_
      obtain rfl := Option.mem_def.mp hd
      exact hle _ (Dict.mem_of_find? hswitch)
    have hdefault : f.optional "default" (readList (ofDatumWithin? depth)) = some defaultSteps :=
      optional_stepsJson ihDefault (hlookup _ (by decide)) hle
    have hsteps : f.optional "steps" (readList (ofDatumWithin? depth)) = some steps :=
      optional_stepsJson ihSteps (hlookup _ (by decide)) hle
    rw [ofDatumWithin?]
    refine Option.bind_eq_some_iff.mpr ⟨f, hf, ?_⟩
    simp only [hfields, hif, helse, hcases, hdefault, hsteps]
    rfl

theorem IsProper.ofDatum?_toJson {n : StepNode} (h : n.IsProper) :
    ofDatum? (.ofJson n.toDatum.toJson) = some n :=
  h.readsBack _ (Nat.lt_succ_self _)

end StepNode

/-- **A proper document is read back from its value.** -/
theorem Document.ofDatum?_toJson {d : Document} (h : d.IsProper) :
    ofDatum? (.ofJson d.toJson) = some d := by
  have hnames : fieldNames.Nodup := by decide
  obtain ⟨f, hf, hlookup, -⟩ := fields?_ofFields? d.jsonFields hnames fieldNames
  have hid : f.optional "id" Datum.text? = some d.id :=
    Fields.optional_text (hlookup _ (by decide))
  have hname : f.optional "name" Datum.text? = some d.name :=
    Fields.optional_text (hlookup _ (by decide))
  have hdescription : f.optional "description" Datum.text? = some d.description :=
    Fields.optional_text (hlookup _ (by decide))
  have hversion : f.optional "version" Datum.text? = some d.version :=
    Fields.optional_text (hlookup _ (by decide))
  have hparent : f.optional "extends" Datum.text? = some d.parent :=
    Fields.optional_text (hlookup _ (by decide))
  have habstract : f.optional "abstract" Datum.bool? = some d.isAbstract :=
    Fields.optional_bool (hlookup _ (by decide))
  have hreusable : f.optional "reusable" Datum.bool? = some d.reusable :=
    Fields.optional_bool (hlookup _ (by decide))
  have hparameters : f.withDefault "parameters" [] (readDict ParameterNode.ofDatum?) =
      some d.parameters :=
    Fields.withDefault_record h.sorted
      (fun x hx => ParameterNode.ofDatum?_toJson (h.parameters x hx)) (hlookup _ (by decide))
  have hvars : f.withDefault "variables" [] (readDict Datum.json?) = some d.vars :=
    Fields.withDefault_values h.vars (hlookup _ (by decide))
  have hsteps : f.withDefault "steps" [] (readList StepNode.ofDatum?) = some d.steps := by
    have hlist : f.lookup "steps" = (some (StepNode.stepsJson d.steps)).map .ofJson :=
      hlookup _ (by decide)
    refine Fields.withDefault_of_lookup hlist (fun h => absurd h (Option.some_ne_none _)) ?_
    rintro _ ⟨⟩
    exact readList_ofJson (fun n => n.toDatum.toJson) fun n hn => (h.steps n hn).ofDatum?_toJson
  have hmetadata : f.withDefault "metadata" [] (readDict Datum.json?) = some d.metadata :=
    Fields.withDefault_values h.metadata (hlookup _ (by decide))
  have hcreatedAt : f.optional "createdAt" Timestamp.ofDatum? = some d.createdAt :=
    Fields.optional_time h.createdAt (hlookup _ (by decide))
  have hupdatedAt : f.optional "updatedAt" Timestamp.ofDatum? = some d.updatedAt :=
    Fields.optional_time h.updatedAt (hlookup _ (by decide))
  rw [toJson_eq, ofDatum?]
  refine Option.bind_eq_some_iff.mpr ⟨f, hf, ?_⟩
  simp only [hid, hname, hdescription, hversion, hparent, habstract, hreusable, hparameters, hvars,
    hsteps, hmetadata, hcreatedAt, hupdatedAt]
  rfl

/-- **What is read of a value is read again from what is written**, which is a value again. -/
theorem Document.read_write_read {v : Json} (hv : v.IsProper) {d : Document}
    (h : ofDatum? (.ofJson v) = some d) :
    d.toJson.IsProper ∧ ofDatum? (.ofJson d.toJson) = some d := by
  have hd : d.IsProper := isProper_of_ofDatum? ⟨v, hv, rfl⟩ h
  exact ⟨isProper_toJson hd, ofDatum?_toJson hd⟩

/-- A value with a field of no name that is known, one that is null, and a step given as an array
within a case of a step. -/
def Document.nestedJson : Json :=
  .obj [("color", .str "red"), ("createdAt", .str "2016-12-31T23:59:60.5Z"), ("extends", .null),
    ("steps", .arr [.obj [("retryCount", .num (.int 3)),
      ("switch", .obj [("x", .arr [.arr [.str "a", .str "command"]])])]])]

/-- What is read of it. -/
def Document.nested : Document :=
  { createdAt := some ⟨1483228799, 1500000000⟩
    steps := [.mk { retryCount := some 3 } none none
      (some [("x", [.mk { id := some "a", type := some "command" } none none none none none])])
      none none] }

theorem Document.read_write_read_nested :
    nestedJson.IsProper ∧ ofDatum? (.ofJson nestedJson) = some nested ∧
      nested.toJson.IsProper ∧ ofDatum? (.ofJson nested.toJson) = some nested := by
  have hproper : nestedJson.IsProper := by
    refine .obj (by unfold Dict.Sorted; decide) ?_
    simp only [List.forall_mem_cons]
    refine ⟨.str _, .str _, .null, .arr ?_, nofun⟩
    simp only [List.forall_mem_cons]
    refine ⟨.obj (by unfold Dict.Sorted; decide) ?_, nofun⟩
    simp only [List.forall_mem_cons]
    refine ⟨.int (by decide), .obj (by unfold Dict.Sorted; decide) ?_, nofun⟩
    simp only [List.forall_mem_cons]
    refine ⟨.arr ?_, nofun⟩
    simp only [List.forall_mem_cons]
    refine ⟨.arr ?_, nofun⟩
    simp only [List.forall_mem_cons]
    exact ⟨.str _, .str _, nofun⟩
  have hread : ofDatum? (.ofJson nestedJson) = some nested := by rfl
  exact ⟨hproper, hread, read_write_read hproper hread⟩

end WorkflowEngine
