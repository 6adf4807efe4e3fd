import WorkflowEngine.Context
import WorkflowEngine.Proofs.Dict
import WorkflowEngine.Proofs.Template.Placeholder

/-!
# Variables and those before them

The variables of a workflow get their values one after the other, in the order of their keys. What
the value of one is depends on the variables before it and on no later one, and so does an error.

## Main definitions

* `Dict.before`: the entries with smaller keys
* `Dict.AgreeUpTo`: two dictionaries have the same up to a key
* `Context.Resolves`, `Context.FailsAt`: a variable has a value, or none, in the context that is
  made from the variables before it

## Main results

* `Dict.Sorted.split`: a dictionary at one of its keys
* `Dict.AgreeUpTo.before_eq`: what agrees up to a key is the same before it
* `Context.build_of_split`: the variables up to one, then those after it
* `Context.find?_build`: a variable has the value that it has in the context of those before it
* `Context.build_error_iff`: the first variable that has no value is what fails
* `Context.variables_from_earlier`: variables depend on those before them
-/

namespace WorkflowEngine

namespace Dict

variable {α : Type}

/-- The entries with keys before a key. -/
def before (d : Dict α) (key : String) : Dict α := d.filter fun x => x.1 < key

/-- Two dictionaries have the same under each key that does not come after a key. -/
def AgreeUpTo (d d' : Dict α) (key : String) : Prop :=
  ∀ k, k ≤ key → d.find? k = d'.find? k

/-- What comes before an entry of a dictionary. -/
theorem Sorted.before_append {l r : Dict α} {key : String} {value : α}
    (h : Dict.Sorted (l ++ (key, value) :: r)) : before (l ++ (key, value) :: r) key = l := by
  obtain ⟨-, hr, hl⟩ := List.pairwise_append.mp h
  have hbefore : ∀ x ∈ l, x.1 < key := fun x hx => hl x hx _ (List.mem_cons_self ..)
  have hafter : ∀ x ∈ (key, value) :: r, ¬ x.1 < key := by
    refine List.forall_mem_cons.mpr ⟨String.lt_irrefl key, fun x hx => ?_⟩
    exact String.lt_asymm (List.rel_of_pairwise_cons hr hx)
  rw [before, List.filter_append, List.filter_eq_self.mpr fun x hx => by simpa using hbefore x hx,
    List.filter_eq_nil_iff.mpr fun x hx => by simpa using hafter x hx, List.append_nil]

/-- **A dictionary at one of its keys**: the entries before it, its own, and those after it. -/
theorem Sorted.split {d : Dict α} (h : d.Sorted) {key : String} {value : α}
    (hv : d.find? key = some value) :
    ∃ after, d = d.before key ++ (key, value) :: after ∧ ∀ x ∈ after, key < x.1 := by
  obtain ⟨l, r, rfl, -⟩ := List.lookup_eq_some_iff.mp hv
  obtain ⟨-, hr, -⟩ := List.pairwise_append.mp h
  exact ⟨r, by rw [h.before_append], fun x hx => List.rel_of_pairwise_cons hr hx⟩

theorem Sorted.before {d : Dict α} (h : d.Sorted) (key : String) : Dict.Sorted (d.before key) :=
  h.filter _

theorem find?_before_of_lt (d : Dict α) {key k : String} (h : k < key) :
    (d.before key).find? k = d.find? k :=
  lookup_filter (p := fun k => decide (k < key)) (by simpa using h) d

theorem find?_before_of_not_lt (d : Dict α) {key k : String} (h : ¬ k < key) :
    (d.before key).find? k = none := by
  refine List.lookup_eq_none_iff.mpr fun x hx => ?_
  have hlt : x.1 < key := by simpa using (List.mem_filter.mp hx).2
  have hne : k ≠ x.1 := fun he => h (he ▸ hlt)
  simpa using hne

/-- **What agrees up to a key is the same before it**, and before each smaller key. -/
theorem AgreeUpTo.before_eq {d d' : Dict α} {key k : String} (hagree : AgreeUpTo d d' key)
    (h : d.Sorted) (h' : d'.Sorted) (hk : k ≤ key) : d.before k = d'.before k := by
  refine (h.before k).ext (h'.before k) fun j => ?_
  by_cases hj : j < k
  · rw [find?_before_of_lt d hj, find?_before_of_lt d' hj]
    exact hagree j (String.le_trans (String.not_lt.mp (String.lt_asymm hj)) hk)
  · rw [find?_before_of_not_lt d hj, find?_before_of_not_lt d' hj]

/-- What comes before a key that comes before another one. -/
theorem before_before (d : Dict α) {key k : String} (hk : k < key) :
    (d.before key).before k = d.before k := by
  rw [before, before, List.filter_filter]
  refine List.filter_congr fun x _ => ?_
  by_cases hx : x.1 < k
  · simp [hx, String.lt_trans hx hk]
  · simp [hx]

end Dict

namespace Context

variable (engine : Expr.Engine)

/-! ### Variables one after the other -/

theorem resolveVariables_append (c : Context) (l r : List (String × Json)) :
    c.resolveVariables engine (l ++ r) =
      c.resolveVariables engine l >>= fun c' => c'.resolveVariables engine r := by
  induction l generalizing c with
  | nil => rfl
  | cons x l ih =>
    obtain ⟨name, v⟩ := x
    rw [List.cons_append, resolveVariables, resolveVariables, bind_assoc]
    exact bind_congr fun value => ih (c.setVariable name value)

theorem valueOf?_setVariable_self (c : Context) (name : String) (value : Json) :
    (c.setVariable name value).valueOf? name = some value :=
  Dict.find?_insert_self c.vars name value

theorem valueOf?_setVariable_of_ne (c : Context) {name other : String} (value : Json)
    (h : other ≠ name) : (c.setVariable name value).valueOf? other = c.valueOf? other :=
  Dict.find?_insert_of_ne c.vars value h

/-- A variable keeps its value while others get theirs. -/
theorem valueOf?_resolveVariables {c c' : Context} {l : List (String × Json)} {key : String}
    (hc : c.resolveVariables engine l = .ok c') (hkey : ∀ x ∈ l, x.1 ≠ key) :
    c'.valueOf? key = c.valueOf? key := by
  induction l generalizing c with
  | nil => rw [← Except.ok.inj hc]
  | cons x l ih =>
    obtain ⟨name, v⟩ := x
    obtain ⟨hname, hl⟩ := List.forall_mem_cons.mp hkey
    rw [resolveVariables] at hc
    cases hv : c.resolveVariable engine v with
    | error err => simp [hv, bind, Except.bind] at hc
    | ok value =>
      rw [hv] at hc
      rw [ih hc hl, valueOf?_setVariable_of_ne c value (Ne.symm hname)]

/-- A value that is no template is the value of the variable. -/
theorem resolveVariable_of_plain (c : Context) {v : Json}
    (h : ∀ template, v = .str template → Text.contains template "\x7b\x7b" = false) :
    c.resolveVariable engine v = .ok v := by
  cases v with
  | str template => simp [resolveVariable, h template rfl]
  | _ => rfl

/-- The value of a template is what it evaluates to. -/
theorem resolveVariable_of_template (c : Context) {template : String}
    (h : Text.contains template "\x7b\x7b" = true) :
    c.resolveVariable engine (.str template) = Template.evaluate engine template c.toJson := by
  rw [resolveVariable, if_pos h]

/-- Only a template has no value. -/
theorem resolveVariable_eq_error {c : Context} {v : Json} {err : Template.EvalError}
    (h : c.resolveVariable engine v = .error err) :
    ∃ template, v = .str template ∧ Text.contains template "\x7b\x7b" = true ∧
      Template.evaluate engine template c.toJson = .error err := by
  cases v with
  | str template =>
    rw [resolveVariable] at h
    split at h
    next htemplate => exact ⟨template, rfl, htemplate, h⟩
    next => simp at h
  | _ => simp [resolveVariable] at h

/-! ### The context at the start -/

variable (e : Execution) (item : Option WorkItem)

/-- **A context at one of its variables**: those before it are resolved first, then its own value in
the context that they make, then those after it. -/
theorem build_of_split {vars : Dict Json} (h : vars.Sorted) {key : String} {v : Json}
    (hv : vars.find? key = some v) :
    ∃ after : List (String × Json), (∀ x ∈ after, key < x.1) ∧
      build engine e item vars = (do
        let c ← build engine e item (vars.before key)
        let value ← c.resolveVariable engine v
        (c.setVariable key value).resolveVariables engine after) := by
  obtain ⟨after, hsplit, hafter⟩ := h.split hv
  refine ⟨after, hafter, ?_⟩
  conv_lhs => rw [hsplit]
  exact resolveVariables_append engine _ _ _

/-- **A variable has the value that it has in the context of those before it.** -/
theorem find?_build {vars : Dict Json} (h : vars.Sorted) {c : Context}
    (hc : build engine e item vars = .ok c) {key : String} {v : Json}
    (hv : vars.find? key = some v) :
    ∃ c₀ value, build engine e item (vars.before key) = .ok c₀ ∧
      c₀.resolveVariable engine v = .ok value ∧ c.valueOf? key = some value := by
  obtain ⟨after, hafter, hbuild⟩ := build_of_split engine e item h hv
  rw [hbuild] at hc
  cases hc₀ : build engine e item (vars.before key) with
  | error err => simp [hc₀, bind, Except.bind] at hc
  | ok c₀ =>
    cases hvalue : c₀.resolveVariable engine v with
    | error err => simp [hc₀, hvalue, bind, Except.bind] at hc
    | ok value =>
      simp only [hc₀, hvalue, bind, Except.bind] at hc
      have hne : ∀ x ∈ after, x.1 ≠ key := fun x hx he => String.lt_irrefl _ (he ▸ hafter x hx)
      refine ⟨c₀, value, rfl, hvalue, ?_⟩
      rw [valueOf?_resolveVariables engine hc hne, valueOf?_setVariable_self]

/-- The context has no variable but those written down. -/
theorem find?_build_of_none {vars : Dict Json} {c : Context}
    (hc : build engine e item vars = .ok c) {key : String} (hv : vars.find? key = none) :
    c.valueOf? key = none := by
  have hne : ∀ x ∈ vars, x.1 ≠ key := fun x hx he => by
    have hnone := List.lookup_eq_none_iff.mp hv x hx
    simp [he] at hnone
  have hstart : (e.stepResults.foldl record
      ((ofWorkItem (workItemJson e.workItemId item)).refresh e)).vars = [] := by
    refine List.foldlRecOn (motive := fun c : Context => c.vars = []) _ _ rfl ?_
    exact fun c hvars r _ => hvars
  rw [valueOf?_resolveVariables engine hc hne, valueOf?, hstart]
  rfl

/-- A variable has a value in the context that is made from the variables before it. -/
def Resolves (vars : Dict Json) (key : String) : Prop :=
  ∀ v, vars.find? key = some v → ∃ c value,
    build engine e item (vars.before key) = .ok c ∧ c.resolveVariable engine v = .ok value

/-- A variable is a template that cannot be evaluated in the context that is made from the variables
before it. -/
def FailsAt (vars : Dict Json) (key : String) (err : Template.EvalError) : Prop :=
  ∃ template c, vars.find? key = some (.str template) ∧
    Text.contains template "\x7b\x7b" = true ∧ build engine e item (vars.before key) = .ok c ∧
    Template.evaluate engine template c.toJson = .error err

variable {engine e item}

/-- All variables before one have values if the context of those before it is made. -/
theorem resolves_of_build_before {vars : Dict Json} (h : vars.Sorted) {key k : String} {c : Context}
    (hc : build engine e item (vars.before key) = .ok c) (hk : k < key) :
    Resolves engine e item vars k := by
  intro v hv
  rw [← Dict.find?_before_of_lt vars hk] at hv
  obtain ⟨c₀, value, hc₀, hvalue, -⟩ := find?_build engine e item (h.before key) hc hv
  rw [Dict.before_before vars hk] at hc₀
  exact ⟨c₀, value, hc₀, hvalue⟩

theorem FailsAt.build {vars : Dict Json} (h : vars.Sorted) {key : String}
    {err : Template.EvalError} (hfails : FailsAt engine e item vars key err) :
    build engine e item vars = .error err := by
  obtain ⟨template, c, hv, htemplate, hc, heval⟩ := hfails
  obtain ⟨after, -, hbuild⟩ := build_of_split engine e item h hv
  rw [hbuild, hc]
  simp [resolveVariable, htemplate, heval, bind, Except.bind]

/-- Some variable fails where resolving fails: those before it have values. -/
theorem resolveVariables_eq_error {c : Context} {l : List (String × Json)}
    {err : Template.EvalError} (h : c.resolveVariables engine l = .error err) :
    ∃ l₁ key v l₂ c₀, l = l₁ ++ (key, v) :: l₂ ∧ c.resolveVariables engine l₁ = .ok c₀ ∧
      c₀.resolveVariable engine v = .error err := by
  induction l generalizing c with
  | nil => simp [resolveVariables] at h
  | cons x l ih =>
    obtain ⟨name, v⟩ := x
    rw [resolveVariables] at h
    cases hv : c.resolveVariable engine v with
    | error err' =>
      obtain rfl : err' = err := by simpa [hv, bind, Except.bind] using h
      exact ⟨[], name, v, l, c, rfl, rfl, hv⟩
    | ok value =>
      rw [hv] at h
      obtain ⟨l₁, key, u, l₂, c₀, rfl, hl₁, hu⟩ := ih h
      refine ⟨(name, v) :: l₁, key, u, l₂, c₀, rfl, ?_, hu⟩
      rw [resolveVariables, hv]
      exact hl₁

/-- **The first variable that has no value is what fails.** -/
theorem build_error_iff {vars : Dict Json} (h : vars.Sorted) {err : Template.EvalError} :
    build engine e item vars = .error err ↔ ∃ key, FailsAt engine e item vars key err := by
  refine ⟨fun herr => ?_, fun ⟨key, hfails⟩ => hfails.build h⟩
  obtain ⟨l₁, key, v, l₂, c₀, rfl, hl₁, hv⟩ := resolveVariables_eq_error herr
  obtain ⟨template, rfl, htemplate, heval⟩ := resolveVariable_eq_error engine hv
  have hfind : Dict.find? (l₁ ++ (key, .str template) :: l₂) key = some (.str template) :=
    h.mem_iff.mp (List.mem_append_right l₁ (List.mem_cons_self ..))
  exact ⟨key, template, c₀, hfind, htemplate, by rw [h.before_append]; exact hl₁, heval⟩

/-- What fails with one dictionary fails with another that agrees up to it. -/
theorem FailsAt.of_agree {vars other : Dict Json} (h : vars.Sorted) (h' : other.Sorted)
    {key : String} {err : Template.EvalError} (hagree : Dict.AgreeUpTo vars other key)
    (hfails : FailsAt engine e item vars key err) : FailsAt engine e item other key err := by
  obtain ⟨template, c, hv, htemplate, hc, heval⟩ := hfails
  refine ⟨template, c, ?_, htemplate, ?_, heval⟩
  · rw [← hagree key (String.le_refl key), hv]
  · rw [← hagree.before_eq h h' (String.le_refl key), hc]

variable (engine e item)

/-- **Variables depend on those before them.** With two dictionaries that agree up to a key, and
with which contexts can be made, the value under the key is the same. A value that is no template
stays as it is, and a template has the value that it has in the context of the variables before it.
No context can be made exactly if some template cannot be evaluated in the context of the variables
before it; all of these have values, and the error is that of the template, whatever comes after
it. -/
theorem variables_from_earlier {vars : Dict Json} (h : vars.Sorted) :
    (∀ (other : Dict Json) (key : String) (c c' : Context), other.Sorted →
      Dict.AgreeUpTo vars other key → build engine e item vars = .ok c →
      build engine e item other = .ok c' → c.valueOf? key = c'.valueOf? key) ∧
    (∀ (c : Context) (key : String) (v : Json), build engine e item vars = .ok c →
      vars.find? key = some v →
      (∀ template, v = .str template → Text.contains template "\x7b\x7b" = false) →
      c.valueOf? key = some v) ∧
    (∀ (c : Context) (key template : String), build engine e item vars = .ok c →
      vars.find? key = some (.str template) → Text.contains template "\x7b\x7b" = true →
      ∃ c₀ value, build engine e item (vars.before key) = .ok c₀ ∧
        Template.evaluate engine template c₀.toJson = .ok value ∧ c.valueOf? key = some value) ∧
    ∀ err, (build engine e item vars = .error err ↔ ∃ key, FailsAt engine e item vars key err) ∧
      ∀ key, FailsAt engine e item vars key err →
        (∀ k, k < key → Resolves engine e item vars k) ∧
        ∀ other : Dict Json, other.Sorted → Dict.AgreeUpTo vars other key →
          build engine e item other = .error err := by
  refine ⟨fun other key c c' h' hagree hc hc' => ?_, fun c key v hc hv hplain => ?_,
    fun c key template hc hv htemplate => ?_,
    fun err => ⟨build_error_iff h, fun key hfails => ⟨fun k hk => ?_, fun other h' hagree => ?_⟩⟩⟩
  · have hkey : vars.find? key = other.find? key := hagree key (String.le_refl key)
    cases hv : vars.find? key with
    | none =>
      rw [find?_build_of_none engine e item hc hv,
        find?_build_of_none engine e item hc' (hkey ▸ hv)]
    | some v =>
      obtain ⟨c₀, value, hc₀, hvalue, hfind⟩ := find?_build engine e item h hc hv
      obtain ⟨c₁, value', hc₁, hvalue', hfind'⟩ :=
        find?_build engine e item h' hc' (hkey ▸ hv)
      -- both are evaluated in the same context, that of the variables before the key
      obtain rfl : c₀ = c₁ := Except.ok.inj <| by
        rw [← hc₀, ← hc₁, hagree.before_eq h h' (String.le_refl key)]
      rw [hfind, hfind', Except.ok.inj (hvalue.symm.trans hvalue')]
  · obtain ⟨c₀, value, -, hvalue, hfind⟩ := find?_build engine e item h hc hv
    rw [resolveVariable_of_plain engine c₀ hplain] at hvalue
    rw [hfind, ← Except.ok.inj hvalue]
  · obtain ⟨c₀, value, hc₀, hvalue, hfind⟩ := find?_build engine e item h hc hv
    rw [resolveVariable_of_template engine c₀ htemplate] at hvalue
    exact ⟨c₀, value, hc₀, hvalue, hfind⟩
  · obtain ⟨-, c, -, -, hc, -⟩ := hfails
    exact resolves_of_build_before h hc hk
  · exact (hfails.of_agree h h' hagree).build h'

/-! ### A variable that refers to another one -/

open Template (inPlaceholder)

/-- A limit, and how often to try again, which is the limit. -/
def limits : Dict Json :=
  [("limit", .num (.int 3)), ("retries", .str (inPlaceholder "variables.limit"))]

/-- One more variable, behind them. -/
def limitsWith (title : Json) : Dict Json := limits ++ [("title", title)]

theorem sorted_limitsWith (title : Json) : (limitsWith title).Sorted := by
  have hkeys : ((limitsWith title).map Prod.fst).Pairwise (· < ·) := by
    show ["limit", "retries", "title"].Pairwise (· < ·)
    decide
  exact List.pairwise_map.mp hkeys

theorem before_retries (title : Json) :
    (limitsWith title).before "retries" = [("limit", .num (.int 3))] := by
  have hsorted : Dict.Sorted ([("limit", Json.num (.int 3))] ++
      ("retries", .str (inPlaceholder "variables.limit")) :: [("title", title)]) :=
    sorted_limitsWith title
  exact hsorted.before_append

theorem before_title (title : Json) : (limitsWith title).before "title" = limits :=
  Dict.Sorted.before_append (sorted_limitsWith title)

/-- What expressions see before a run without a work item, with the limit. -/
def limited : Context :=
  ((ofWorkItem (workItemJson "" none)).refresh default).setVariable "limit" (.num (.int 3))

/-- What they see with both. -/
def retried : Context := limited.setVariable "retries" (.num (.int 3))

theorem evaluate_limit : Template.evaluate Expr.engine (inPlaceholder "variables.limit")
    limited.toJson = .ok (.num (.int 3)) := by
  have hformula : Template.Formula.ofChars "variables.limit".toList = .operand "variables.limit" :=
    Template.Formula.ofChars_of_operand (p := "variables.limit".toList) (by cbv) (by decide) rfl rfl
  have hscan : Expr.Token.scan "variables.limit" =
      some [.name "variables", .mark .dot, .name "limit"] := rfl
  have hengine : Expr.engine "variables.limit" limited.toJson = .ok (.num (.int 3)) :=
    Expr.engine_of_tokens (e := .field (.name "variables") "limit") hscan (by cbv) rfl
  rw [Template.evaluate_inPlaceholder_of_operand rfl hformula rfl, hengine]
  rfl

/-- A quote that is not closed. -/
theorem evaluate_unclosed : Template.evaluate Expr.engine (inPlaceholder "'Fix")
    retried.toJson = .error (.operand "'Fix" .malformed) := by
  have hformula : Template.Formula.ofChars "'Fix".toList = .operand "'Fix" :=
    Template.Formula.ofChars_of_operand (p := "'Fix".toList) (by cbv) (by decide) rfl rfl
  have hscan : Expr.Token.scan "'Fix" = none := rfl
  rw [Template.evaluate_inPlaceholder_of_operand rfl hformula rfl, Expr.engine,
    Expr.Expression.read, hscan]
  rfl

theorem build_limits : build Expr.engine default none limits = .ok retried := by
  have hretries : limited.resolveVariable Expr.engine (.str (inPlaceholder "variables.limit")) =
      .ok (.num (.int 3)) := by
    rw [resolveVariable_of_template Expr.engine limited (by decide), evaluate_limit]
  exact congrArg (Except.map (limited.setVariable "retries")) hretries

theorem build_limitsWith (title : Json) : build Expr.engine default none (limitsWith title) =
    retried.resolveVariables Expr.engine [("title", title)] := by
  have happend := resolveVariables_append Expr.engine
    ((ofWorkItem (workItemJson "" none)).refresh default) limits [("title", title)]
  exact happend.trans (congrArg (· >>= _) build_limits)

/-- **The limit is read whatever the title is.** A title whose quote is not closed is what fails. -/
theorem variables_from_earlier_limits :
    (limitsWith .null).Sorted ∧ (limitsWith (.str "Fix")).Sorted ∧
    (∃ c c', build Expr.engine default none (limitsWith .null) = .ok c ∧
      build Expr.engine default none (limitsWith (.str "Fix")) = .ok c' ∧
      c.valueOf? "limit" = some (.num (.int 3)) ∧
      c.valueOf? "retries" = some (.num (.int 3)) ∧
      c.valueOf? "retries" = c'.valueOf? "retries") ∧
    (limitsWith (.str (inPlaceholder "'Fix"))).Sorted ∧
    build Expr.engine default none (limitsWith (.str (inPlaceholder "'Fix"))) =
      .error (.operand "'Fix" .malformed) := by
  have hagree : Dict.AgreeUpTo (limitsWith .null) (limitsWith (.str "Fix")) "retries" := by
    intro k hk
    have htitle : k ≠ "title" := fun he => absurd (he ▸ hk) (by decide)
    simp [limitsWith, limits, Dict.find?, List.lookup_cons, beq_eq_false_iff_ne.mpr htitle]
  have hnull := variables_from_earlier Expr.engine default none (sorted_limitsWith .null)
  have hc := build_limitsWith .null
  have hc' := build_limitsWith (.str "Fix")
  -- the template is evaluated with the limit alone
  obtain ⟨c₀, value, hc₀, hvalue, hretries⟩ := hnull.2.2.1 _ "retries" _ hc rfl (by decide)
  rw [before_retries] at hc₀
  obtain rfl : limited = c₀ := Except.ok.inj hc₀
  obtain rfl := Except.ok.inj (evaluate_limit.symm.trans hvalue)
  have hunclosed := variables_from_earlier Expr.engine default none
    (sorted_limitsWith (.str (inPlaceholder "'Fix")))
  have hfails : FailsAt Expr.engine default none (limitsWith (.str (inPlaceholder "'Fix"))) "title"
      (.operand "'Fix" .malformed) := by
    refine ⟨_, retried, rfl, by decide, ?_, evaluate_unclosed⟩
    rw [before_title, build_limits]
  exact ⟨sorted_limitsWith _, sorted_limitsWith _,
    ⟨_, _, hc, hc', hnull.2.1 _ _ _ hc rfl (by rintro _ ⟨⟩), hretries,
      hnull.1 _ _ _ _ (sorted_limitsWith _) hagree hc hc'⟩,
    sorted_limitsWith _, (hunclosed.2.2.2 _).1.mpr ⟨_, hfails⟩⟩

end Context

end WorkflowEngine
