import RuleFilter.Proofs.Predicate.Places
import RuleFilter.Proofs.Rule.Compile
import RuleFilter.Proofs.Rule.Parse
import RuleFilter.Proofs.Rule.Payload

/-!
The parameters of compiled rules. Every value that is bound has the type of the field it is compared
with and none is null. Where a rule was read from text or decoded, its numbers are finite, so that
the parameters have a JSON form without null.
-/

namespace RuleFilter

theorem Value.toJson_ne_null {v : Value} (h : v.IsWritable) (hv : v ≠ .null) :
    v.toJson ≠ .null := by
  cases v with
  | string s => simp [toJson]
  | bool b => simp [toJson]
  | null => exact absurd rfl hv
  | number x =>
    obtain ⟨y, rfl⟩ := h
    simp [toJson, Json.ofNumber]

namespace Condition

variable {e : Condition} {v : Value}

/-- An operator that looks for a text binds a pattern. -/
theorem pattern_of_mem_parameters (hop : e.operator.isTextual) (h : v ∈ e.parameters) :
    ∃ s pattern, e.operand = .single (.string s) ∧ v = .string pattern := by
  obtain ⟨field, column, type, op, operand, form⟩ := e
  cases op with
  | contains | startsWith | endsWith =>
    cases operand with
    | single w =>
      cases w with
      | string s =>
        rw [parameters, List.mem_singleton] at h
        exact ⟨s, _, rfl, h⟩
      | number x => simp [parameters] at h
      | bool b => simp [parameters] at h
      | null => simp [parameters] at h
    | none => simp [parameters] at h
    | list vs => simp [parameters] at h
    | range low high => simp [parameters] at h
  | _ => cases hop

/-- The other operators bind values of their operand, under equality all but null. -/
theorem value_of_mem_parameters (hop : e.operator.isTextual = false) (h : v ∈ e.parameters) :
    v ∈ e.operand.values ∧ (e.operator.isEquality → v ≠ .null) := by
  obtain ⟨field, column, type, op, operand, form⟩ := e
  cases op with
  | contains | startsWith | endsWith => cases hop
  | isNull | isNotNull => simp [parameters] at h
  | eq | neq =>
    cases operand with
    | single w =>
      cases w with
      | null => simp [parameters] at h
      | _ =>
        simp [parameters, Operand.shape, Operator.shape, Operand.values] at h
        simp [h, Operand.values]
    | none => simp [parameters, Operand.shape, Operator.shape] at h
    | list vs => simp [parameters, Operand.shape, Operator.shape] at h
    | range low high => simp [parameters, Operand.shape, Operator.shape] at h
  | lt | lte | gt | gte | between | oneOf | noneOf =>
    simp only [parameters] at h
    split at h
    · exact ⟨h, by simp [Operator.isEquality]⟩
    · simp at h

/-- What may be bound for a condition on a field with these choices: values of its type, and among
them integers that binary64 tells apart from all others, and declared choices where no text is
looked for. -/
def Binds (e : Condition) (choices : List String) : Value → Prop
  | .string s => e.type.kind = .string ∧
      (e.type = .choice → e.operator.isTextual = false → s ∈ choices)
  | .number x => e.type.kind = .number ∧
      (e.type = .integer → ∃ n : Int, x.IsInteger n ∧ n.natAbs ≤ Nat.pow 2 53 - 1)
  | .bool _ => e.type.kind = .boolean
  | .null => False

theorem ne_null_of_binds {choices : List String} (h : e.Binds choices v) : v ≠ .null := by
  rintro rfl
  exact h

theorem binds_of_takes [Formats] {f : Schema.Field} (htype : e.type = f.type) (h : f.Takes v) :
    e.Binds f.choices v := by
  cases h with
  | string h => simp [Binds, htype, h, FieldType.kind]
  | integer h hn hle => exact ⟨by rw [htype, h]; rfl, fun _ => ⟨_, hn, hle⟩⟩
  | float h => simp [Binds, htype, h, FieldType.kind]
  | boolean h => simp [Binds, htype, h, FieldType.kind]
  | datetime h _ => simp [Binds, htype, h, FieldType.kind]
  | uuid h _ => simp [Binds, htype, h, FieldType.kind]
  | choice h hs => exact ⟨by rw [htype, h]; rfl, fun _ _ => hs⟩

/-- A pattern has the type of the field in which it is looked for. -/
theorem binds_of_mem_parameters [Formats] {f : Schema.Field} {c : Comparison} {form : Form}
    (he : e = ⟨c.field, f.column, f.type, c.operator, c.operand, form⟩)
    (hcheck : f.check c = .ok ()) (h : v ∈ e.parameters) : e.Binds f.choices v := by
  subst he
  by_cases hop : c.operator.isTextual
  · obtain ⟨s, pattern, hs, rfl⟩ := pattern_of_mem_parameters hop h
    obtain ⟨w, hw, htakes⟩ := Schema.Field.exists_single_of_check hcheck hop
    obtain rfl : .string s = w := Operand.single.inj (hs.symm.trans hw)
    exact ⟨htakes.kind_eq.symm, fun _ hnot => absurd hop (by simp [hnot])⟩
  · rw [Bool.not_eq_true] at hop
    obtain ⟨hv, hnull⟩ := value_of_mem_parameters hop h
    obtain ⟨-, -, -, -, hvalues⟩ := Schema.Field.check_eq_ok_iff.1 hcheck
    obtain ⟨rfl, hequality, -⟩ | htakes := Schema.Field.checkValue_eq_ok_iff.1 (hvalues v hv)
    · exact absurd rfl (hnull hequality)
    · exact binds_of_takes rfl htakes

/-- A pattern is a text, so that finite numbers stay the only ones. -/
theorem isWritable_of_mem_parameters (h : ∀ u ∈ e.operand.values, u.IsWritable)
    (hv : v ∈ e.parameters) : v.IsWritable := by
  by_cases hop : e.operator.isTextual
  · obtain ⟨s, pattern, -, rfl⟩ := pattern_of_mem_parameters hop hv
    exact trivial
  · exact h v (value_of_mem_parameters (by simpa using hop) hv).1

end Condition

namespace Rule

variable {source : FieldSource} {chain : Guesser.Chain} {r : Rule} {p : Predicate}

/-- What may be bound for a condition of a compiled rule, by the field that it was checked
against. -/
theorem exists_binds_of_compile [Formats] (h : r.compile source chain = .ok p) {e : Condition}
    (he : e ∈ p.conditions) : ∃ f, source e.field = some f ∧ e.type = f.type ∧
      ∀ v ∈ e.parameters, e.Binds f.choices v := by
  obtain ⟨c, f, hf, hcheck, rfl⟩ := exists_check_of_mem_conditions h he
  exact ⟨f, hf, rfl, fun v hv => Condition.binds_of_mem_parameters rfl hcheck hv⟩

theorem wellFormed_of_read (h : (∃ limits text, parse limits text = .ok r) ∨
    ∃ limits payload, ofJson limits payload = .ok r) : r.WellFormed := by
  rcases h with ⟨limits, text, hparse⟩ | ⟨limits, payload, hjson⟩
  · exact wellFormed_of_parse hparse
  · exact wellFormed_of_ofJson hjson

theorem isWritable_of_compile [Formats] (hwell : r.WellFormed)
    (h : r.compile source chain = .ok p) :
    ∀ e ∈ p.conditions, ∀ v ∈ e.parameters, v.IsWritable := by
  intro e he v hv
  obtain ⟨c, hc, hcompile⟩ := exists_of_mem_forall₂ (compiled_leaves h) he
  obtain ⟨f, -, -, rfl⟩ := Comparison.compile_eq_ok_iff.1 hcompile
  exact Condition.isWritable_of_mem_parameters (hwell.of_mem_leaves hc).values hv

/-- Every parameter that a compiled rule adds belongs to a condition and has the type of its field.
None is null, nor is any in JSON, where the rule was read from text or decoded. -/
theorem binds_of_compile [Formats] (h : r.compile source chain = .ok p) (d : Dialect)
    (tableAlias : String)
    (params : List Value) :
    let values := p.conditions.flatMap Condition.parameters
    (p.toSql d tableAlias params).2 = params ++ values ∧
      (∀ e ∈ p.conditions, ∃ f, source e.field = some f ∧ e.type = f.type ∧
        ∀ v ∈ e.parameters, e.Binds f.choices v) ∧
      (∀ v ∈ values, v ≠ .null) ∧
      ((∃ limits text, parse limits text = .ok r) ∨
          (∃ limits payload, ofJson limits payload = .ok r) →
        (∀ x : Binary64, .number x ∈ values → ∃ y : Binary64.Finite, x = y) ∧
          ∀ v ∈ values, v.toJson ≠ .null) := by
  intro values
  have hmem {v : Value} (hv : v ∈ values) : ∃ e ∈ p.conditions, v ∈ e.parameters :=
    List.mem_flatMap.1 hv
  have hnull : ∀ v ∈ values, v ≠ .null := by
    intro v hv
    obtain ⟨e, he, hv⟩ := hmem hv
    obtain ⟨f, -, -, hbinds⟩ := exists_binds_of_compile h he
    exact Condition.ne_null_of_binds (hbinds v hv)
  refine ⟨by rw [Predicate.toSql, Predicate.bound_eq_parameters],
    fun e he => exists_binds_of_compile h he, hnull, fun hread => ?_⟩
  have hwritable : ∀ v ∈ values, v.IsWritable := by
    intro v hv
    obtain ⟨e, he, hv⟩ := hmem hv
    exact isWritable_of_compile (wellFormed_of_read hread) h e he v hv
  exact ⟨fun x hx => hwritable _ hx, fun v hv => Value.toJson_ne_null (hwritable v hv) (hnull v hv)⟩

def ticketSchema : Schema where
  entity := "ticket"
  fields :=
    [{ name := "priority", type := .integer },
      { name := "status", type := .choice, operators? := some [.eq, .contains, .neq],
        choices := ["open", "closed"] }]

def ticketPriority : Value :=
  .number (.finite ⟨true, 1024 * Binary64.span + Nat.pow 2 51, by decide⟩)

/-- A rule with an integer, a choice, a text to look for among the choices and a null test. -/
def ticketRule : Rule :=
  .group .and
    [.leaf ⟨"priority", .oneOf, .list [ticketPriority]⟩,
      .group .or
        [.leaf ⟨"status", .eq, .single (.string "open")⟩,
          .leaf ⟨"status", .contains, .single (.string "closed")⟩],
      .leaf ⟨"status", .neq, .single .null⟩]

def ticketPredicate : Predicate :=
  .all
    [.condition ⟨"priority", "priority", .integer, .oneOf, .list [ticketPriority], {}⟩,
      .any
        [.condition ⟨"status", "status", .choice, .eq, .single (.string "open"), {}⟩,
          .condition ⟨"status", "status", .choice, .contains, .single (.string "closed"), {}⟩],
      .condition ⟨"status", "status", .choice, .neq, .single .null, {}⟩]

theorem compile_ticketRule : ticketRule.compile ticketSchema.field? [] = .ok ticketPredicate := by
  refine compile_group_eq_ok_iff.2 ⟨by simp, _, rfl, .cons ?_ (.cons ?_ (.cons ?_ .nil))⟩
  · exact compile_leaf_of_check rfl (by decide +kernel) rfl
  · refine compile_group_eq_ok_iff.2 ⟨by simp, _, rfl, .cons ?_ (.cons ?_ .nil)⟩
    · exact compile_leaf_of_check rfl (by decide) rfl
    · exact compile_leaf_of_check rfl (by decide) rfl
  · exact compile_leaf_of_check rfl (by decide) rfl

theorem wellFormed_ticketRule : ticketRule.WellFormed := by
  refine .group (by simp) ?_
  simp only [List.forall_mem_cons, List.not_mem_nil, false_implies, implies_true, and_true]
  refine ⟨.leaf ⟨by decide, rfl, ?_⟩, .group (by simp) ?_, .leaf ⟨by decide, rfl, ?_⟩⟩
  · simp [Operand.values, Value.IsWritable, ticketPriority]
  · simp only [List.forall_mem_cons, List.not_mem_nil, false_implies, implies_true, and_true]
    refine ⟨.leaf ⟨by decide, rfl, ?_⟩, .leaf ⟨by decide, rfl, ?_⟩⟩
    · simp [Operand.values, Value.IsWritable]
    · simp [Operand.values, Value.IsWritable]
  · simp [Operand.values, Value.IsWritable]

theorem binds_ticket :
    let values := [ticketPriority, .string "open", .string "%closed%"]
    ticketRule.compile ticketSchema.field? [] = .ok ticketPredicate ∧
      (ticketPredicate.toSql .postgres "t" [.null]).2 = [.null] ++ values ∧
      (∀ e ∈ ticketPredicate.conditions, ∃ f, ticketSchema.field? e.field = some f ∧
        e.type = f.type ∧ ∀ v ∈ e.parameters, e.Binds f.choices v) ∧
      ∀ v ∈ values, v.toJson ≠ .null := by
  intro values
  have hvalues : ticketPredicate.conditions.flatMap Condition.parameters = values := by
    simp [ticketPredicate, Predicate.conditions, Condition.parameters, Operand.shape,
      Operator.shape, Operand.values, values, ticketPriority]
    decide
  obtain ⟨hparams, hbinds, -, hread⟩ := binds_of_compile compile_ticketRule .postgres "t" [.null]
  rw [hvalues] at hparams hread
  have hjson : ofJson {} ticketRule.toJson = .ok ticketRule := by
    rw [ofJson_toJson wellFormed_ticketRule (by simp [ticketRule, leafCount])]
    exact if_pos (by simp [ticketRule, depth])
  exact ⟨compile_ticketRule, hparams, hbinds, (hread (.inr ⟨_, _, hjson⟩)).2⟩

end Rule

end RuleFilter
