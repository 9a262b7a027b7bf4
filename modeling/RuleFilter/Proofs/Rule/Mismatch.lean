import Mathlib
import RuleFilter.Predicate.Sql
import RuleFilter.Proofs.Predicate.Text
import RuleFilter.Proofs.Rule.Compile
import RuleFilter.Schema.Document

/-!
Conditions that no SQL test expresses. The checks of a field leave one kind of them: an operator
that looks for a text, on a field whose values are not strings. The operators of types exclude it,
those that a field lists itself do not, and it is written as a test that never holds.
-/

namespace RuleFilter

namespace Clause

/-- No clause but one has the text of the test that never holds. -/
theorem text_eq_iff {c : Clause} {d : Dialect} {column : String} {n : Nat} :
    c.text d column n = "1=0" ↔ c = .never := by
  have hblank : ∀ s : String, ' ' ∈ s.toList → s ≠ "1=0" := by
    rintro _ hs rfl
    simp at hs
  cases c with
  | never => simp [text]
  | always => simp [text]
  | isNull | isNotNull | compare relation v | between low high | like pattern =>
    exact iff_of_false (hblank _ (by simp [text, Dialect.like])) (by simp)
  | among negated vs =>
    exact iff_of_false (hblank _ (by cases negated <;> simp [text, Dialect.membership])) (by simp)

/-- An operand of the right shape is enough for the operators that do not look for a text. -/
theorem of_ne_never {op : Operator} {v : Operand} (hshape : v.shape = op.shape)
    (hop : op.isTextual = false) : of op v ≠ .never := by
  cases op with
  | contains | startsWith | endsWith => cases hop
  | isNull | isNotNull => simp [of]
  | eq | neq =>
    cases v with
    | single w => cases w <;> simp [of, ofEquality]
    | none | list _ | range _ _ => cases hshape
  | lt | lte | gt | gte =>
    cases v with
    | single w => simp [of, ofOrder]
    | none | list _ | range _ _ => cases hshape
  | oneOf | noneOf =>
    cases v with
    | list vs => cases vs <;> simp [of, ofMembership]
    | none | single _ | range _ _ => cases hshape
  | between =>
    cases v with
    | range low high => simp [of]
    | none | single _ | list _ => cases hshape

theorem of_single_eq_never_iff {op : Operator} {v : Value} (hop : op.isTextual) :
    of op (.single v) = .never ↔ v.kind ≠ .string := by
  cases op with
  | contains | startsWith | endsWith => cases v <;> simp [of, ofPattern, Value.kind]
  | _ => cases hop

end Clause

namespace Schema.Field

variable [Formats] {f : Field} {c : Comparison}

/-- A field takes a comparison that no SQL test expresses just where an operator looks for a text
and the values of the field are not strings. -/
theorem clause_eq_never_iff (h : f.check c = .ok ()) :
    Clause.of c.operator c.operand = .never ↔ c.operator.isTextual ∧ f.type.kind ≠ .string := by
  by_cases hop : c.operator.isTextual
  · obtain ⟨v, hv, htakes⟩ := exists_single_of_check h hop
    rw [hv, Clause.of_single_eq_never_iff hop, htakes.kind_eq]
    simp [hop]
  · obtain ⟨-, -, -, hshape, -⟩ := check_eq_ok_iff.1 h
    simp [hop, Clause.of_ne_never hshape (by simpa using hop)]

/-- Such a field lists its operators itself, and among them one that its type does not have. -/
theorem exists_listed_of_isTextual (h : f.check c = .ok ()) (hop : c.operator.isTextual)
    (hkind : f.type.kind ≠ .string) :
    ∃ ops, f.operators? = some ops ∧ c.operator ∈ ops ∧ c.operator ∉ f.type.operators := by
  have hmem := mem_operators_of_check h
  have hnot : c.operator ∉ f.type.operators := by
    intro hin
    rw [FieldType.eq_string_of_isTextual hop hin] at hkind
    exact hkind rfl
  rw [operators] at hmem
  cases hops : f.operators? with
  | none => exact absurd (by simpa [hops] using hmem) hnot
  | some ops => exact ⟨ops, rfl, by simpa [hops] using hmem, hnot⟩

end Schema.Field

theorem Condition.warning?_eq_none_iff {e : Condition} : e.warning? = none ↔ e.clause ≠ .never := by
  simp [warning?]

namespace Rule

variable {source : FieldSource} {chain : Guesser.Chain}

theorem clause_eq_never_iff_of_compile [Formats] {r : Rule} {p : Predicate}
    (h : r.compile source chain = .ok p) {e : Condition} (he : e ∈ p.conditions) :
    e.clause = .never ↔ e.operator.isTextual ∧ e.type.kind ≠ .string := by
  obtain ⟨c, f, -, hcheck, rfl⟩ := exists_check_of_mem_conditions h he
  exact Schema.Field.clause_eq_never_iff hcheck

/-- Of the conditions of a compiled rule just those are written as the test that never holds that
look for a text in a field whose values are not strings. There the field lists an operator that its
type does not have. The text comes without warnings just where there are no such conditions. -/
theorem mismatch_of_compile [Formats] {r : Rule} {p : Predicate}
    (h : r.compile source chain = .ok p) :
    (∀ e ∈ p.conditions,
        (∀ d tableAlias nested n, (Predicate.condition e).text d tableAlias nested n = "1=0" ↔
          e.operator.isTextual ∧ e.type.kind ≠ .string) ∧
        (e.operator.isTextual → e.type.kind ≠ .string → ∃ f ops, source e.field = some f ∧
          f.operators? = some ops ∧ e.operator ∈ ops ∧ e.operator ∉ f.type.operators)) ∧
      (p.warnings = [] ↔ ∀ e ∈ p.conditions, e.operator.isTextual → e.type.kind = .string) := by
  refine ⟨fun e he => ⟨fun d tableAlias nested n => ?_, fun hop hkind => ?_⟩, ?_⟩
  · rw [Predicate.text_condition, Clause.text_eq_iff, clause_eq_never_iff_of_compile h he]
  · obtain ⟨c, f, hf, hcheck, rfl⟩ := exists_check_of_mem_conditions h he
    obtain ⟨ops, hops, hlisted⟩ := Schema.Field.exists_listed_of_isTextual hcheck hop hkind
    exact ⟨f, ops, hf, hops, hlisted⟩
  · simp only [Predicate.warnings, List.filterMap_eq_nil_iff, Condition.warning?_eq_none_iff]
    refine forall₂_congr fun e he => ?_
    rw [ne_eq, clause_eq_never_iff_of_compile h he, not_and, not_not]

/-- Rooms by their area, in which a text can be looked for, as the schema says. -/
def roomSchema : Schema where
  entity := "room"
  fields := [{ name := "area", type := .float, operators? := some [.eq, .contains] }]

def areaRule : Rule :=
  .group .or [.leaf ⟨"area", .eq, .single (.number (Binary64.Finite.zero false))⟩,
    .leaf ⟨"area", .contains, .single (.number (Binary64.Finite.zero false))⟩]

def areaCondition (op : Operator) : Condition :=
  ⟨"area", "area", .float, op, .single (.number (Binary64.Finite.zero false)), {}⟩

theorem compile_areaRule : areaRule.compile roomSchema.field? [] =
    .ok (.any [.condition (areaCondition .eq), .condition (areaCondition .contains)]) := rfl

theorem mismatch_area :
    let p : Predicate := .any [.condition (areaCondition .eq), .condition (areaCondition .contains)]
    areaRule.compile roomSchema.field? [] = .ok p ∧ p.warnings ≠ [] ∧
      ∀ d, (Predicate.condition (areaCondition .contains)).text d "r" true 1 = "1=0" ∧
        (Predicate.condition (areaCondition .eq)).text d "r" true 0 ≠ "1=0" := by
  intro p
  obtain ⟨htexts, hwarnings⟩ := mismatch_of_compile compile_areaRule
  have heq : areaCondition .eq ∈ p.conditions := by simp [p, Predicate.conditions]
  have hcontains : areaCondition .contains ∈ p.conditions := by simp [p, Predicate.conditions]
  refine ⟨compile_areaRule, fun h => ?_, fun d => ⟨?_, fun h => ?_⟩⟩
  · have hkind := hwarnings.1 h _ hcontains rfl
    cases hkind
  · exact ((htexts _ hcontains).1 d "r" true 1).2 ⟨rfl, by decide⟩
  · have hop := (((htexts _ heq).1 d "r" true 0).1 h).1
    cases hop

def roomDocument : String :=
  "\x7b\"entity\": \"room\", \"fields\": [\x7b\"name\": \"area\", \"type\": \"float\"," ++
    " \"operators\": [\"eq\", \"contains\"]\x7d]\x7d"

theorem ofText_roomDocument : Schema.ofText roomDocument = .ok roomSchema := by cbv

/-- A rule can compile against the schema of a document although it has a comparison that no SQL
test expresses. -/
theorem not_expressible_of_compile : ¬ ∀ (document : String) (schema : Schema)
    (chain : Guesser.Chain) (r : Rule) (p : Predicate), Schema.ofText document = .ok schema →
      r.compile schema.field? chain = .ok p → ∀ e ∈ p.conditions, ∀ d tableAlias nested n,
        (Predicate.condition e).text d tableAlias nested n ≠ "1=0" := by
  intro h
  have htext := h roomDocument roomSchema [] areaRule _ ofText_roomDocument compile_areaRule
    (areaCondition .contains) (by simp [Predicate.conditions]) .sqlite "" false 0
  apply htext
  rw [Predicate.text_condition]
  rfl

end Rule

end RuleFilter
