import Mathlib
import RuleFilter.Proofs.Rule.Canonical
import RuleFilter.Proofs.Rule.Compile
import RuleFilter.Proofs.Schema.Document

/-!
Fields that filter text can name. Every field of a document that may be null and allows the test for
it has such a test, but text can only write it where the name of the field is a word that is not
reserved; a document may name its fields otherwise.
-/

namespace RuleFilter

namespace Rule

variable {limits : Limits} {text : String} {r : Rule} {chain : Guesser.Chain}

/-- Whatever is compiled from text has conditions on fields that text can name. -/
theorem isFieldName_of_mem_conditions [Formats] {source : FieldSource} {p : Predicate}
    (hparse : parse limits text = .ok r) (hcompile : r.compile source chain = .ok p)
    {e : Condition} (he : e ∈ p.conditions) : Text.isFieldName e.field := by
  obtain ⟨c, hc, hcondition⟩ := exists_of_mem_forall₂ (compiled_leaves hcompile) he
  obtain ⟨f, -, -, rfl⟩ := Comparison.compile_eq_ok_iff.1 hcondition
  exact ((wellFormed_of_parse hparse).of_mem_leaves hc).field

theorem text_isNull (field : String) :
    (Rule.leaf ⟨field, .isNull, .none⟩).text = field ++ " IS NULL" := by
  rw [Rule.text, Comparison.text, Operand.text, String.append_empty, String.append_assoc]
  rfl

theorem parse_isNull {field : String} (h : Text.isFieldName field)
    (hsize : field.utf8ByteSize + 8 ≤ limits.size) (hconditions : 1 ≤ limits.conditions) :
    parse limits (field ++ " IS NULL") = .ok (.leaf ⟨field, .isNull, .none⟩) := by
  have hwell := wellFormed_nullTest h (rfl : Operator.isNull.shape = .none)
  have hbytes : (field ++ " IS NULL").utf8ByteSize = field.utf8ByteSize + 8 := by
    rw [String.utf8ByteSize_append]
    rfl
  rw [← text_isNull] at hbytes ⊢
  have hparse := parse_collapse hwell (hbytes ▸ hsize) (by simp [depth])
    (by simpa [leafCount] using hconditions)
  rwa [collapse_eq_self (.leaf _)] at hparse

theorem compile_isNull [Formats] (chain : Guesser.Chain) {schema : Schema} (h : schema.Checked)
    {f : Schema.Field} (hf : f ∈ schema.fields) (hnullable : f.nullable)
    (hop : f.supports .isNull) :
    compile schema.field? chain (.leaf ⟨f.name, .isNull, .none⟩) =
      .ok (.condition ⟨f.name, f.column, f.type, .isNull, .none,
        chain.run ⟨f.name, .isNull, .none⟩ f⟩) := by
  refine compile_leaf_of_check (h.indexed.field?_eq_some_iff.2 ⟨hf, rfl⟩) ?_ rfl
  exact Schema.Field.check_eq_ok_iff.2
    ⟨h.isColumn f hf, hop, fun _ => hnullable, rfl, fun _ hv => nomatch hv⟩

/-- Of the fields of a document that may be null and allow the test for it, those and only those can
be filtered on by a text whose names are words that are not reserved. There the test itself can be
written, within limits that have room for it. -/
theorem isFieldName_iff_exists_condition [Formats] {document : String} {schema : Schema}
    (h : Schema.ofText document = .ok schema) {f : Schema.Field} (hf : f ∈ schema.fields)
    (hnullable : f.nullable) (hop : f.supports .isNull) (chain : Guesser.Chain) :
    (Text.isFieldName f.name ↔ ∃ limits text r p, parse limits text = .ok r ∧
        r.compile schema.field? chain = .ok p ∧ ∃ e ∈ p.conditions, e.field = f.name) ∧
      (Text.isFieldName f.name → ∀ limits : Limits, f.name.utf8ByteSize + 8 ≤ limits.size →
        1 ≤ limits.conditions → ∃ r, parse limits (f.name ++ " IS NULL") = .ok r ∧
          r.compile schema.field? chain = .ok (.condition ⟨f.name, f.column, f.type, .isNull, .none,
            chain.run ⟨f.name, .isNull, .none⟩ f⟩)) := by
  have hcompile := compile_isNull chain (Schema.checked_of_ofText h) hf hnullable hop
  have hwithin : Text.isFieldName f.name → ∀ limits : Limits,
      f.name.utf8ByteSize + 8 ≤ limits.size → 1 ≤ limits.conditions →
      ∃ r, parse limits (f.name ++ " IS NULL") = .ok r ∧ r.compile schema.field? chain = .ok _ :=
    fun hname _ hsize hconditions => ⟨_, parse_isNull hname hsize hconditions, hcompile⟩
  refine ⟨⟨fun hname => ?_, ?_⟩, hwithin⟩
  · obtain ⟨r, hparse, hr⟩ :=
      hwithin hname ⟨f.name.utf8ByteSize + 8, 0, 1⟩ (Nat.le_refl _) (Nat.le_refl _)
    exact ⟨_, _, r, _, hparse, hr, by simp⟩
  · rintro ⟨limits, text, r, p, hparse, hr, e, he, hname⟩
    exact hname ▸ isFieldName_of_mem_conditions hparse hr he

/-- Events, one of whose fields has a reserved word for its name. -/
def eventDocument : String :=
  "\x7b\"entity\": \"event\", \"fields\": [\x7b\"name\": \"title\", \"type\": \"string\"\x7d," ++
    " \x7b\"name\": \"ends\", \"type\": \"datetime\"\x7d]\x7d"

def eventSchema : Schema where
  entity := "event"
  fields := [{ name := "title", type := .string }, { name := "ends", type := .datetime }]

theorem ofText_eventDocument : Schema.ofText eventDocument = .ok eventSchema := by cbv

theorem isFieldName_iff_exists_condition_event :
    (∃ r, parse {} "title IS NULL" = .ok r ∧ r.compile eventSchema.field? [] =
      .ok (.condition ⟨"title", "title", .string, .isNull, .none, {}⟩)) ∧
    ¬ ∃ limits text r p, parse limits text = .ok r ∧ r.compile eventSchema.field? [] = .ok p ∧
      ∃ e ∈ p.conditions, e.field = "ends" := by
  constructor
  · exact (isFieldName_iff_exists_condition ofText_eventDocument
      (f := { name := "title", type := .string }) (by simp [eventSchema]) rfl (by decide) []).2
      (by decide) {} (by decide) (by decide)
  · rw [← (isFieldName_iff_exists_condition ofText_eventDocument
      (f := { name := "ends", type := .datetime })
      (by simp [eventSchema]) rfl (by decide) []).1]
    decide

/-- A document can list a field that no text filters on. -/
theorem not_exists_condition_of_nullable : ¬ ∀ (document : String) (schema : Schema)
    (f : Schema.Field) (chain : Guesser.Chain), Schema.ofText document = .ok schema →
      f ∈ schema.fields → f.nullable → f.supports .isNull →
      ∃ text r e, parse {} text = .ok r ∧ r.compile schema.field? chain = .ok (.condition e) ∧
        e.field = f.name := by
  intro h
  obtain ⟨text, r, e, hparse, hcompile, hname⟩ := h eventDocument eventSchema
    { name := "ends", type := .datetime } [] ofText_eventDocument (by simp [eventSchema]) rfl
    (by decide)
  have hfield := isFieldName_of_mem_conditions hparse hcompile (e := e) (by simp)
  rw [hname] at hfield
  exact absurd hfield (by decide)

end Rule

end RuleFilter
