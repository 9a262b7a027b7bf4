import Mathlib
import RuleFilter.Proofs.Rule.Refusal
import RuleFilter.Proofs.Schema.Index
import RuleFilter.Proofs.Success
import RuleFilter.Schema.Document

/-!
The rules for documents. A document is a schema of its own fields if these have different names,
valid columns and, where they are choices, something to choose from; otherwise it is refused for the
first field that breaks a rule. A rule compiled against the schema of a document is never refused
for a column.
-/

namespace RuleFilter

namespace Schema

/-- The fields of a document are right. -/
structure Valid (fields : List Field) : Prop where
  nodup : (fields.map Field.name).Nodup
  isColumn : ∀ f ∈ fields, Sql.isColumn f.column
  choices : ∀ f ∈ fields, f.type = .choice → f.choices ≠ []

/-- A field breaks a rule after the fields before it. Of the rules that it breaks the first one
counts. -/
inductive Violates (before : List Field) (f : Field) : Error → Prop
  | duplicate : f.name ∈ before.map Field.name → Violates before f (.duplicate f.name)
  | badColumn : f.name ∉ before.map Field.name → ¬ Sql.isColumn f.column →
      Violates before f (.badColumn f.name f.column)
  | noChoices : f.name ∉ before.map Field.name → Sql.isColumn f.column → f.type = .choice →
      f.choices = [] → Violates before f (.noChoices f.name)

variable {s s' : Schema} {f : Field} {fields : List Field} {e : Error}

theorem append_eq_ok_iff : s.append f = .ok s' ↔
    Entries.value? s.index f.name = none ∧ Sql.isColumn f.column ∧
      (f.type = .choice → f.choices ≠ []) ∧ s' = s.put f := by
  rw [append]
  split
  · next hname => simp [Option.ne_none_iff_isSome.2 hname]
  · next hname =>
    rw [Bool.not_eq_true, Option.isSome_eq_false_iff, Option.isNone_iff_eq_none] at hname
    split
    · next hcolumn => simp [hcolumn]
    · next hcolumn =>
      rw [not_not] at hcolumn
      split
      · next hchoices => simp [hchoices]
      · next hchoices =>
        rw [not_and] at hchoices
        rw [Except.ok.injEq, eq_comm]
        exact ⟨fun h => ⟨hname, hcolumn, hchoices, h⟩, fun h => h.2.2.2⟩

theorem valid_nil : Valid [] := ⟨List.nodup_nil, List.forall_mem_nil _, List.forall_mem_nil _⟩

theorem valid_concat_iff : Valid (fields ++ [f]) ↔ Valid fields ∧
    f.name ∉ fields.map Field.name ∧ Sql.isColumn f.column ∧
      (f.type = .choice → f.choices ≠ []) := by
  constructor
  · intro h
    have hnodup := h.nodup
    rw [List.map_append, List.map_singleton, List.nodup_append_comm, List.singleton_append,
      List.nodup_cons] at hnodup
    have hcolumn := List.forall_mem_append.1 h.isColumn
    have hchoices := List.forall_mem_append.1 h.choices
    exact ⟨⟨hnodup.2, hcolumn.1, hchoices.1⟩, hnodup.1, hcolumn.2 f (.head _),
      hchoices.2 f (.head _)⟩
  · rintro ⟨h, hname, hcolumn, hchoices⟩
    refine ⟨?_, ?_, ?_⟩
    · rw [List.map_append, List.map_singleton, List.nodup_append_comm, List.singleton_append,
        List.nodup_cons]
      exact ⟨hname, h.nodup⟩
    · exact List.forall_mem_append.2 ⟨h.isColumn, List.forall_mem_singleton.2 hcolumn⟩
    · exact List.forall_mem_append.2 ⟨h.choices, List.forall_mem_singleton.2 hchoices⟩

theorem Valid.left {more : List Field} (h : Valid (fields ++ more)) : Valid fields := by
  refine ⟨?_, ?_, ?_⟩
  · have hnodup := h.nodup
    rw [List.map_append] at hnodup
    exact hnodup.of_append_left
  · exact (List.forall_mem_append.1 h.isColumn).1
  · exact (List.forall_mem_append.1 h.choices).1

/-- A field is added just when the rules hold for it too. -/
theorem append_eq_ok_iff_valid (hs : s.Indexed) (hvalid : Valid s.fields) :
    s.append f = .ok s' ↔ Valid (s.fields ++ [f]) ∧ s' = s.put f := by
  rw [append_eq_ok_iff, hs.value?_eq_none_iff, valid_concat_iff]
  constructor
  · rintro ⟨hname, hcolumn, hchoices, rfl⟩
    exact ⟨⟨hvalid, hname, hcolumn, hchoices⟩, rfl⟩
  · rintro ⟨⟨-, hname, hcolumn, hchoices⟩, rfl⟩
    exact ⟨hname, hcolumn, hchoices, rfl⟩

theorem append_eq_error_iff (hs : s.Indexed) :
    s.append f = .error e ↔ Violates s.fields f e := by
  have hname : (Entries.value? s.index f.name).isSome ↔ f.name ∈ s.fields.map Field.name := by
    rw [← not_iff_not, ← hs.value?_eq_none_iff, Bool.not_eq_true, Option.isSome_eq_false_iff,
      Option.isNone_iff_eq_none]
  simp only [append, hname]
  constructor
  · intro h
    split at h
    · next hmem =>
      cases h
      exact .duplicate hmem
    · next hmem =>
      split at h
      · next hcolumn =>
        cases h
        exact .badColumn hmem hcolumn
      · next hcolumn =>
        split at h
        · next hchoices =>
          cases h
          exact .noChoices hmem (not_not.1 hcolumn) hchoices.1 hchoices.2
        · cases h
  · intro h
    cases h with
    | duplicate hmem => rw [if_pos hmem]
    | badColumn hmem hcolumn => rw [if_neg hmem, if_pos hcolumn]
    | noChoices hmem hcolumn htype hchoices =>
      rw [if_neg hmem, if_neg (not_not.2 hcolumn), if_pos ⟨htype, hchoices⟩]

/-- What a schema comes to when fields are added in their order. -/
structure Extends (s : Schema) (fields : List Field) (s' : Schema) : Prop where
  indexed : s'.Indexed
  entity : s'.entity = s.entity
  fields : s'.fields = s.fields ++ fields

theorem extends_append (hs : s.Indexed) (hvalid : Valid s.fields) (h : s.append f = .ok s') :
    s.Extends [f] s' ∧ Valid s'.fields := by
  obtain ⟨hfields, rfl⟩ := (append_eq_ok_iff_valid hs hvalid).1 h
  have hnone := hs.value?_eq_none_iff.2 (valid_concat_iff.1 hfields).2.1
  have hput : (s.put f).fields = s.fields ++ [f] := by rw [put_of_none hnone]
  refine ⟨⟨hs.put f, ?_, hput⟩, hput ▸ hfields⟩
  rw [put_of_none hnone]

theorem extends_of_foldlM_append (hs : s.Indexed) (hvalid : Valid s.fields)
    (h : fields.foldlM append s = .ok s') : s.Extends fields s' ∧ Valid s'.fields := by
  induction fields generalizing s with
  | nil =>
    cases h
    exact ⟨⟨hs, rfl, (List.append_nil _).symm⟩, hvalid⟩
  | cons f fields ih =>
    rw [List.foldlM_cons, bind_eq_ok_iff] at h
    obtain ⟨s₁, hs₁, h⟩ := h
    obtain ⟨hfirst, hvalid₁⟩ := extends_append hs hvalid hs₁
    obtain ⟨hrest, hvalid'⟩ := ih hfirst.indexed hvalid₁ h
    refine ⟨⟨hrest.indexed, hrest.entity.trans hfirst.entity, ?_⟩, hvalid'⟩
    rw [hrest.fields, hfirst.fields, List.append_assoc, List.singleton_append]

theorem exists_foldlM_append (hs : s.Indexed) (h : Valid (s.fields ++ fields)) :
    ∃ s', fields.foldlM append s = .ok s' := by
  induction fields generalizing s with
  | nil => exact ⟨s, rfl⟩
  | cons f fields ih =>
    rw [← List.singleton_append, ← List.append_assoc] at h
    have happend := (append_eq_ok_iff_valid hs h.left.left).2 ⟨h.left, rfl⟩
    obtain ⟨hfirst, -⟩ := extends_append hs h.left.left happend
    obtain ⟨s', hs'⟩ := ih hfirst.indexed (hfirst.fields ▸ h)
    refine ⟨s', ?_⟩
    rw [List.foldlM_cons, bind_eq_ok_iff]
    exact ⟨_, happend, hs'⟩

/-- Adding fields fails at the first one that breaks a rule. -/
theorem foldlM_append_eq_error_iff (hs : s.Indexed) (hvalid : Valid s.fields) :
    fields.foldlM append s = .error e ↔ ∃ before f after, fields = before ++ f :: after ∧
      Valid (s.fields ++ before) ∧ Violates (s.fields ++ before) f e := by
  constructor
  · intro h
    induction fields generalizing s with
    | nil => cases h
    | cons f fields ih =>
      rw [List.foldlM_cons, bind_eq_error_iff] at h
      obtain h | ⟨s₁, hs₁, h⟩ := h
      · have hfirst : Violates (s.fields ++ []) f e := by
          rw [List.append_nil]
          exact (append_eq_error_iff hs).1 h
        exact ⟨[], f, fields, rfl, (List.append_nil s.fields).symm ▸ hvalid, hfirst⟩
      · obtain ⟨hfirst, hvalid₁⟩ := extends_append hs hvalid hs₁
        obtain ⟨before, g, after, rfl, hbefore, hg⟩ := ih hfirst.indexed hvalid₁ h
        rw [hfirst.fields, List.append_assoc, List.singleton_append] at hbefore hg
        exact ⟨f :: before, g, after, rfl, hbefore, hg⟩
  · rintro ⟨before, f, after, rfl, hbefore, hf⟩
    obtain ⟨s₁, hs₁⟩ := exists_foldlM_append hs hbefore
    obtain ⟨hextends, -⟩ := extends_of_foldlM_append hs hvalid hs₁
    rw [← hextends.fields, ← append_eq_error_iff hextends.indexed] at hf
    rw [List.foldlM_append, hs₁]
    show (f :: after).foldlM append s₁ = .error e
    rw [List.foldlM_cons, hf]
    rfl

theorem of_ofFields {entity : String} (h : ofFields entity fields = .ok s) :
    s.Indexed ∧ s.entity = entity ∧ s.fields = fields ∧ Valid fields := by
  obtain ⟨hextends, hvalid⟩ := extends_of_foldlM_append (indexed_empty entity) valid_nil h
  have hfields : s.fields = fields := hextends.fields
  exact ⟨hextends.indexed, hextends.entity, hfields, hfields ▸ hvalid⟩

theorem exists_ofFields_iff {entity : String} :
    (∃ s, ofFields entity fields = .ok s) ↔ Valid fields := by
  constructor
  · rintro ⟨s, hs⟩
    exact (of_ofFields hs).2.2.2
  · exact exists_foldlM_append (indexed_empty entity)

/-- The index is right and every field has a valid column. -/
structure Checked (s : Schema) : Prop where
  indexed : s.Indexed
  isColumn : ∀ f ∈ s.fields, Sql.isColumn f.column

theorem checked_of_ofText {document : String} (h : ofText document = .ok s) : s.Checked := by
  rw [ofText] at h
  split at h
  · cases h
  · obtain ⟨hindexed, -, hfields, hvalid⟩ := of_ofFields h
    exact ⟨hindexed, hfields ▸ hvalid.isColumn⟩

/-- A document with an entity and fields is a schema just when its fields are right. Then it has
these fields in their order, and no rule compiled against it is refused for a column. Otherwise the
error is that of the first field that breaks a rule: those before it are right. -/
theorem ofText_of_declared [Formats] {document entity : String}
    (h : (Json.Written.read? document).bind declared? = some (entity, fields)) :
    ((∃ s, ofText document = .ok s) ↔ Valid fields) ∧
      (∀ s, ofText document = .ok s → s.entity = entity ∧ s.fields = fields ∧
        ∀ (chain : Guesser.Chain) (r : Rule) (field column : String),
          r.compile s.field? chain ≠ .error (.badColumn field column)) ∧
      ∀ e, ofText document = .error e ↔ ∃ before f after, fields = before ++ f :: after ∧
        Valid before ∧ Violates before f e := by
  have htext : ofText document = ofFields entity fields := by rw [ofText, h]
  refine ⟨htext ▸ exists_ofFields_iff, fun s hs => ?_, fun e => ?_⟩
  · have hchecked := checked_of_ofText hs
    rw [htext] at hs
    obtain ⟨-, hentity, hfields, -⟩ := of_ofFields hs
    refine ⟨hentity, hfields, fun chain r => ?_⟩
    exact r.compile_ne_badColumn fun name f hf => hchecked.isColumn f (mem_of_field? hf)
  · rw [htext]
    exact foldlM_append_eq_error_iff (indexed_empty entity) valid_nil

/-- Orders, whose last field has a name that is taken and no valid column either. -/
def orderDocument : String :=
  "\x7b\"entity\": \"order\", \"fields\": [\x7b\"name\": \"item\", \"type\": \"string\"\x7d," ++
    " \x7b\"name\": \"state\", \"type\": \"choice\", \"choices\": [\"new\", \"sent\"]\x7d," ++
    " \x7b\"name\": \"item\", \"type\": \"integer\", \"column\": \"item id\"\x7d]\x7d"

def orderFields : List Field :=
  [{ name := "item", type := .string },
    { name := "state", type := .choice, choices := ["new", "sent"] }]

def orderItem : Field where
  name := "item"
  type := .integer
  column? := some "item id"

theorem ofText_of_declared_order :
    (Json.Written.read? orderDocument).bind declared? =
        some ("order", orderFields ++ [orderItem]) ∧
      Valid orderFields ∧ ofText orderDocument = .error (.duplicate "item") ∧
      ¬ ∃ s, ofText orderDocument = .ok s := by
  have hdeclared : (Json.Written.read? orderDocument).bind declared? =
      some ("order", orderFields ++ [orderItem]) := by cbv
  have hvalid : Valid orderFields := by
    refine ⟨by decide, ?_, ?_⟩
    · simp only [orderFields, List.forall_mem_cons]
      exact ⟨by decide, by decide, List.forall_mem_nil _⟩
    · simp only [orderFields, List.forall_mem_cons]
      exact ⟨by decide, by decide, List.forall_mem_nil _⟩
  obtain ⟨-, -, herror⟩ := ofText_of_declared hdeclared
  have hduplicate : ofText orderDocument = .error (.duplicate "item") :=
    (herror (.duplicate "item")).2
      ⟨orderFields, orderItem, [], rfl, hvalid, .duplicate (by decide)⟩
  refine ⟨hdeclared, hvalid, hduplicate, ?_⟩
  rintro ⟨s, hs⟩
  cases hduplicate.symm.trans hs

end Schema

end RuleFilter
