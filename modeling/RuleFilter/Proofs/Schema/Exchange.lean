import RuleFilter.Proofs.Schema.Decode
import RuleFilter.Proofs.Schema.Document

/-!
Fields written and read again. A field comes back from the value that it is encoded as. From the
text of a document it comes back up to what the reader does to form options: values that nest too
deeply are refused, and a number can come back as its neighbour.
-/

namespace RuleFilter.Schema

open Json

/-- The document that declares fields of an entity. -/
def document (entity : String) (fields : List Field) : Json :=
  .object [("entity", .string entity), ("fields", .array (fields.map Field.toJson))]

variable {entity : String} {fields : List Field}

theorem declared?_document : declared? (document entity fields).written =
    (fields.mapM fun f => Field.ofWritten? f.toJson.written).map (entity, ·) := by
  have hparts : (document entity fields).written.parts? layout =
      some [some (string entity).written, some (array (fields.map Field.toJson)).written] := by
    have hnames : ["entity", "fields"].Nodup := by decide
    have hrequired : ∀ p ∈ layout, p.2 = .required → p.1 ∈ ["entity", "fields"] := by decide
    exact shows_written.parts? hnames hrequired
  have hentity : (string entity).written.string? = some entity := shows_written.string? entity
  have hfields : Written.list? Field.ofWritten? (array (fields.map Field.toJson)).written =
      fields.mapM fun f => Field.ofWritten? f.toJson.written := by
    rw [written, Written.list?, List.mapM_map, List.mapM_map]
    rfl
  rw [declared?, hparts]
  show ((string entity).written.string?).bind _ = _
  rw [hentity]
  show (Written.list? Field.ofWritten? _).bind _ = _
  rw [hfields]
  exact Option.map_eq_bind.symm

/-- A document whose fields obey the rules gives a schema of these fields just when each of them is
given back by its encoding. -/
theorem exists_ofText_document_iff (hvalid : Valid fields) :
    (∃ s, ofText (document entity fields).compact = .ok s ∧ s.entity = entity ∧
        s.fields = fields) ↔ ∀ f ∈ fields, Field.ofWritten? f.toJson.written = some f := by
  rw [ofText, read?_compact, Option.bind_some, declared?_document, ← Written.mapM_eq_some_self_iff]
  constructor
  · rintro ⟨s, hs, -, hfields⟩
    cases hdecoded : fields.mapM fun f => Field.ofWritten? f.toJson.written with
    | none =>
      rw [hdecoded] at hs
      cases hs
    | some decoded =>
      rw [hdecoded] at hs
      obtain ⟨-, -, hdecoded', -⟩ := of_ofFields hs
      rw [← hdecoded', hfields]
  · intro hdecoded
    rw [hdecoded]
    obtain ⟨s, hs⟩ := exists_ofFields_iff.2 hvalid
    obtain ⟨-, hentity, hfields, -⟩ := of_ofFields hs
    exact ⟨s, hs, hentity, hfields⟩

/-- A field is given back by its encoding. A document made of an entity and of fields that obey the
rules gives a schema of these just when, in the form options of each, containers nest no deeper than
there is room for inside the document and every number is read as itself. -/
theorem ofText_document :
    (∀ f : Field, Field.ofJson? f.toJson = some f) ∧
      ∀ (entity : String) (fields : List Field), Valid fields →
        (∀ f ∈ fields, (object f.formOptions).IsValue) →
        ((∃ s, ofText (document entity fields).compact = .ok s ∧ s.entity = entity ∧
            s.fields = fields) ↔
          ∀ f ∈ fields, (object f.formOptions).nesting ≤ Written.maxNesting - 3 ∧
            ∀ x ∈ (object f.formOptions).reals, Rereads x) := by
  refine ⟨Field.ofJson?_toJson, fun entity fields hvalid hoptions => ?_⟩
  rw [exists_ofText_document_iff hvalid]
  exact forall₂_congr fun f hf => Field.ofWritten?_toJson_iff (hoptions f hf)

def half : Binary64.Finite := ⟨false, 1022 * Binary64.span, by decide⟩

theorem rereads_half : Rereads half := by decide +kernel

def priceOptions : Members :=
  [("step", .real half), ("bounds", .array [.integer (-1), .null]),
    ("hint", .object [("text", "a\tb")])]

def products : List Field :=
  [{ name := "sku", type := .string, column? := some "p.sku", nullable := false,
      operators? := some [], formType := some "text" },
    { name := "state", type := .choice, operators? := some [.eq, .oneOf],
      choices := ["new", "sold \"out\""] },
    { name := "price", type := .float, formOptions := priceOptions }]

theorem valid_products : Valid products := by
  refine ⟨by decide, ?_, ?_⟩
  · simp only [products, List.forall_mem_cons]
    exact ⟨by decide, by decide, by decide, List.forall_mem_nil _⟩
  · simp only [products, List.forall_mem_cons]
    exact ⟨by decide, by decide, by decide, List.forall_mem_nil _⟩

theorem isValue_priceOptions : (object priceOptions).IsValue := by
  have hbounds : (array [.integer (-1), .null]).IsValue := by
    refine .array ?_
    simp only [List.forall_mem_cons]
    exact ⟨.integer (by decide) (by decide), .null, List.forall_mem_nil _⟩
  have hhint : (object [("text", "a\tb")]).IsValue :=
    .object (by decide) (List.forall_mem_singleton.2 (.string _))
  refine .object (by decide) ?_
  simp only [priceOptions, List.forall_mem_cons]
  exact ⟨.real half, hbounds, hhint, List.forall_mem_nil _⟩

theorem isValue_products : ∀ f ∈ products, (object f.formOptions).IsValue := by
  have hempty : (object []).IsValue := .object List.nodup_nil (List.forall_mem_nil _)
  simp only [products, List.forall_mem_cons]
  exact ⟨hempty, hempty, isValue_priceOptions, List.forall_mem_nil _⟩

/-- The reader has room for the form options and gives back their numbers. -/
theorem rereads_products : ∀ f ∈ products,
    (object f.formOptions).nesting ≤ Written.maxNesting - 3 ∧
      ∀ x ∈ (object f.formOptions).reals, Rereads x := by
  have hempty : (object []).nesting = 1 ∧ (object []).reals = [] := by simp [nesting, reals]
  have hprice : (object priceOptions).nesting = 2 ∧ (object priceOptions).reals = [half] := by
    simp [priceOptions, nesting, reals]
  simp [products, hempty, hprice, rereads_half, Written.maxNesting]

theorem ofText_document_products :
    Valid products ∧ (∀ f ∈ products, (object f.formOptions).IsValue) ∧
      ∃ s, ofText (document "product" products).compact = .ok s ∧ s.entity = "product" ∧
        s.fields = products := by
  exact ⟨valid_products, isValue_products,
    (ofText_document.2 "product" products valid_products isValue_products).2 rereads_products⟩

/-- A number that its text is read as a neighbour of. -/
def unsettled : Binary64.Finite := ⟨false, 1026 * Binary64.span + 675539944105575, by decide⟩

theorem not_rereads_unsettled : ¬ Rereads unsettled := by decide +kernel

def unsettledField : Field where
  name := "a"
  type := .float
  formOptions := [("step", .real unsettled)]

/-- A document can change the form options of its fields. -/
theorem not_ofText_document : ¬ ∀ (entity : String) (fields : List Field), Valid fields →
    (∀ f ∈ fields, (object f.formOptions).IsValue) →
    ∃ s, ofText (document entity fields).compact = .ok s ∧ s.entity = entity ∧
      s.fields = fields := by
  intro h
  have hvalid : Valid [unsettledField] :=
    ⟨by decide, List.forall_mem_singleton.2 (by decide), List.forall_mem_singleton.2 (by decide)⟩
  have hoptions : (object unsettledField.formOptions).IsValue :=
    .object (by decide) (List.forall_mem_singleton.2 (.real unsettled))
  have hexists := h "t" [unsettledField] hvalid (List.forall_mem_singleton.2 hoptions)
  have hfield := (exists_ofText_document_iff hvalid).1 hexists unsettledField (.head _)
  refine not_rereads_unsettled (((Field.ofWritten?_toJson_iff hoptions).1 hfield).2 unsettled ?_)
  simp [unsettledField, reals]

end RuleFilter.Schema
