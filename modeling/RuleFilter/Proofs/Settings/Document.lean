import RuleFilter.Proofs.Json.Structure
import RuleFilter.Settings.Document

/-!
What settings files give. A setting has a place in documents: a section, and a name in it. A
document gives a setting if something other than null stands there, and the layer read of a document
has just the settings that it gives.
-/

namespace RuleFilter.Settings

open Json

/-- Where a setting stands in documents and how it is written there. -/
structure Setting (α : Type) where
  sectionName : String
  layout : Layout
  name : String
  read : Written → Option α

namespace Setting

open Document

def size : Setting Nat := ⟨"limits", limitsLayout, "max_expression_bytes", Written.nat?⟩
def depth : Setting Nat := ⟨"limits", limitsLayout, "max_depth", Written.nat?⟩
def conditions : Setting Nat := ⟨"limits", limitsLayout, "max_conditions", Written.nat?⟩
def dialect : Setting Dialect := ⟨"sql", sqlLayout, "dialect", Written.named? Dialect.ofName?⟩
def tableAlias : Setting String := ⟨"sql", sqlLayout, "alias", Written.string?⟩
def schema : Setting String := ⟨"schema", schemaLayout, "path", Written.string?⟩

variable {α : Type} (s : Setting α)

def ofSection? (w : Written) : Option Written :=
  Written.present? (Entries.value? (w.named s.layout) s.name)

/-- What a document gives for a setting. It gives nothing where the setting or its section is left
out or null. -/
def given? (document : Written) : Option Written :=
  (Written.present? (Entries.value? (document.named []) s.sectionName)).bind s.ofSection?

/-- The value of a setting in the first of some documents that gives it. -/
def first? (documents : List Written) : Option α := (documents.findSome? s.given?).bind s.read

/-- A section, if there is one, gives this value for the setting, or it gives none. -/
def ReadIn (part : Option Written) (x : Option α) : Prop :=
  (part.bind s.ofSection?).map s.read = x.map some

/-- A document, if there is one, gives this value for the setting, or it gives none. -/
def Read (document : Option Written) (x : Option α) : Prop :=
  (document.bind s.given?).map s.read = x.map some

variable {s} {document document' : Option Written} {x y : Option α}

theorem readIn_of_nullable? {w : Written}
    (h : Written.nullable? s.read (Entries.value? (w.named s.layout) s.name) = some x) :
    s.ReadIn (some w) x :=
  Written.nullable?_eq_some_iff.1 h

theorem bind_or_of_map {v w : Option Written} {read : Written → Option α}
    (h : v.map read = x.map some) (h' : w.map read = y.map some) :
    (v.or w).bind read = x.or y := by
  cases v with
  | some v =>
    cases x with
    | none => cases h
    | some a => exact Option.some.inj h
  | none =>
    cases x with
    | some a => cases h
    | none =>
      rw [Option.none_or, Option.none_or]
      cases w <;> cases y <;> simp_all

/-- Of two documents the first that gives a setting decides, and what it gives can be read. -/
theorem Read.first? (h : s.Read document x) (h' : s.Read document' y) :
    s.first? (document.toList ++ document'.toList) = x.or y := by
  have hgiven (d : Option Written) : d.toList.findSome? s.given? = d.bind s.given? := by
    cases d with
    | none => rfl
    | some w => exact List.findSome?_singleton
  rw [Setting.first?, List.findSome?_append, hgiven, hgiven]
  exact bind_or_of_map h h'

end Setting

/-- A layer has the settings that a document gives, and none where there is no document. -/
structure Layer.ReadOf (layer : Layer) (document : Option Written) : Prop where
  size : Setting.size.Read document layer.size
  depth : Setting.depth.Read document layer.depth
  conditions : Setting.conditions.Read document layer.conditions
  dialect : Setting.dialect.Read document layer.dialect
  tableAlias : Setting.tableAlias.Read document layer.tableAlias
  schema : Setting.schema.Read document layer.schema

theorem Layer.readOf_none : ({} : Layer).ReadOf none := ⟨rfl, rfl, rfl, rfl, rfl, rfl⟩

namespace Document

variable {w : Written} {layer : Layer}

/-- The layer of a section with the limits. -/
def LimitsIn (part : Option Written) (layer : Layer) : Prop :=
  ∃ size depth conditions, layer = { size, depth, conditions } ∧ Setting.size.ReadIn part size ∧
    Setting.depth.ReadIn part depth ∧ Setting.conditions.ReadIn part conditions

def SqlIn (part : Option Written) (layer : Layer) : Prop :=
  ∃ dialect tableAlias, layer = { dialect, tableAlias } ∧ Setting.dialect.ReadIn part dialect ∧
    Setting.tableAlias.ReadIn part tableAlias

def SchemaIn (part : Option Written) (layer : Layer) : Prop :=
  ∃ schema, layer = { schema } ∧ Setting.schema.ReadIn part schema

theorem limitsIn_of_limits? (h : limits? w = some layer) : LimitsIn (some w) layer := by
  have h := Written.of_bind_parts? (by decide) h
  simp only [limitsLayout, List.map_cons, List.map_nil, Option.bind_eq_bind,
    Option.bind_eq_some_iff, Option.pure_def, Option.some.injEq] at h
  obtain ⟨size, hsize, depth, hdepth, conditions, hconditions, rfl⟩ := h
  exact ⟨size, depth, conditions, rfl, Setting.readIn_of_nullable? hsize,
    Setting.readIn_of_nullable? hdepth, Setting.readIn_of_nullable? hconditions⟩

theorem sqlIn_of_sql? (h : sql? w = some layer) : SqlIn (some w) layer := by
  have h := Written.of_bind_parts? (by decide) h
  simp only [sqlLayout, List.map_cons, List.map_nil, Option.bind_eq_bind,
    Option.bind_eq_some_iff, Option.pure_def, Option.some.injEq] at h
  obtain ⟨dialect, hdialect, tableAlias, halias, rfl⟩ := h
  exact ⟨dialect, tableAlias, rfl, Setting.readIn_of_nullable? hdialect,
    Setting.readIn_of_nullable? halias⟩

theorem schemaIn_of_schema? (h : schema? w = some layer) : SchemaIn (some w) layer := by
  have h := Written.of_bind_parts? (by decide) h
  simp only [schemaLayout, List.map_cons, List.map_nil, Option.bind_eq_bind,
    Option.bind_eq_some_iff, Option.pure_def, Option.some.injEq] at h
  obtain ⟨schema, hschema, rfl⟩ := h
  exact ⟨schema, rfl, Setting.readIn_of_nullable? hschema⟩

/-- What holds of no section with an empty layer, and of every section with what it is decoded to,
holds of the section of a document. -/
theorem of_section? {P : Option Written → Layer → Prop} {members : List (String × Written)}
    {name : String} {decode : Written → Option Layer} (hnone : P none {})
    (hsome : ∀ w layer, decode w = some layer → P (some w) layer)
    (h : section? members name decode = some layer) :
    P (Written.present? (Entries.value? members name)) layer := by
  simp only [section?, Option.bind_eq_bind, Option.bind_eq_some_iff, Option.pure_def,
    Option.some.injEq] at h
  obtain ⟨part, hpart, x, hx, rfl⟩ := h
  rw [Written.nullable?_eq_some_iff, ← Written.value?_of_part? hpart] at hx
  cases hw : Written.present? (Entries.value? members name) with
  | none =>
    rw [hw, Option.map_none] at hx
    cases x with
    | none => exact hnone
    | some layer => cases hx
  | some w =>
    rw [hw, Option.map_some] at hx
    cases x with
    | none => cases hx
    | some layer => exact hsome w layer (Option.some.inj hx)

/-- A document that is well formed gives just the settings of its layer. -/
theorem readOf_of_ofWritten? {d : Document} (h : ofWritten? w = some d) :
    d.layer.ReadOf (some w) := by
  match w with
  | .object members =>
    simp only [ofWritten?, Option.bind_eq_bind, Option.bind_eq_some_iff, Option.pure_def,
      Option.some.injEq] at h
    obtain ⟨parts, hparts, unknown, -, limits, hlimits, sql, hsql, schema, hschema, rfl⟩ := h
    have hnamed : Written.named [] (.object members) = parts := Written.filterMap_of_mapM hparts
    subst hnamed
    obtain ⟨size, depth, conditions, rfl, hsize, hdepth, hconditions⟩ :=
      of_section? (P := LimitsIn) ⟨none, none, none, rfl, rfl, rfl, rfl⟩
        (fun _ _ => limitsIn_of_limits?) hlimits
    obtain ⟨dialect, tableAlias, rfl, hdialect, halias⟩ :=
      of_section? (P := SqlIn) ⟨none, none, rfl, rfl, rfl⟩ (fun _ _ => sqlIn_of_sql?) hsql
    obtain ⟨path, rfl, hpath⟩ :=
      of_section? (P := SchemaIn) ⟨none, rfl, rfl⟩ (fun _ _ => schemaIn_of_schema?) hschema
    have hlayer : Layer.orElse { size, depth, conditions }
        (Layer.orElse { dialect, tableAlias } { schema := path }) =
        ⟨size, depth, conditions, dialect, tableAlias, path⟩ := by simp [Layer.orElse]
    rw [hlayer]
    exact ⟨hsize, hdepth, hconditions, hdialect, halias, hpath⟩
  | .null | .bool _ | .number _ | .string _ | .array _ => cases h

end Document

end RuleFilter.Settings
