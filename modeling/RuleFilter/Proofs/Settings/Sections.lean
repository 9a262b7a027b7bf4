import RuleFilter.Settings.Document

/-!
Settings section by section. A file gives whole sections or none of them, and where it is merged
over another its sections are made if they are missing and take over what it gives. The layers of
the files know nothing of sections and say the same.
-/

namespace RuleFilter.Settings

structure LimitsSection where
  size : Option Nat := none
  depth : Option Nat := none
  conditions : Option Nat := none

structure SqlSection where
  dialect : Option Dialect := none
  tableAlias : Option String := none

structure SchemaSection where
  path : Option String := none

/-- The sections of a file that are there. -/
structure Sections where
  limits : Option LimitsSection := none
  sql : Option SqlSection := none
  schema : Option SchemaSection := none

/-- A setting after another value was given for it, if one was. -/
def override {α : Type} (current given : Option α) : Option α :=
  if given.isSome then given else current

theorem override_eq_or {α : Type} (current given : Option α) :
    override current given = given.or current := by
  cases given <;> rfl

/-- A section after another one was merged over it, if there is one. Without a section of its own
the file starts with an empty one. -/
def mergeSection {α : Type} (merge : α → α → α) (empty : α) (current given : Option α) : Option α :=
  match given with
  | none => current
  | some given => some (merge (current.getD empty) given)

theorem getD_mergeSection {α : Type} {merge : α → α → α} {empty : α}
    (h : ∀ s, merge s empty = s) (current given : Option α) :
    (mergeSection merge empty current given).getD empty =
      merge (current.getD empty) (given.getD empty) := by
  cases given with
  | none => exact (h _).symm
  | some given => rfl

def LimitsSection.merge (current given : LimitsSection) : LimitsSection where
  size := override current.size given.size
  depth := override current.depth given.depth
  conditions := override current.conditions given.conditions

def SqlSection.merge (current given : SqlSection) : SqlSection where
  dialect := override current.dialect given.dialect
  tableAlias := override current.tableAlias given.tableAlias

def SchemaSection.merge (current given : SchemaSection) : SchemaSection where
  path := override current.path given.path

namespace Sections

/-- The sections of a file after another file was merged over it. -/
def merge (current given : Sections) : Sections where
  limits := mergeSection LimitsSection.merge {} current.limits given.limits
  sql := mergeSection SqlSection.merge {} current.sql given.sql
  schema := mergeSection SchemaSection.merge {} current.schema given.schema

/-- The settings that the sections give. -/
def layer (s : Sections) : Layer where
  size := (s.limits.getD {}).size
  depth := (s.limits.getD {}).depth
  conditions := (s.limits.getD {}).conditions
  dialect := (s.sql.getD {}).dialect
  tableAlias := (s.sql.getD {}).tableAlias
  schema := (s.schema.getD {}).path

/-- Merging section by section gives every setting of the file on top, and those of the other file
that it does not give. -/
theorem layer_merge (current given : Sections) :
    (current.merge given).layer = given.layer.orElse current.layer := by
  have hlimits := getD_mergeSection (fun s => (rfl : LimitsSection.merge s {} = s)) current.limits
    given.limits
  have hsql := getD_mergeSection (fun s => (rfl : SqlSection.merge s {} = s)) current.sql given.sql
  have hschema := getD_mergeSection (fun s => (rfl : SchemaSection.merge s {} = s)) current.schema
    given.schema
  simp only [layer, merge, hlimits, hsql, hschema, LimitsSection.merge, SqlSection.merge,
    SchemaSection.merge, override_eq_or, Layer.orElse]

/-- Two files, merged one after the other over nothing. -/
theorem layer_merge_merge (profile overlay : Sections) :
    ((merge {} profile).merge overlay).layer = overlay.layer.orElse profile.layer := by
  have hprofile : (merge {} profile).layer = profile.layer := by
    rw [layer_merge]
    simp [layer, Layer.orElse]
  rw [layer_merge, hprofile]

end Sections

end RuleFilter.Settings
