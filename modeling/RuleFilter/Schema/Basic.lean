import RuleFilter.Json.Basic
import RuleFilter.Schema.FieldType
import RuleFilter.Sql.Name

/-!
Schemas: the fields of an entity, which of them can be filtered on and how. A schema is an ordered
collection with one field under a name, which an index leads to.
-/

namespace RuleFilter

structure Schema.Field where
  name : String
  type : FieldType
  column? : Option String := none
  nullable : Bool := true
  /-- The operators allowed, where they are not those of the type. -/
  operators? : Option (List Operator) := none
  choices : List String := []
  formType : Option String := none
  formOptions : Json.Members := []

def Schema.Field.positions (fields : List Schema.Field) : Entries Nat :=
  fields.zipIdx.map fun (f, i) => (f.name, i)

structure Schema where
  entity : String
  fields : List Schema.Field := []
  /-- Where the field of a name stands. -/
  index : Entries Nat := Schema.Field.positions fields

namespace Schema

namespace Field

/-- The column that holds the field, by default of the same name. -/
def column (f : Field) : String := f.column?.getD f.name

def operators (f : Field) : List Operator := f.operators?.getD f.type.operators

def supports (f : Field) (op : Operator) : Bool := f.operators.contains op

end Field

def field? (s : Schema) (name : String) : Option Field :=
  (Entries.value? s.index name).bind fun i => s.fields[i]?

/-- Puts a field in the place of the one with its name, or at the end. -/
def put (s : Schema) (f : Field) : Schema :=
  match Entries.value? s.index f.name with
  | some i => { s with fields := s.fields.set i f }
  | none =>
    { s with fields := s.fields ++ [f], index := Entries.put s.index f.name s.fields.length }

theorem mem_of_field? {s : Schema} {name : String} {f : Field} (h : s.field? name = some f) :
    f ∈ s.fields := by
  obtain ⟨i, -, hi⟩ := Option.bind_eq_some_iff.1 h
  exact List.mem_of_getElem? hi

/-- Why a document is not a schema. -/
inductive Error where
  | unreadable
  | duplicate (field : String)
  | badColumn (field column : String)
  | noChoices (field : String)
  deriving DecidableEq

def Error.message : Error → String
  | .unreadable => "Failed to parse entity schema"
  | .duplicate field => "Duplicate field '" ++ field ++ "' in schema"
  | .badColumn field column => "Field '" ++ field ++ "' maps to invalid column '" ++ column ++ "'"
  | .noChoices field => "Choice field '" ++ field ++ "' declares no choices"

def append (s : Schema) (f : Field) : Except Error Schema :=
  if (Entries.value? s.index f.name).isSome then .error (.duplicate f.name)
  else if ¬ Sql.isColumn f.column then .error (.badColumn f.name f.column)
  else if f.type = .choice ∧ f.choices = [] then .error (.noChoices f.name)
  else .ok (s.put f)

/-- The schema of fields in document order, which fails at the first one that breaks a rule. -/
def ofFields (entity : String) (fields : List Field) : Except Error Schema :=
  fields.foldlM append { entity }

end Schema

end RuleFilter
