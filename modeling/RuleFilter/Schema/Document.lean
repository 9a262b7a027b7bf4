import RuleFilter.Json.Structure
import RuleFilter.Schema.Basic

/-! Schema documents: the JSON form of schemas and of their fields. -/

namespace RuleFilter.Schema

open Json

def Field.layout : Layout :=
  [("name", .required), ("type", .required), ("column", .trailing), ("nullable", .trailing),
    ("operators", .trailing), ("choices", .trailing), ("form_type", .trailing),
    ("form_options", .trailing)]

def layout : Layout := [("entity", .required), ("fields", .required)]

/-- Form options are themselves values, which nest in the three containers of a document. -/
def options? (w : Written) : Option Members :=
  match w.value? (Written.maxNesting - 3) with
  | some (.object members) => some members
  | _ => none

namespace Field

def ofWritten? (w : Written) : Option Field := do
  match ← w.parts? layout with
  | [name, type, column, nullable, operators, choices, formType, formOptions] =>
    return {
      name := ← name.bind Written.string?
      type := ← type.bind (Written.named? FieldType.ofName?)
      column? := ← Written.nullable? Written.string? column
      nullable := ← Written.withDefault? true Written.bool? nullable
      operators? := ← Written.nullable? (Written.list? (Written.named? Operator.ofName?)) operators
      choices := ← Written.withDefault? [] (Written.list? Written.string?) choices
      formType := ← Written.nullable? Written.string? formType
      formOptions := ← Written.withDefault? [] options? formOptions }
  | _ => none

/-- Parts that hold their default are left out, but for nullability. -/
def toJson (f : Field) : Json :=
  .object <|
    [("name", .string f.name), ("type", .string f.type.name)] ++
    (f.column?.map fun c => ("column", Json.string c)).toList ++
    [("nullable", .bool f.nullable)] ++
    (f.operators?.map fun ops => ("operators", Json.strings (ops.map Operator.name))).toList ++
    (if f.choices = [] then [] else [("choices", Json.strings f.choices)]) ++
    (f.formType.map fun t => ("form_type", Json.string t)).toList ++
    (if f.formOptions.isEmpty then [] else [("form_options", .object f.formOptions)])

end Field

/-- The entity and the fields that a document declares, before they are checked. -/
def declared? (w : Written) : Option (String × List Field) := do
  match ← w.parts? layout with
  | [entity, fields] =>
    return (← entity.bind Written.string?, ← fields.bind (Written.list? Field.ofWritten?))
  | _ => none

def ofText (text : String) : Except Error Schema :=
  match (Written.read? text).bind declared? with
  | none => .error .unreadable
  | some (entity, fields) => ofFields entity fields

end RuleFilter.Schema
