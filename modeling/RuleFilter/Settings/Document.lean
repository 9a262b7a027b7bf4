import RuleFilter.Json.Structure
import RuleFilter.Sql.Dialect

/-! Settings files. A file may leave out every setting, and may have sections that nobody knows. -/

namespace RuleFilter.Settings

open Json

/-- The settings that one source gives. -/
structure Layer where
  size : Option Nat := none
  depth : Option Nat := none
  conditions : Option Nat := none
  dialect : Option Dialect := none
  tableAlias : Option String := none
  schema : Option String := none

/-- Every setting of the first layer, and of the second where the first gives none. -/
def Layer.orElse (first second : Layer) : Layer where
  size := first.size.or second.size
  depth := first.depth.or second.depth
  conditions := first.conditions.or second.conditions
  dialect := first.dialect.or second.dialect
  tableAlias := first.tableAlias.or second.tableAlias
  schema := first.schema.or second.schema

structure Document where
  layer : Layer
  /-- The names of the sections that nobody knows, in the order in which they first came. -/
  unknown : List String

namespace Document

def limitsLayout : Layout :=
  [("max_expression_bytes", .optional), ("max_depth", .optional), ("max_conditions", .optional)]

def sqlLayout : Layout := [("dialect", .optional), ("alias", .optional)]

def schemaLayout : Layout := [("path", .optional)]

def sections : List String := ["limits", "sql", "schema"]

def limits? (w : Written) : Option Layer := do
  match ← w.parts? limitsLayout with
  | [size, depth, conditions] =>
    return {
      size := ← Written.nullable? Written.nat? size
      depth := ← Written.nullable? Written.nat? depth
      conditions := ← Written.nullable? Written.nat? conditions }
  | _ => none

def sql? (w : Written) : Option Layer := do
  match ← w.parts? sqlLayout with
  | [dialect, tableAlias] =>
    return {
      dialect := ← Written.nullable? (Written.named? Dialect.ofName?) dialect
      tableAlias := ← Written.nullable? Written.string? tableAlias }
  | _ => none

def schema? (w : Written) : Option Layer := do
  match ← w.parts? schemaLayout with
  | [path] => return { schema := ← Written.nullable? Written.string? path }
  | _ => none

/-- A section, which gives nothing where it is null or left out. -/
def section? (members : List (String × Written)) (name : String) (decode : Written → Option Layer) :
    Option Layer := do
  return (← Written.nullable? decode (← Written.part? members name)).getD {}

/-- A document is an object. Unknown sections have to be proper values all the same. -/
def ofWritten? : Written → Option Document
  | .object members => do
    let members ← members.mapM fun (k, v) => (textOf k).map (·, v)
    let unknown ← (members.filter fun m => ¬ sections.contains m.1).mapM fun (k, v) =>
      (v.value? (Written.maxNesting - 1)).map (k, ·)
    let limits ← section? members "limits" limits?
    let sql ← section? members "sql" sql?
    let schema ← section? members "schema" schema?
    return ⟨limits.orElse (sql.orElse schema), (Entries.ofList unknown).names⟩
  | _ => none

def ofText? (text : String) : Option Document := (Written.read? text).bind ofWritten?

end Document

end RuleFilter.Settings
