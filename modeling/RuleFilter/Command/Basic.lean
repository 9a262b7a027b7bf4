import RuleFilter.Host.TextArgument
import RuleFilter.Json.Printer
import RuleFilter.Predicate.Compile
import RuleFilter.Predicate.Sql
import RuleFilter.Rule.Payload
import RuleFilter.Rule.Reading
import RuleFilter.Rule.Text
import RuleFilter.Schema.Document
import RuleFilter.Settings.Basic
import RuleFilter.Text.Preview

/-! The commands: show a filter in canonical form, compile it to SQL, list an entity's fields. -/

namespace RuleFilter

inductive Command where
  | parse (expression : String) (payload json : Bool)
  | compile (expression : String) (payload : Bool)
  | fields
  deriving DecidableEq

namespace Command

inductive Error where
  | settings (e : Settings.Error)
  | text (e : TextArgument.Error)
  | unreadableSchema (path : String)
  | badSchema (path : String)
  | filter (e : FilterError)
  deriving DecidableEq

def Error.message : Error → String
  | .settings e => e.message
  | .text e => e.message
  | .unreadableSchema path => "Failed to read schema file: " ++ path
  | .badSchema path => "Invalid schema file: " ++ path
  | .filter e => e.message ++ " [" ++ e.code ++ "]"

def loadSchema (h : Host) (s : Settings) : Except Error Schema := do
  let path ← s.requireSchema.mapError .settings
  match h.text? path with
  | none => .error (.unreadableSchema path)
  | some text => (Schema.ofText text).mapError fun _ => .badSchema path

/-- The rule that an argument gives, as filter text or as a payload. -/
def readRule (h : Host) (s : Settings) (expression : String) (payload : Bool) :
    Except Error Rule := do
  let text ← (TextArgument.read h s.limits.size expression).mapError .text
  (if payload then Rule.ofPayload s.limits text else Rule.parse s.limits text).mapError .filter

def summary (c : Condition) : Json :=
  .object ([("field", .string c.field), ("operator", .string c.operator.name)] ++ c.form.members)

/-- The SQL of a predicate with its parameters and the forms of its conditions. -/
def report (s : Settings) (schema : Schema) (p : Predicate) : Json :=
  let (sql, params) := p.toSql s.dialect s.tableAlias []
  .object
    [("entity", .string schema.entity), ("dialect", .string s.dialect.name), ("sql", .string sql),
      ("params", .array (params.map Value.toJson)),
      ("forms", .array (p.conditions.map summary))]

/-- A text with blanks after it up to a width. -/
def pad (width : Nat) (s : String) : String :=
  s ++ String.ofList (List.replicate (width - s.length) ' ')

def fieldLine (f : Schema.Field) : String :=
  "  " ++ pad 20 f.name ++ " " ++ pad 9 f.type.name ++ " " ++
    String.intercalate ", " (f.operators.map Operator.name) ++
    (if f.column = f.name then "" else "  (column: " ++ f.column ++ ")") ++
    (if f.choices = [] then ""
      else "  [" ++ Text.preview (String.intercalate ", " f.choices) Text.previewLength ++ "]")

def fieldList (schema : Schema) : String :=
  String.intercalate "\n" (("Entity: " ++ schema.entity) :: schema.fields.map fieldLine)

/-- The text that a command prints. -/
def run (h : Host) (s : Settings) : Command → Except Error String
  | .parse expression payload json => do
    let r ← readRule h s expression payload
    return if json then r.toJson.pretty else r.text
  | .compile expression payload => do
    let schema ← loadSchema h s
    let r ← readRule h s expression payload
    let p ← (r.compile schema.field? Guesser.Chain.standard).mapError .filter
    return (report s schema p).pretty
  | .fields => do
    let schema ← loadSchema h s
    return fieldList schema

end Command

end RuleFilter
