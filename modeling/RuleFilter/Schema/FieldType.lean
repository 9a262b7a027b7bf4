import RuleFilter.Rule.Operator

/-! The types of fields and the operators that each one supports. -/

namespace RuleFilter

inductive FieldType where
  | string | integer | float | boolean | datetime | uuid | choice
  deriving DecidableEq

namespace FieldType

def all : List FieldType := [.string, .integer, .float, .boolean, .datetime, .uuid, .choice]

def name : FieldType → String
  | .string => "string"
  | .integer => "integer"
  | .float => "float"
  | .boolean => "boolean"
  | .datetime => "datetime"
  | .uuid => "uuid"
  | .choice => "choice"

def ofName? (s : String) : Option FieldType := all.find? (·.name == s)

theorem ofName?_name (t : FieldType) : ofName? t.name = some t := by cases t <;> decide

/-- The operators of a field that declares none of its own. -/
def operators : FieldType → List Operator
  | .string =>
    [.eq, .neq, .oneOf, .noneOf, .contains, .startsWith, .endsWith, .isNull, .isNotNull]
  | .integer | .float =>
    [.eq, .neq, .lt, .lte, .gt, .gte, .between, .oneOf, .noneOf, .isNull, .isNotNull]
  | .datetime => [.eq, .neq, .lt, .lte, .gt, .gte, .between, .isNull, .isNotNull]
  | .boolean => [.eq, .neq, .isNull, .isNotNull]
  | .uuid | .choice => [.eq, .neq, .oneOf, .noneOf, .isNull, .isNotNull]

end FieldType

end RuleFilter
