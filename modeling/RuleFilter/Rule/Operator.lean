/-! The operators of comparisons, the shape of the operand each one takes, and the combinators of
groups. -/

namespace RuleFilter

inductive Combinator where
  | and | or
  deriving DecidableEq

namespace Combinator

/-- As filter text and SQL write it. -/
def keyword : Combinator → String
  | .and => "AND"
  | .or => "OR"

/-- As payloads write it. -/
def name : Combinator → String
  | .and => "and"
  | .or => "or"

end Combinator

/-- How many values an operand holds: none, one, any number, or a lower and an upper one. -/
inductive Shape where
  | none | single | list | range
  deriving DecidableEq

def Shape.label : Shape → String
  | .none => "None"
  | .single => "Single"
  | .list => "List"
  | .range => "Range"

inductive Operator where
  | eq | neq | lt | lte | gt | gte | between | oneOf | noneOf
  | contains | startsWith | endsWith | isNull | isNotNull
  deriving DecidableEq

namespace Operator

def all : List Operator :=
  [.eq, .neq, .lt, .lte, .gt, .gte, .between, .oneOf, .noneOf,
    .contains, .startsWith, .endsWith, .isNull, .isNotNull]

/-- The name that payloads, schemas and messages use. -/
def name : Operator → String
  | .eq => "eq"
  | .neq => "neq"
  | .lt => "lt"
  | .lte => "lte"
  | .gt => "gt"
  | .gte => "gte"
  | .between => "between"
  | .oneOf => "in"
  | .noneOf => "notIn"
  | .contains => "contains"
  | .startsWith => "startsWith"
  | .endsWith => "endsWith"
  | .isNull => "isNull"
  | .isNotNull => "isNotNull"

def ofName? (s : String) : Option Operator := all.find? (·.name == s)

theorem ofName?_name (op : Operator) : ofName? op.name = some op := by cases op <;> decide

theorem name_of_ofName? {s : String} {op : Operator} (h : ofName? s = some op) : op.name = s := by
  simpa using List.find?_some h

/-- As filter text writes it. -/
def symbol : Operator → String
  | .eq => "="
  | .neq => "!="
  | .lt => "<"
  | .lte => "<="
  | .gt => ">"
  | .gte => ">="
  | .between => "BETWEEN"
  | .oneOf => "IN"
  | .noneOf => "NOT IN"
  | .contains => "CONTAINS"
  | .startsWith => "STARTS WITH"
  | .endsWith => "ENDS WITH"
  | .isNull => "IS NULL"
  | .isNotNull => "IS NOT NULL"

def shape : Operator → Shape
  | .isNull | .isNotNull => .none
  | .oneOf | .noneOf => .list
  | .between => .range
  | .eq | .neq | .lt | .lte | .gt | .gte | .contains | .startsWith | .endsWith => .single

def isNullTest (op : Operator) : Bool := op == .isNull || op == .isNotNull

def isEquality (op : Operator) : Bool := op == .eq || op == .neq

end Operator

end RuleFilter
