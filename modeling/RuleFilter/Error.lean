import RuleFilter.Lexeme
import RuleFilter.Schema.FieldType

/-! Why a filter is refused. Errors are told apart by their cause; `message` words them. -/

namespace RuleFilter

inductive Limit where
  | size | depth | conditions
  deriving DecidableEq

def Limit.label : Limit → String
  | .size => "expression size in bytes"
  | .depth => "nesting depth"
  | .conditions => "number of conditions"

/-- What is wrong at a position of filter text. -/
inductive TextFault where
  | loneBang
  | strayCharacter (c : Char)
  | unterminatedString (start : Nat)
  | badEscape (c : Char)
  | badNumber (s : String)
  | unexpected (expected : Expected) (found : Option Lexeme)
  deriving DecidableEq

def TextFault.message : TextFault → String
  | .loneBang => "expected '=' after '!'"
  | .strayCharacter c => "unexpected character '" ++ String.singleton c ++ "'"
  | .unterminatedString start => "unterminated string starting at position " ++ toString start
  | .badEscape c => "invalid escape sequence '\\" ++ String.singleton c ++ "'"
  | .badNumber s => "invalid number '" ++ s ++ "'"
  | .unexpected e found => e.complaint found

/-- A member of a rule in a payload, or the rule as a whole. -/
inductive PayloadPart where
  | whole | combinator | rules | field | operator | value
  | item (i : Nat)
  deriving DecidableEq

/-- A place in a payload: the indices of the rules that lead to a rule, then a part of it. -/
structure PayloadPath where
  rules : List Nat
  part : PayloadPart
  deriving DecidableEq

def PayloadPart.text : PayloadPart → String
  | .whole => ""
  | .combinator => ".combinator"
  | .rules => ".rules"
  | .field => ".field"
  | .operator => ".op"
  | .value => ".value"
  | .item i => ".value[" ++ toString i ++ "]"

def PayloadPath.text (p : PayloadPath) : String :=
  "$" ++ String.join (p.rules.map fun i => ".rules[" ++ toString i ++ "]") ++ p.part.text

/-- What is wrong at a place of a payload. -/
inductive PayloadFault where
  | notJson
  | notAnObject
  | missingCombinator
  | unknownCombinator (s : String)
  | notAnArray
  | noRules
  | missingField
  | badField (s : String)
  | missingOperator
  | unknownOperator (s : String)
  | needlessValue (op : Operator)
  | missingValue (op : Operator)
  | notAList (op : Operator)
  | notARange (op : Operator)
  | notAScalar
  | outOfRange
  deriving DecidableEq

def PayloadFault.message : PayloadFault → String
  | .notJson => "expected a JSON document"
  | .notAnObject => "expected an object"
  | .missingCombinator => "missing combinator"
  | .unknownCombinator s => "unknown combinator '" ++ s ++ "', expected 'and' or 'or'"
  | .notAnArray => "expected an array"
  | .noRules => "group must contain at least one rule"
  | .missingField => "missing field name"
  | .badField s => "invalid field name '" ++ s ++ "'"
  | .missingOperator => "missing operator"
  | .unknownOperator s => "unknown operator '" ++ s ++ "'"
  | .needlessValue op => "operator '" ++ op.name ++ "' takes no value"
  | .missingValue op => "operator '" ++ op.name ++ "' requires a value"
  | .notAList op => "operator '" ++ op.name ++ "' requires an array value"
  | .notARange op => "operator '" ++ op.name ++ "' requires a [low, high] array"
  | .notAScalar => "expected a string, number, boolean or null"
  | .outOfRange => "number out of range"

/-- Why an operand does not fit the field it is compared with. -/
inductive OperandFault where
  | notNullable
  | wrongShape (op : Operator)
  | nullUnder (op : Operator)
  | wrongKind (expected : FieldType) (got : Value.Kind)
  | notWhole (x : Binary64)
  | notExact (x : Binary64)
  | badTimestamp (s : String)
  | badUuid (s : String)
  | notAChoice (s : String) (choices : List String)
  deriving DecidableEq

def OperandFault.message : OperandFault → String
  | .notNullable => "field is not nullable"
  | .wrongShape op => "operand does not fit operator '" ++ op.name ++ "'"
  | .nullUnder op => "null is not allowed with operator '" ++ op.name ++ "'"
  | .wrongKind expected got => "expected " ++ expected.name ++ " value but got " ++ got.label
  | .notWhole x => "expected integer value but got " ++ x.text
  | .notExact x => "integer " ++ x.text ++ " cannot be represented exactly"
  | .badTimestamp s => "invalid timestamp format: " ++ s ++ ". Use ISO 8601 format."
  | .badUuid s => "invalid UUID: " ++ s
  | .notAChoice s choices => "'" ++ s ++ "' is not one of: " ++ String.intercalate ", " choices

inductive FilterError where
  | malformed (position : Nat) (fault : TextFault)
  | badPayload (path : PayloadPath) (fault : PayloadFault)
  | tooLarge (limit : Limit) (most : Nat)
  | unknownField (field : String)
  | badColumn (field column : String)
  | unsupported (field : String) (op : Operator) (type : FieldType)
  | badOperand (field : String) (fault : OperandFault)
  | emptyGroup
  deriving DecidableEq

namespace FilterError

/-- A name for the cause that programs can rely on. -/
def code : FilterError → String
  | .malformed _ _ => "INVALID_FILTER_SYNTAX"
  | .badPayload _ _ => "INVALID_FILTER_JSON"
  | .tooLarge _ _ => "FILTER_TOO_LARGE"
  | .unknownField _ => "UNKNOWN_FILTER_FIELD"
  | .badColumn _ _ => "INVALID_FILTER_COLUMN"
  | .unsupported _ _ _ => "UNSUPPORTED_FILTER_OPERATOR"
  | .badOperand _ _ => "INVALID_FILTER_VALUE"
  | .emptyGroup => "EMPTY_FILTER_GROUP"

def message : FilterError → String
  | .malformed position fault =>
    "Syntax error at position " ++ toString position ++ ": " ++ fault.message
  | .badPayload path fault => "Invalid filter payload at " ++ path.text ++ ": " ++ fault.message
  | .tooLarge limit most => "Filter exceeds maximum " ++ limit.label ++ " of " ++ toString most
  | .unknownField field => "Cannot filter by unknown field: " ++ field
  | .badColumn field column => "Field '" ++ field ++ "' maps to invalid column '" ++ column ++ "'"
  | .unsupported field op type =>
    "Operator '" ++ op.name ++ "' is not supported for " ++ type.name ++ " field '" ++ field ++ "'"
  | .badOperand field fault => "Invalid value for field '" ++ field ++ "': " ++ fault.message
  | .emptyGroup => "Filter group must contain at least one rule"

end FilterError

end RuleFilter
