import RuleFilter.Binary64.Layout
import RuleFilter.Rule.Basic
import RuleFilter.Rule.Keyword

/-! The smallest parts of filter text, and what may be expected of the next one. -/

namespace RuleFilter

inductive Lexeme where
  | word (s : String)
  | string (s : String)
  | number (x : Binary64.Finite)
  | compare (op : Operator)
  | openParen | closeParen | openBracket | closeBracket | comma
  deriving DecidableEq

namespace Lexeme

def describe : Lexeme → String
  | .word s => "'" ++ s ++ "'"
  | .string s => "string \"" ++ s ++ "\""
  | .number x => "number " ++ Binary64.text x
  | .compare op => "'" ++ op.symbol ++ "'"
  | .openParen => "'('"
  | .closeParen => "')'"
  | .openBracket => "'['"
  | .closeBracket => "']'"
  | .comma => "','"

def isKeyword (k : Keyword) : Lexeme → Bool
  | .word s => Keyword.ofWord? s == some k
  | _ => false

def value? : Lexeme → Option Value
  | .string s => some (.string s)
  | .number x => some (.number x)
  | .word s =>
    match Keyword.ofWord? s with
    | some .true => some (.bool true)
    | some .false => some (.bool false)
    | some .null => some .null
    | _ => none
  | _ => none

end Lexeme

/-- What the next lexeme should have been. -/
inductive Expected where
  | fieldName
  | operator (field : String)
  | value
  | keyword (k : Keyword)
  | mark (l : Lexeme)
  | listSeparator
  | continuation
  deriving DecidableEq

namespace Expected

/-- Whether a lexeme is the single one that is expected. -/
def admits : Expected → Lexeme → Bool
  | .keyword k, l => l.isKeyword k
  | .mark m, l => m == l
  | _, _ => false

def describe : Expected → String
  | .fieldName => "field name"
  | .operator field => "operator after field '" ++ field ++ "'"
  | .value => "value"
  | .keyword k => "'" ++ k.text ++ "'"
  | .mark l => l.describe
  | .listSeparator => "',' or ']'"
  | .continuation => "'AND', 'OR' or end of input"

/-- The complaint about the lexeme found instead; none is the end of the text. -/
def complaint : Expected → Option Lexeme → String
  | .fieldName, some (.word s) => "expected field name but found keyword '" ++ s ++ "'"
  | .operator field, some (.word s) =>
    "unknown operator '" ++ Text.lower s ++ "' after field '" ++ field ++ "'"
  | e, found =>
    "expected " ++ e.describe ++ " but found " ++ found.elim "end of input" Lexeme.describe

end Expected

end RuleFilter
