import RuleFilter.Binary64.Layout
import RuleFilter.Rule.Basic

/-!
Canonical filter text. Keywords are capital, strings are in double quotes, one blank stands between
words, and a group is in parentheses where it stands beside other rules.
-/

namespace RuleFilter

namespace Value

def quoteChar : Char → List Char
  | '"' => ['\\', '"']
  | '\\' => ['\\', '\\']
  | '\n' => ['\\', 'n']
  | '\t' => ['\\', 't']
  | c => [c]

def text : Value → String
  | .string s => String.ofList ('"' :: s.toList.flatMap quoteChar ++ ['"'])
  | .number x => x.text
  | .bool b => if b then "true" else "false"
  | .null => "null"

end Value

namespace Operand

/-- What follows the operator. -/
def text : Operand → String
  | .none => ""
  | .single v => " " ++ v.text
  | .list vs => " [" ++ String.intercalate ", " (vs.map Value.text) ++ "]"
  | .range low high => " " ++ low.text ++ " AND " ++ high.text

end Operand

def Comparison.text (c : Comparison) : String :=
  c.field ++ " " ++ c.operator.symbol ++ c.operand.text

namespace Rule

/-- The text of a rule that stands beside others, from its text alone. -/
def enclose (r : Rule) (text : String) : String :=
  match r with
  | .leaf _ => text
  | .group _ _ => "(" ++ text ++ ")"

def text : Rule → String
  | .leaf c => c.text
  | .group _ [only] => text only
  | .group combinator children =>
    String.intercalate (" " ++ combinator.keyword ++ " ") (children.map fun r => r.enclose (text r))

end Rule

end RuleFilter
