import RuleFilter.Text.Pieces
import RuleFilter.Text.Word

/-! Names that may stand in SQL text unquoted: identifiers, and columns made of them. -/

namespace RuleFilter

namespace Sql

def isIdentifier (s : String) : Bool := Text.isIdentifier s.toList

/-- One or more identifiers with points between them. -/
def isColumn (s : String) : Bool := (Text.pieces '.' s.toList).all Text.isIdentifier

/-- A column under a table alias; an empty alias leaves it as it is. -/
def qualify (tableAlias column : String) : String :=
  if tableAlias = "" then column else tableAlias ++ "." ++ column

end Sql

end RuleFilter
