/-! LIKE patterns. The backslash makes the character after it literal. -/

namespace RuleFilter.Sql

/-- Whether a pattern gives the character a meaning of its own. -/
def isWildcard (c : Char) : Bool := c == '\\' || c == '%' || c == '_'

def escapeWildcard (c : Char) : List Char := if isWildcard c then ['\\', c] else [c]

/-- A pattern that matches exactly one text. -/
def literalPattern (s : String) : String := String.ofList (s.toList.flatMap escapeWildcard)

@[simp] theorem toList_literalPattern (s : String) :
    (literalPattern s).toList = s.toList.flatMap escapeWildcard := by
  simp [literalPattern]

end RuleFilter.Sql
