/-! Lists of names as one text. -/

namespace RuleFilter.Text

/-- The names in quotes, in brackets. The names themselves hold no quotes. -/
def listing (names : List String) : String :=
  "[" ++ String.intercalate ", " (names.map fun name => "\"" ++ name ++ "\"") ++ "]"

end RuleFilter.Text
