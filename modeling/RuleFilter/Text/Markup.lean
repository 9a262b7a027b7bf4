/-! HTML text: the five characters that markup is made of are written as entities. -/

namespace RuleFilter.Text

def entity? : Char → Option String
  | '&' => some "&amp;"
  | '<' => some "&lt;"
  | '>' => some "&gt;"
  | '"' => some "&quot;"
  | '\'' => some "&#x27;"
  | _ => none

def escapeChar (c : Char) : List Char := ((entity? c).elim [c] String.toList)

/-- Safe to place in HTML text and in quoted attributes. -/
def escapeHtml (s : String) : String := String.ofList (s.toList.flatMap escapeChar)

@[simp] theorem toList_escapeHtml (s : String) :
    (escapeHtml s).toList = s.toList.flatMap escapeChar := by
  simp [escapeHtml]

end RuleFilter.Text
