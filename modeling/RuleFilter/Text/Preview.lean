import RuleFilter.Text.Blank

/-! Short previews of long texts. -/

namespace RuleFilter.Text

def previewLength : Nat := 60

/-- The trimmed text, cut after `most` characters and then marked with an ellipsis. -/
def preview (s : String) (most : Nat) : String :=
  let cs := trim s.toList
  if most < cs.length then String.ofList (cs.take most) ++ "..." else String.ofList cs

end RuleFilter.Text
