/-! Words over the basic Latin letters, digits and `_`, and comparison of words without regard to
case. Every other letter stands only for itself. -/

namespace RuleFilter.Text

/-- The text with `A` to `Z` lowered. -/
def lower (s : String) : String := String.ofList (s.toList.map Char.toLower)

@[simp] theorem toList_lower (s : String) : (lower s).toList = s.toList.map Char.toLower := by
  simp [lower]

/-- Equality of words up to the case of basic Latin letters. -/
def sameWord (s t : String) : Bool := lower s == lower t

@[simp] theorem sameWord_self (s : String) : sameWord s s := by simp [sameWord]

def isWordStart (c : Char) : Bool := c.isAlpha || c == '_'

def isWordPart (c : Char) : Bool := c.isAlphanum || c == '_'

theorem isWordPart_of_isWordStart {c : Char} (h : isWordStart c) : isWordPart c := by
  simp only [isWordStart, isWordPart, Char.isAlphanum, Bool.or_eq_true] at h ⊢
  exact h.imp_left .inl

/-- A letter or `_`, then letters, digits and `_`. -/
def isIdentifier : List Char → Bool
  | [] => false
  | c :: cs => isWordStart c && cs.all isWordPart

end RuleFilter.Text
