import RuleFilter.Text.Word

/-! The reserved words of filter text, which are recognised in any case and cannot name fields. -/

namespace RuleFilter

inductive Keyword where
  | and | or | not | among | is | null | true | false | contains | starts | ends | with
  | startsWith | endsWith | between
  deriving DecidableEq

namespace Keyword

def all : List Keyword :=
  [.and, .or, .not, .among, .is, .null, .true, .false, .contains, .starts, .ends, .with,
    .startsWith, .endsWith, .between]

/-- The capital form, which messages use. -/
def text : Keyword → String
  | .and => "AND"
  | .or => "OR"
  | .not => "NOT"
  | .among => "IN"
  | .is => "IS"
  | .null => "NULL"
  | .true => "TRUE"
  | .false => "FALSE"
  | .contains => "CONTAINS"
  | .starts => "STARTS"
  | .ends => "ENDS"
  | .with => "WITH"
  | .startsWith => "STARTSWITH"
  | .endsWith => "ENDSWITH"
  | .between => "BETWEEN"

def ofWord? (s : String) : Option Keyword := all.find? fun k => Text.sameWord k.text s

theorem ofWord?_congr {s t : String} (h : Text.lower s = Text.lower t) : ofWord? s = ofWord? t := by
  simp [ofWord?, Text.sameWord, h]

end Keyword

namespace Text

/-- The characters of a field name after the first: word characters and points. -/
def isFieldPart (c : Char) : Bool := isWordPart c || c == '.'

/-- A word that may hold points and is not reserved. -/
def isFieldName (s : String) : Bool :=
  match s.toList with
  | [] => false
  | c :: cs => isWordStart c && cs.all isFieldPart && (Keyword.ofWord? s).isNone

end Text

end RuleFilter
