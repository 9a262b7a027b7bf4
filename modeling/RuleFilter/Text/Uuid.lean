/-! The written forms of a UUID: 32 hexadecimal digits, in one run or in five groups, the latter
also in braces or as a URN. -/

namespace RuleFilter.Text

def isHexDigit (c : Char) : Bool := c.isDigit || ('a' ≤ c && c ≤ 'f') || ('A' ≤ c && c ≤ 'F')

/-- Whether a text is groups of hexadecimal digits of the given widths with hyphens between. -/
def isGrouped : List Nat → List Char → Bool
  | [], cs => cs.isEmpty
  | [width], cs => cs.length == width && cs.all isHexDigit
  | width :: widths, cs =>
    (cs.take width).length == width && (cs.take width).all isHexDigit &&
      match cs.drop width with
      | '-' :: rest => isGrouped widths rest
      | _ => false

def isHyphenated (cs : List Char) : Bool := isGrouped [8, 4, 4, 4, 12] cs

/-- The hyphenated form after `urn:uuid:`, the letters of which are compared without regard to case
as those of every URN scheme and namespace are. -/
def isUrn (cs : List Char) : Bool :=
  (cs.take 9).map Char.toLower == "urn:uuid:".toList && isHyphenated (cs.drop 9)

def isUuid (s : String) : Bool :=
  match s.toList with
  | '\x7b' :: cs => cs.getLast? == some '\x7d' && isHyphenated cs.dropLast
  | cs => isGrouped [32] cs || isHyphenated cs || isUrn cs

end RuleFilter.Text
