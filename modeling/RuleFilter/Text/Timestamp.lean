import RuleFilter.Binary64.Decimal

/-! Timestamps as RFC 3339 writes them: a calendar date, a time of day and an offset. -/

namespace RuleFilter.Text

def isLeapYear (year : Nat) : Bool := year % 4 == 0 && (year % 100 != 0 || year % 400 == 0)

def daysInMonth (year month : Nat) : Nat :=
  if month = 2 then if isLeapYear year then 29 else 28
  else if month = 4 ∨ month = 6 ∨ month = 9 ∨ month = 11 then 30
  else 31

namespace Timestamp

/-- A number of exactly so many digits, and the text after it. -/
def number? (width : Nat) (cs : List Char) : Option (Nat × List Char) :=
  if width ≤ cs.length ∧ (cs.take width).all Char.isDigit then
    some (Decimal.natOfDigits (cs.take width), cs.drop width)
  else none

def skip? (accepted : List Char) : List Char → Option (List Char)
  | [] => none
  | c :: cs => if c ∈ accepted then some cs else none

def date? (cs : List Char) : Option (List Char) := do
  let (year, cs) ← number? 4 cs
  let (month, cs) ← number? 2 (← skip? ['-'] cs)
  let (day, cs) ← number? 2 (← skip? ['-'] cs)
  guard (1 ≤ month ∧ month ≤ 12 ∧ 1 ≤ day ∧ day ≤ daysInMonth year month)
  return cs

/-- The text after a valid time of day; a leap second may end any minute. -/
def time? (cs : List Char) : Option (List Char) := do
  let (hour, cs) ← number? 2 cs
  let (minute, cs) ← number? 2 (← skip? [':'] cs)
  let (second, cs) ← number? 2 (← skip? [':'] cs)
  guard (hour ≤ 23 ∧ minute ≤ 59 ∧ second ≤ 60)
  match cs with
  | '.' :: cs =>
    guard (cs.takeWhile Char.isDigit ≠ [])
    return cs.dropWhile Char.isDigit
  | _ => return cs

/-- The text after a valid offset. Its minus may be the mathematical sign. -/
def offset? (cs : List Char) : Option (List Char) :=
  match skip? ['Z', 'z'] cs with
  | some cs => some cs
  | none => do
    let (hour, cs) ← number? 2 (← skip? ['+', '-', '\u2212'] cs)
    let (minute, cs) ← number? 2 (← skip? [':'] cs)
    guard (hour ≤ 23 ∧ minute ≤ 59)
    return cs

end Timestamp

def isTimestamp (s : String) : Bool :=
  (do
    let cs ← Timestamp.date? s.toList
    let cs ← Timestamp.time? (← Timestamp.skip? ['T', 't', ' '] cs)
    Timestamp.offset? cs) == some []

end RuleFilter.Text
