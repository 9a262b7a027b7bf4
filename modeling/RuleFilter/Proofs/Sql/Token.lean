import RuleFilter.Predicate.Clause
import RuleFilter.Rule.Keyword

/-!
Fragments of SQL as tokens. The bound parameters stand in their places, so that from here on a
fragment says what it tests without them.
-/

namespace RuleFilter.Sql

inductive Keyword where
  | and | or | not | is | null | between | among | like | escape
  deriving DecidableEq

namespace Keyword

def all : List Keyword := [.and, .or, .not, .is, .null, .between, .among, .like, .escape]

def text : Keyword → String
  | .and => "AND"
  | .or => "OR"
  | .not => "NOT"
  | .is => "IS"
  | .null => "NULL"
  | .between => "BETWEEN"
  | .among => "IN"
  | .like => "LIKE"
  | .escape => "ESCAPE"

/-- Words that differ only in case are the same keyword. -/
def ofWord? (s : String) : Option Keyword := all.find? fun k => Text.sameWord k.text s

end Keyword

/-- The smallest parts of a fragment. A place is the value of its parameter. -/
inductive Token where
  | keyword (k : Keyword)
  | name (s : String)
  | value (v : Value)
  | number (n : Nat)
  | sign (relation : Relation)
  | quoted (cs : List Char)
  | openParen | closeParen | comma

namespace Token

def ofWord (cs : List Char) : Token :=
  match Keyword.ofWord? (String.ofList cs) with
  | some k => .keyword k
  | none => .name (String.ofList cs)

def mark? : Char → Option Token
  | '(' => some .openParen
  | ')' => some .closeParen
  | ',' => some .comma
  | _ => none

/-- A comparison sign, the longest one that the text begins with. -/
def sign? : List Char → Option (Relation × List Char)
  | '<' :: '>' :: cs => some (.ne, cs)
  | '<' :: '=' :: cs => some (.le, cs)
  | '<' :: cs => some (.lt, cs)
  | '>' :: '=' :: cs => some (.ge, cs)
  | '>' :: cs => some (.gt, cs)
  | '=' :: cs => some (.eq, cs)
  | _ => none

/-- The content of a quoted text, in which two quotes are one, and what follows it. -/
def quoted? : List Char → Option (List Char × List Char)
  | '\'' :: '\'' :: cs => (quoted? cs).map fun (s, rest) => ('\'' :: s, rest)
  | '\'' :: cs => some ([], cs)
  | c :: cs => (quoted? cs).map fun (s, rest) => (c :: s, rest)
  | [] => none

def digitsNumber (cs : List Char) : Nat := Nat.ofDigitChars 10 cs 0

/-- The token that a text begins with, given by its first character and the others, when the places
before it used the first `n` parameters. A question mark takes the parameter after those, a number
the one that it counts. -/
def next (params : List Value) (n : Nat) (c : Char) (cs : List Char) :
    Option (Token × Nat × List Char) :=
  if Text.isWordStart c then
    some (ofWord (c :: cs.takeWhile Text.isFieldPart), n, cs.dropWhile Text.isFieldPart)
  else if c.isDigit then
    some (.number (digitsNumber (c :: cs.takeWhile Char.isDigit)), n, cs.dropWhile Char.isDigit)
  else if c = '?' then (params[n]?).map fun v => (.value v, n + 1, cs)
  else if c = '$' then
    match digitsNumber (cs.takeWhile Char.isDigit) with
    | 0 => none
    | i + 1 => (params[i]?).map fun v => (.value v, max n (i + 1), cs.dropWhile Char.isDigit)
  else if c = '\'' then (quoted? cs).map fun (s, rest) => (.quoted s, n, rest)
  else
    match mark? c with
    | some t => some (t, n, cs)
    | none => (sign? (c :: cs)).map fun (relation, rest) => (.sign relation, n, rest)

theorem quoted?_length {cs content rest : List Char} (h : quoted? cs = some (content, rest)) :
    rest.length < cs.length := by
  fun_induction quoted? cs generalizing content rest with
  | case1 cs ih =>
    simp only [Option.map_eq_some_iff, Prod.mk.injEq] at h
    obtain ⟨⟨s, r⟩, hs, -, rfl⟩ := h
    have := ih hs
    simp only [List.length_cons]
    omega
  | case2 cs _ => simp_all
  | case3 c cs _ _ ih =>
    simp only [Option.map_eq_some_iff, Prod.mk.injEq] at h
    obtain ⟨⟨s, r⟩, hs, -, rfl⟩ := h
    have := ih hs
    simp only [List.length_cons]
    omega
  | case4 => simp at h

theorem sign?_length {cs rest : List Char} {relation : Relation}
    (h : sign? cs = some (relation, rest)) : rest.length < cs.length := by
  unfold sign? at h
  split at h <;> cases h <;> simp only [List.length_cons] <;> omega

theorem next_length {params : List Value} {n m : Nat} {c : Char} {cs rest : List Char} {t : Token}
    (h : next params n c cs = some (t, m, rest)) : rest.length ≤ cs.length := by
  have hdrop : ∀ p : Char → Bool, (cs.dropWhile p).length ≤ cs.length :=
    fun p => (List.dropWhile_suffix p).length_le
  unfold next at h
  split at h
  · cases h
    exact hdrop _
  split at h
  · cases h
    exact hdrop _
  split at h
  · obtain ⟨v, -, he⟩ := Option.map_eq_some_iff.1 h
    cases he
    exact Nat.le_refl _
  split at h
  · split at h
    · cases h
    · obtain ⟨v, -, he⟩ := Option.map_eq_some_iff.1 h
      cases he
      exact hdrop _
  split at h
  · obtain ⟨⟨s, r⟩, hq, he⟩ := Option.map_eq_some_iff.1 h
    cases he
    exact Nat.le_of_lt (quoted?_length hq)
  split at h
  · cases h
    exact Nat.le_refl _
  · obtain ⟨⟨relation, r⟩, hs, he⟩ := Option.map_eq_some_iff.1 h
    cases he
    have := sign?_length hs
    rw [List.length_cons] at this
    omega

end Token

/-- The tokens of a text when the places before it used the first `n` parameters. -/
def scan (params : List Value) (n : Nat) : List Char → Option (List Token)
  | [] => some []
  | c :: cs =>
    if c.isWhitespace then scan params n cs
    else
      match _h : Token.next params n c cs with
      | none => none
      | some (t, m, rest) => (scan params m rest).map (t :: ·)
termination_by cs => cs.length
decreasing_by
  · simp
  · have := Token.next_length _h
    simp only [List.length_cons]
    omega

end RuleFilter.Sql
