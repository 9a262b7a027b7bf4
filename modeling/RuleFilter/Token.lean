import RuleFilter.Binary64.Decimal
import RuleFilter.Error
import RuleFilter.Text.Blank

/-!
Filter text as tokens. A token keeps the text from its first character on, so its position is what
the whole text has before that. Blanks separate tokens and are otherwise skipped.
-/

namespace RuleFilter

def Text.byteLength (cs : List Char) : Nat := cs.foldr (fun c n => c.utf8Size + n) 0

structure Token where
  lexeme : Lexeme
  source : List Char
  deriving DecidableEq

namespace Token

/-- Where no token begins. -/
inductive Fault where
  | loneBang
  | strayCharacter (c : Char)
  | unterminatedString (start : List Char)
  | badEscape (c : Char)
  | badNumber (spelling : List Char)
  deriving DecidableEq

/-- The text from the offending place on, and what is wrong there. -/
structure Failure where
  source : List Char
  fault : Fault
  deriving DecidableEq

def mark? : Char → Option Lexeme
  | '(' => some .openParen
  | ')' => some .closeParen
  | '[' => some .openBracket
  | ']' => some .closeBracket
  | ',' => some .comma
  | _ => none

/-- A comparison sign, the longest one that the text begins with. -/
def comparison? : List Char → Option (Operator × List Char)
  | '=' :: '=' :: cs => some (.eq, cs)
  | '=' :: cs => some (.eq, cs)
  | '!' :: '=' :: cs => some (.neq, cs)
  | '<' :: '=' :: cs => some (.lte, cs)
  | '<' :: '>' :: cs => some (.neq, cs)
  | '<' :: cs => some (.lt, cs)
  | '>' :: '=' :: cs => some (.gte, cs)
  | '>' :: cs => some (.gt, cs)
  | _ => none

def unescape? : Char → Option Char
  | '"' => some '"'
  | '\'' => some '\''
  | '\\' => some '\\'
  | 'n' => some '\n'
  | 't' => some '\t'
  | _ => none

/-- The content of a string up to its closing quote, and the text after that. The string starts at
`start`, its quote included. -/
def quoted (start : List Char) (quote : Char) :
    List Char → Except Failure (List Char × List Char)
  | [] => .error ⟨[], .unterminatedString start⟩
  | c :: cs =>
    if c = quote then .ok ([], cs)
    else if c = '\\' then
      match cs with
      | [] => .error ⟨[], .unterminatedString start⟩
      | e :: cs =>
        match unescape? e with
        | none => .error ⟨c :: e :: cs, .badEscape e⟩
        | some d =>
          match quoted start quote cs with
          | .error f => .error f
          | .ok (content, rest) => .ok (d :: content, rest)
    else
      match quoted start quote cs with
      | .error f => .error f
      | .ok (content, rest) => .ok (c :: content, rest)

def isSign (c : Char) : Bool := c == '+' || c == '-'

/-- The run of digits, points, exponent letters and signs that a number may be spelled with; a sign
only belongs to it after an exponent letter, or in front if the first argument says so. -/
def numberSpan : Bool → List Char → List Char × List Char
  | _, [] => ([], [])
  | signed, c :: cs =>
    let isExponent := c == 'e' || c == 'E'
    if c.isDigit || c == '.' || isExponent || (signed && isSign c) then
      (c :: (numberSpan isExponent cs).1, (numberSpan isExponent cs).2)
    else ([], c :: cs)

def number? (spelling : List Char) : Option Binary64.Finite :=
  (Decimal.ofChars? spelling).bind fun d => (Binary64.ofDecimal d).finite?

/-- The lexeme that a text begins with, given by its first character and the others, and the text
after it. -/
def next (c : Char) (cs : List Char) : Except Failure (Lexeme × List Char) :=
  match mark? c with
  | some l => .ok (l, cs)
  | none =>
    match comparison? (c :: cs) with
    | some (op, rest) => .ok (.compare op, rest)
    | none =>
      if c = '!' then .error ⟨c :: cs, .loneBang⟩
      else if c = '"' ∨ c = '\'' then
        match quoted (c :: cs) c cs with
        | .error f => .error f
        | .ok (content, rest) => .ok (.string (String.ofList content), rest)
      else if c.isDigit || isSign c then
        let (spelling, rest) := numberSpan false cs
        match number? (c :: spelling) with
        | some x => .ok (.number x, rest)
        | none => .error ⟨c :: cs, .badNumber (c :: spelling)⟩
      else if Text.isWordStart c then
        .ok (.word (String.ofList (c :: cs.takeWhile Text.isFieldPart)),
          cs.dropWhile Text.isFieldPart)
      else .error ⟨c :: cs, .strayCharacter c⟩

theorem comparison?_length {cs rest : List Char} {op : Operator}
    (h : comparison? cs = some (op, rest)) : rest.length < cs.length := by
  unfold comparison? at h
  split at h <;> simp at h <;> (obtain ⟨-, rfl⟩ := h; simp; try omega)

theorem quoted_length {start : List Char} {quote : Char} {cs content rest : List Char}
    (h : quoted start quote cs = .ok (content, rest)) : rest.length < cs.length := by
  fun_induction quoted start quote cs generalizing content rest with
  | case1 => simp at h
  | case2 => simp at h; simp [h.2]
  | case3 => simp at h
  | case4 => simp at h
  | case5 => simp at h
  | case6 _ _ _ _ _ _ hq _ ih =>
    simp at h
    have := ih hq
    simp [← h.2]; omega
  | case7 => simp at h
  | case8 _ _ _ _ _ _ hq ih =>
    simp at h
    have := ih hq
    simp [← h.2]; omega

theorem numberSpan_append (signed : Bool) (cs : List Char) :
    (numberSpan signed cs).1 ++ (numberSpan signed cs).2 = cs := by
  fun_induction numberSpan signed cs <;> simp_all

theorem next_length {c : Char} {cs rest : List Char} {l : Lexeme}
    (h : next c cs = .ok (l, rest)) : rest.length ≤ cs.length := by
  unfold next at h
  split at h
  · simp at h; simp [h.2]
  · split at h
    · next hc =>
      simp at h
      have := comparison?_length hc
      simp [← h.2] at this ⊢
      omega
    · split at h
      · simp at h
      · split at h
        · split at h
          · simp at h
          · next hq =>
            simp at h
            have := quoted_length hq
            rw [← h.2]; omega
        · split at h
          · have := congrArg List.length (numberSpan_append false cs)
            simp only [List.length_append] at this
            revert h
            dsimp only
            split
            · intro h
              simp at h
              rw [← h.2]; omega
            · simp
          · split at h
            · simp at h
              rw [← h.2]
              exact (List.dropWhile_suffix _).length_le
            · simp at h

/-- The tokens of a text in order. -/
def scan (cs : List Char) : Except Failure (List Token) :=
  match _h : Text.trimStart cs with
  | [] => .ok []
  | c :: rest =>
    match _hl : next c rest with
    | .error e => .error e
    | .ok (l, after) =>
      match scan after with
      | .error e => .error e
      | .ok ts => .ok (⟨l, c :: rest⟩ :: ts)
termination_by cs.length
decreasing_by
  have h₁ := next_length _hl
  have h₂ : (Text.trimStart cs).length ≤ cs.length := (List.dropWhile_suffix _).length_le
  rw [_h, List.length_cons] at h₂
  omega

/-- The byte offset in a text of a place that has `source` after it. -/
def offset (text source : List Char) : Nat := Text.byteLength text - Text.byteLength source

def position (text : List Char) (t : Token) : Nat := offset text t.source

def Failure.toError (text : List Char) (f : Failure) : FilterError :=
  .malformed (offset text f.source) <|
    match f.fault with
    | .loneBang => .loneBang
    | .strayCharacter c => .strayCharacter c
    | .unterminatedString start => .unterminatedString (offset text start)
    | .badEscape c => .badEscape c
    | .badNumber spelling => .badNumber (String.ofList spelling)

end Token

end RuleFilter
