import RuleFilter.Json.Numeral

/-!
JSON documents as written. Reading keeps repeated keys, numbers and escapes as they stand, so that
a document can be decoded where part of it is ignored: an ignored part only has to be well formed,
while a part that is used also has to fit the values of `Json`.
-/

namespace RuleFilter.Json

/-- One piece of a string: a character, or the code unit of a `\u` escape. -/
inductive Piece where
  | char (c : Char)
  | unit (code : Nat)

inductive Written where
  | null
  | bool (b : Bool)
  | number (n : Numeral)
  | string (s : List Piece)
  | array (items : List Written)
  | object (members : List (List Piece × Written))

/-- The smallest parts of a document. -/
inductive Lexeme where
  | openArray | closeArray | openObject | closeObject | comma | colon
  | null | bool (b : Bool) | number (n : Numeral) | string (s : List Piece)

def isSpace (c : Char) : Bool := c == ' ' || c == '\t' || c == '\n' || c == '\r'

def hexValue? (c : Char) : Option Nat :=
  if c.isDigit then some (c.toNat - '0'.toNat)
  else if 'a' ≤ c ∧ c ≤ 'f' then some (c.toNat - 'a'.toNat + 10)
  else if 'A' ≤ c ∧ c ≤ 'F' then some (c.toNat - 'A'.toNat + 10)
  else none

def codeUnit? (a b c d : Char) : Option Nat := do
  return ((← hexValue? a) * 16 + (← hexValue? b)) * 256 + ((← hexValue? c) * 16 + (← hexValue? d))

def escaped? : Char → Option Char
  | '"' => some '"'
  | '\\' => some '\\'
  | '/' => some '/'
  | 'b' => some '\x08'
  | 'f' => some '\x0C'
  | 'n' => some '\n'
  | 'r' => some '\r'
  | 't' => some '\t'
  | _ => none

/-- The rest of a string after its opening quote, and what follows the closing one. -/
def scanString : List Char → Option (List Piece × List Char)
  | [] => none
  | '"' :: cs => some ([], cs)
  | '\\' :: 'u' :: a :: b :: c :: d :: cs => do
    let u ← codeUnit? a b c d
    let (ps, rest) ← scanString cs
    return (.unit u :: ps, rest)
  | '\\' :: e :: cs => do
    let c ← escaped? e
    let (ps, rest) ← scanString cs
    return (.char c :: ps, rest)
  | c :: cs =>
    if c.toNat < 0x20 then none
    else do
      let (ps, rest) ← scanString cs
      return (.char c :: ps, rest)

/-- Digits that are required. -/
def scanDigits (cs : List Char) : Option (List Char × List Char) :=
  match cs.takeWhile Char.isDigit with
  | [] => none
  | ds => some (ds, cs.dropWhile Char.isDigit)

/-- A single zero, or digits that do not begin with one. -/
def scanWhole : List Char → Option (List Char × List Char)
  | '0' :: cs => some (['0'], cs)
  | cs => scanDigits cs

def scanFraction : List Char → Option (List Char × List Char)
  | '.' :: cs => scanDigits cs
  | cs => some ([], cs)

def scanExponent : List Char → Option (Option (Bool × List Char) × List Char)
  | [] => some (none, [])
  | c :: cs =>
    if c = 'e' ∨ c = 'E' then do
      let (negative, cs) := Decimal.splitSign cs
      let (ds, rest) ← scanDigits cs
      return (some (negative, ds), rest)
    else some (none, c :: cs)

def scanNumeral (cs : List Char) : Option (Numeral × List Char) := do
  let (negative, cs) := match cs with
    | '-' :: cs => (true, cs)
    | cs => (false, cs)
  let (whole, cs) ← scanWhole cs
  let (fraction, cs) ← scanFraction cs
  let (exponent, cs) ← scanExponent cs
  return (⟨negative, whole, fraction, exponent⟩, cs)

def scanLexeme : List Char → Option (Lexeme × List Char)
  | '[' :: cs => some (.openArray, cs)
  | ']' :: cs => some (.closeArray, cs)
  | '\x7b' :: cs => some (.openObject, cs)
  | '\x7d' :: cs => some (.closeObject, cs)
  | ',' :: cs => some (.comma, cs)
  | ':' :: cs => some (.colon, cs)
  | 'n' :: 'u' :: 'l' :: 'l' :: cs => some (.null, cs)
  | 't' :: 'r' :: 'u' :: 'e' :: cs => some (.bool true, cs)
  | 'f' :: 'a' :: 'l' :: 's' :: 'e' :: cs => some (.bool false, cs)
  | '"' :: cs => (scanString cs).map fun (s, rest) => (.string s, rest)
  | cs => (scanNumeral cs).map fun (n, rest) => (.number n, rest)

theorem scanString_length {cs rest : List Char} {ps : List Piece}
    (h : scanString cs = some (ps, rest)) : rest.length < cs.length := by
  fun_induction scanString cs generalizing ps rest with
  | case1 => simp at h
  | case2 => simp at h; simp [h.2]
  | case3 a b c d cs ih =>
    simp only [Option.bind_eq_bind, Option.bind_eq_some_iff, Option.pure_def,
      Option.some.injEq] at h
    obtain ⟨_, _, ⟨_, _⟩, hs, he⟩ := h
    cases he
    have := ih hs
    simp only [List.length_cons]; omega
  | case4 e cs _ ih =>
    simp only [Option.bind_eq_bind, Option.bind_eq_some_iff, Option.pure_def,
      Option.some.injEq] at h
    obtain ⟨_, _, ⟨_, _⟩, hs, he⟩ := h
    cases he
    have := ih hs
    simp only [List.length_cons]; omega
  | case5 => simp at h
  | case6 c cs _ _ _ _ ih =>
    simp only [Option.bind_eq_bind, Option.bind_eq_some_iff, Option.pure_def,
      Option.some.injEq] at h
    obtain ⟨⟨_, _⟩, hs, he⟩ := h
    cases he
    have := ih hs
    simp only [List.length_cons]; omega

theorem scanDigits_length {cs ds rest : List Char} (h : scanDigits cs = some (ds, rest)) :
    rest.length < cs.length := by
  unfold scanDigits at h
  split at h
  · simp at h
  · next hd =>
    simp only [Option.some.injEq, Prod.mk.injEq] at h
    have := congrArg List.length (List.takeWhile_append_dropWhile (p := Char.isDigit) (l := cs))
    have : 0 < (cs.takeWhile Char.isDigit).length := List.length_pos_iff.2 hd
    simp only [List.length_append] at *
    rw [← h.2]; omega

theorem scanWhole_length {cs ds rest : List Char} (h : scanWhole cs = some (ds, rest)) :
    rest.length < cs.length := by
  unfold scanWhole at h
  split at h
  · simp at h; simp [h.2]
  · exact scanDigits_length h

theorem scanFraction_length {cs ds rest : List Char} (h : scanFraction cs = some (ds, rest)) :
    rest.length ≤ cs.length := by
  unfold scanFraction at h
  split at h
  · have := scanDigits_length h
    simp only [List.length_cons]; omega
  · simp at h; simp [h.2]

theorem scanExponent_length {cs rest : List Char} {e : Option (Bool × List Char)}
    (h : scanExponent cs = some (e, rest)) : rest.length ≤ cs.length := by
  unfold scanExponent at h
  split at h
  · simp at h; simp [h.2]
  · next c cs =>
    split at h
    · simp only [Option.bind_eq_bind, Option.bind_eq_some_iff, Option.pure_def,
        Option.some.injEq] at h
      obtain ⟨⟨_, _⟩, hd, he⟩ := h
      cases he
      have := scanDigits_length hd
      have := Decimal.splitSign_length cs
      simp only [List.length_cons]; omega
    · simp at h; simp [← h.2]

theorem scanNumeral_length {cs rest : List Char} {n : Numeral}
    (h : scanNumeral cs = some (n, rest)) : rest.length < cs.length := by
  unfold scanNumeral at h
  simp only [Option.bind_eq_bind, Option.bind_eq_some_iff, Option.pure_def, Option.some.injEq] at h
  obtain ⟨⟨_, _⟩, hw, ⟨_, _⟩, hf, ⟨_, _⟩, he, hr⟩ := h
  cases hr
  have := scanWhole_length hw
  have := scanFraction_length hf
  have := scanExponent_length he
  split at * <;> simp at * <;> omega

theorem scanLexeme_length {cs rest : List Char} {l : Lexeme} (h : scanLexeme cs = some (l, rest)) :
    rest.length < cs.length := by
  unfold scanLexeme at h
  split at h
  case h_10 =>
    obtain ⟨⟨_, _⟩, hs, he⟩ := Option.map_eq_some_iff.1 h
    cases he
    have := scanString_length hs
    simp only [List.length_cons]; omega
  case h_11 =>
    obtain ⟨⟨_, _⟩, hn, he⟩ := Option.map_eq_some_iff.1 h
    cases he
    exact scanNumeral_length hn
  all_goals
    simp only [Option.some.injEq, Prod.mk.injEq] at h
    simp only [← h.2, List.length_cons]; omega

/-- The lexemes of a text in order. -/
def lexemes (cs : List Char) : Option (List Lexeme) :=
  match _h : cs.dropWhile isSpace with
  | [] => some []
  | c :: rest =>
    match _hl : scanLexeme (c :: rest) with
    | none => none
    | some (l, after) => (lexemes after).map (l :: ·)
termination_by cs.length
decreasing_by
  have h₁ := scanLexeme_length _hl
  have h₂ : (cs.dropWhile isSpace).length ≤ cs.length := (List.dropWhile_suffix _).length_le
  rw [_h] at h₂
  omega

namespace Written

/-- A container that is still open, with what it holds so far in reverse. -/
inductive Frame where
  | array (items : List Written)
  | object (members : List (List Piece × Written)) (key : List Piece)

/-- Builds the value that the lexemes spell. The second argument is the value just completed; none
means that a value has to come next. Open containers are kept on a stack, so nesting has no bound
here. -/
def build : List Frame → Option Written → List Lexeme → Option Written
  | [], some v, [] => some v
  | .array vs :: stack, some v, .comma :: ls => build (.array (v :: vs) :: stack) none ls
  | .array vs :: stack, some v, .closeArray :: ls =>
    build stack (some (.array (v :: vs).reverse)) ls
  | .object ms k :: stack, some v, .comma :: .string k' :: .colon :: ls =>
    build (.object ((k, v) :: ms) k' :: stack) none ls
  | .object ms k :: stack, some v, .closeObject :: ls =>
    build stack (some (.object ((k, v) :: ms).reverse)) ls
  | stack, none, .openArray :: .closeArray :: ls => build stack (some (.array [])) ls
  | stack, none, .openArray :: ls => build (.array [] :: stack) none ls
  | stack, none, .openObject :: .closeObject :: ls => build stack (some (.object [])) ls
  | stack, none, .openObject :: .string k :: .colon :: ls => build (.object [] k :: stack) none ls
  | stack, none, .null :: ls => build stack (some .null) ls
  | stack, none, .bool b :: ls => build stack (some (.bool b)) ls
  | stack, none, .number n :: ls => build stack (some (.number n)) ls
  | stack, none, .string s :: ls => build stack (some (.string s)) ls
  | _, _, _ => none

/-- Reads one document, with nothing after it but space. -/
def read? (text : String) : Option Written := (lexemes text.toList).bind (build [] none)

end Written

/-- The characters of a string. Code units beyond the basic plane come in pairs, and a half of a
pair alone spells nothing. -/
def joinPieces : List Piece → Option (List Char)
  | [] => some []
  | .char c :: ps => (joinPieces ps).map (c :: ·)
  | .unit u :: ps =>
    if u < 0xD800 ∨ 0xDFFF < u then (joinPieces ps).map (Char.ofNat u :: ·)
    else if 0xDC00 ≤ u then none
    else
      match ps with
      | .unit w :: ps =>
        if 0xDC00 ≤ w ∧ w ≤ 0xDFFF then
          (joinPieces ps).map (Char.ofNat (0x10000 + (u - 0xD800) * 0x400 + (w - 0xDC00)) :: ·)
        else none
      | _ => none

def textOf (s : List Piece) : Option String := (joinPieces s).map String.ofList

namespace Written

/-- Containers nested deeper than this are not read as values. -/
def maxNesting : Nat := 127

/-- The value written, if its containers nest no deeper than the first argument says. Of members
with one key the last value counts, in the place of the first. -/
def value? : Nat → Written → Option Json
  | _, .null => some .null
  | _, .bool b => some (.bool b)
  | _, .number n => n.toJson?
  | _, .string s => (textOf s).map .string
  | 0, .array _ => none
  | 0, .object _ => none
  | depth + 1, .array items => (items.mapM (value? depth)).map .array
  | depth + 1, .object members => do
    let members ← members.mapM fun (k, w) => do return (← textOf k, ← value? depth w)
    return .object (Entries.ofList members)

end Written

/-- Reads a text as one value. -/
def read? (text : String) : Option Json :=
  (Written.read? text).bind (Written.value? Written.maxNesting)

end RuleFilter.Json
