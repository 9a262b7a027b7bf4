import RuleFilter.Proofs.Binary64.Positional
import RuleFilter.Proofs.Text.Class
import RuleFilter.Rule.Text
import RuleFilter.Token

/-! One step of scanning for each kind of lexeme: by which first characters the kinds are told
apart, how the content of a string is spelled, and where each lexeme ends. -/

namespace RuleFilter

namespace Token

section Next

variable {c : Char} {cs rest : List Char}

/-- The characters that marks and comparison signs begin with. -/
def symbols : List Char := ['(', ')', '[', ']', ',', '=', '!', '<', '>']

theorem mark?_eq_none (h : c ∉ symbols) : mark? c = none := by
  unfold mark?
  split <;> simp_all [symbols]

theorem comparison?_eq_none (h : c ∉ symbols) : comparison? (c :: cs) = none := by
  unfold comparison?
  split <;> simp_all [symbols]

theorem next_of_mark? {l : Lexeme} (h : mark? c = some l) : next c cs = .ok (l, cs) := by
  simp [next, h]

theorem next_of_comparison? {op : Operator} (hc : mark? c = none)
    (h : comparison? (c :: cs) = some (op, rest)) : next c cs = .ok (.compare op, rest) := by
  simp [next, hc, h]

theorem next_quote {content : List Char} (hc : c = '"' ∨ c = '\'')
    (h : quoted (c :: cs) c cs = .ok (content, rest)) :
    next c cs = .ok (.string (String.ofList content), rest) := by
  have hs : c ∉ symbols := by rcases hc with rfl | rfl <;> decide
  have hbang : c ≠ '!' := by rcases hc with rfl | rfl <;> decide
  simp [next, mark?_eq_none hs, comparison?_eq_none hs, hbang, hc, h]

/-- What begins with a digit or a sign is a number or nothing. -/
theorem next_numeric (hc : c.isDigit || isSign c) : next c cs =
    match number? (c :: (numberSpan false cs).1) with
    | some x => .ok (.number x, (numberSpan false cs).2)
    | none => .error ⟨c :: cs, .badNumber (c :: (numberSpan false cs).1)⟩ := by
  have hs : c ∉ symbols := fun h => by
    have : ∀ d ∈ symbols, (d.isDigit || isSign d) = false := by simp [symbols, isSign]
    simp [this c h] at hc
  have hbang : c ≠ '!' := by rintro rfl; simp [isSign] at hc
  have hquote : ¬ (c = '"' ∨ c = '\'') := by rintro (rfl | rfl) <;> simp [isSign] at hc
  cases hx : number? (c :: (numberSpan false cs).1) with
  | some x | none =>
    simp only [next, mark?_eq_none hs, comparison?_eq_none hs, hbang, hquote, if_false, hc,
      if_true, hx]

theorem next_number {x : Binary64.Finite} (hc : c.isDigit || isSign c)
    (hx : number? (c :: (numberSpan false cs).1) = some x) :
    next c cs = .ok (.number x, (numberSpan false cs).2) := by
  rw [next_numeric hc, hx]

theorem next_word (hc : Text.isWordStart c) :
    next c cs = .ok (.word (String.ofList (c :: cs.takeWhile Text.isFieldPart)),
      cs.dropWhile Text.isFieldPart) := by
  have hs : c ∉ symbols := fun h => by
    have : ∀ d ∈ symbols, Text.isWordStart d = false := by
      simp [symbols, Text.isWordStart]
    simp [this c h] at hc
  have hbang : c ≠ '!' := by rintro rfl; simp [Text.isWordStart] at hc
  have hquote : ¬ (c = '"' ∨ c = '\'') := by rintro (rfl | rfl) <;> simp [Text.isWordStart] at hc
  have hsign : isSign c = false := by
    rw [Bool.eq_false_iff]
    intro h
    obtain rfl | rfl : c = '+' ∨ c = '-' := by simpa [isSign] using h
    all_goals simp [Text.isWordStart] at hc
  simp [next, mark?_eq_none hs, comparison?_eq_none hs, hbang, hquote, hsign, hc,
    Text.isDigit_eq_false_of_isWordStart hc]

def isNumberPart (c : Char) : Bool := c.isDigit || c == '.' || (c == 'e' || c == 'E')

theorem isFieldPart_of_isNumberPart (h : isNumberPart c) : Text.isFieldPart c := by
  rw [Text.isFieldPart_iff]
  simp only [isNumberPart, Bool.or_eq_true, beq_iff_eq] at h
  obtain (h | h) | rfl | rfl := h
  · exact .inr (.inl h)
  · exact .inr (.inr h)
  · exact .inl rfl
  · exact .inl rfl

theorem isNumberPart_congr {d : Char} (h : c.toLower = d.toLower) :
    isNumberPart c ↔ isNumberPart d := by
  obtain rfl | ⟨hc, hd, hcd⟩ := Text.toLower_eq_iff.1 h
  · exact Iff.rfl
  · rw [Text.isAlpha_iff] at hc hd
    have he : 'e'.toNat = 101 ∧ 'E'.toNat = 69 ∧ '.'.toNat = 46 := ⟨rfl, rfl, rfl⟩
    simp only [isNumberPart, Bool.or_eq_true, beq_iff_eq, Text.isDigit_iff, ← Char.toNat_inj]
    omega

/-- A plus sign in front of a number changes nothing. -/
theorem number?_plus {spelling : List Char} (hc : c.isDigit) :
    number? ('+' :: c :: spelling) = number? (c :: spelling) := by
  have hsplit : Decimal.splitSign (c :: spelling) = (false, c :: spelling) := by
    unfold Decimal.splitSign
    split
    · next heq =>
      obtain ⟨rfl, -⟩ := List.cons.inj heq
      cases hc
    · next heq =>
      obtain ⟨rfl, -⟩ := List.cons.inj heq
      cases hc
    · rfl
  have hplus : Decimal.splitSign ('+' :: c :: spelling) = (false, c :: spelling) := rfl
  rw [number?, number?, Decimal.ofChars?, Decimal.ofChars?, hsplit, hplus]

theorem numberSpan_digit (hc : c.isDigit) : numberSpan false (c :: cs) =
    (c :: (numberSpan false cs).1, (numberSpan false cs).2) := by
  have hexponent : (c == 'e' || c == 'E') = false := by
    rw [Bool.eq_false_iff]
    intro he
    obtain rfl | rfl : c = 'e' ∨ c = 'E' := by simpa using he
    all_goals cases hc
  simp [numberSpan, hc, hexponent]

theorem next_plus {x : Binary64.Finite} (hc : c.isDigit)
    (h : next c cs = .ok (.number x, rest)) : next '+' (c :: cs) = .ok (.number x, rest) := by
  rw [next_numeric (by simp [hc])] at h
  rw [next_numeric rfl, numberSpan_digit hc, number?_plus hc]
  split at h
  · exact h
  · cases h

/-- A number ends where neither a digit, a point nor an exponent letter follows. -/
theorem numberSpan_append_stop (hcs : ∀ c ∈ cs, c.isDigit || c == '.')
    (hrest : Text.Stops Text.isFieldPart rest) : numberSpan false (cs ++ rest) = (cs, rest) := by
  induction cs with
  | nil =>
    cases rest with
    | nil => rfl
    | cons c rest =>
      have hc : isNumberPart c = false :=
        Bool.eq_false_iff.2 fun h => by simp [isFieldPart_of_isNumberPart h] at hrest
      rw [isNumberPart] at hc
      simp [numberSpan, hc]
  | cons c cs ih =>
    have hc := hcs c (by simp)
    have he : (c == 'e' || c == 'E') = false := by
      rw [Bool.eq_false_iff]
      intro h
      obtain rfl | rfl : c = 'e' ∨ c = 'E' := by simpa using h
      all_goals simp at hc
    simp [numberSpan, hc, he, ih fun c hc => hcs c (by simp [hc])]

section Quoted

variable {start content rest cs : List Char} {c d quote : Char}

theorem quoted_close : quoted start quote (quote :: cs) = .ok ([], cs) := by
  rw [quoted.eq_def]
  simp

theorem quoted_escape (hquote : quote ≠ '\\') (hd : unescape? c = some d)
    (h : quoted start quote cs = .ok (content, rest)) :
    quoted start quote ('\\' :: c :: cs) = .ok (d :: content, rest) := by
  simp [quoted, hquote.symm, hd, h]

theorem quoted_plain (hquote : c ≠ quote) (hc : c ≠ '\\')
    (h : quoted start quote cs = .ok (content, rest)) :
    quoted start quote (c :: cs) = .ok (c :: content, rest) := by
  rw [quoted.eq_def]
  simp [hquote, hc, h]

/-- The spellings of the content of a string: a character may stand for itself unless it is the
quote or a backslash, and some characters may be written with a backslash in front. -/
inductive Quotes (quote : Char) : List Char → List Char → Prop
  | nil : Quotes quote [] []
  | plain {c : Char} {body content : List Char} : c ≠ quote → c ≠ '\\' →
      Quotes quote body content → Quotes quote (c :: body) (c :: content)
  | escape {c d : Char} {body content : List Char} : unescape? c = some d →
      Quotes quote body content → Quotes quote ('\\' :: c :: body) (d :: content)

theorem quoted_of_quotes {body : List Char} (hquote : quote ≠ '\\')
    (h : Quotes quote body content) :
    quoted start quote (body ++ quote :: rest) = .ok (content, rest) := by
  induction h with
  | nil => exact quoted_close
  | plain hclose hescape _ ih => exact quoted_plain hclose hescape ih
  | escape hd _ ih => exact quoted_escape hquote hd ih

/-- A string is read up to the first quote that is not escaped. -/
theorem quoted_eq_ok_iff (hquote : quote ≠ '\\') : quoted start quote cs = .ok (content, rest) ↔
    ∃ body, cs = body ++ quote :: rest ∧ Quotes quote body content := by
  constructor
  · intro h
    fun_induction quoted start quote cs generalizing content rest with
    | case1 | case3 | case4 | case5 | case7 => cases h
    | case2 cs =>
      cases h
      exact ⟨[], rfl, .nil⟩
    | case6 e cs d hd content rest hcontent _ ih =>
      cases h
      obtain ⟨body, rfl, hbody⟩ := ih hcontent
      exact ⟨_, rfl, .escape hd hbody⟩
    | case8 e cs hclose hescape content rest hcontent ih =>
      cases h
      obtain ⟨body, rfl, hbody⟩ := ih hcontent
      exact ⟨_, rfl, .plain hclose hescape hbody⟩
  · rintro ⟨body, rfl, hbody⟩
    exact quoted_of_quotes hquote hbody

theorem quotes_flatMap_quoteChar (content : List Char) :
    Quotes '"' (content.flatMap Value.quoteChar) content := by
  induction content with
  | nil => exact .nil
  | cons c content ih =>
    rw [List.flatMap_cons]
    by_cases h₁ : c = '"'
    · subst h₁; exact .escape rfl ih
    by_cases h₂ : c = '\\'
    · subst h₂; exact .escape rfl ih
    by_cases h₃ : c = '\n'
    · subst h₃; exact .escape rfl ih
    by_cases h₄ : c = '\t'
    · subst h₄; exact .escape rfl ih
    have hc : Value.quoteChar c = [c] := by
      unfold Value.quoteChar
      split <;> first | contradiction | rfl
    rw [hc]
    exact .plain h₁ h₂ ih

/-- What is quoted is read back up to the quote that closes it. -/
theorem quoted_flatMap_quoteChar (start content rest : List Char) :
    quoted start '"' (content.flatMap Value.quoteChar ++ '"' :: rest) = .ok (content, rest) :=
  quoted_of_quotes (by decide) (quotes_flatMap_quoteChar content)

end Quoted

theorem comparison?_suffix {op : Operator} (h : comparison? cs = some (op, rest)) :
    rest <:+ cs := by
  unfold comparison? at h
  split at h <;> cases h
  case h_1 | h_3 | h_4 | h_5 | h_7 => exact (List.suffix_cons ..).trans (List.suffix_cons ..)
  all_goals exact List.suffix_cons ..

/-- What stands after a lexeme is the end of the text. -/
theorem next_suffix {l : Lexeme} (h : next c cs = .ok (l, rest)) : rest <:+ cs := by
  revert h
  fun_cases next c cs with
  | case1 =>
    intro h
    cases h
    exact List.suffix_rfl
  | case2 hmark op rest' hop =>
    intro h
    cases h
    have hsuffix := comparison?_suffix hop
    have hshorter := comparison?_length hop
    rcases List.suffix_cons_iff.1 hsuffix with rfl | hcs
    · exact absurd hshorter (Nat.lt_irrefl _)
    · exact hcs
  | case5 _ _ _ hquote content rest' hcontent =>
    intro h
    cases h
    have hne : c ≠ '\\' := by rcases hquote with rfl | rfl <;> decide
    obtain ⟨body, rfl, -⟩ := (quoted_eq_ok_iff hne).1 hcontent
    exact (List.suffix_cons ..).trans (List.suffix_append ..)
  | case6 _ _ _ _ _ spelling rest' hspan =>
    intro h
    cases h
    have happend := numberSpan_append false cs
    rw [hspan] at happend
    exact ⟨spelling, happend⟩
  | case8 =>
    intro h
    cases h
    exact List.dropWhile_suffix _
  | case3 | case4 | case7 | case9 =>
    intro h
    cases h

end Next

end Token

end RuleFilter
