import RuleFilter.Proofs.Sql.Places
import RuleFilter.Proofs.Sql.Token
import RuleFilter.Proofs.Text.Reader

/-! How the parts of fragments are scanned in front of what follows them. -/

namespace RuleFilter.Sql

open TextReader

variable {params : List Value} {n m : Nat} {c : Char} {cs rest : List Char} {t : Token}
  {ts : List Token}

/-- The text is scanned as the tokens when the places before it used the first parameters. -/
def Scans (params : List Value) : TextReader Token := fun n cs ts => scan params n cs = some ts

theorem scans_nil : Scans params n [] [] := by rw [Scans, scan]

theorem Scans.of_next (hc : c.isWhitespace = false)
    (hnext : Token.next params n c cs = some (t, m, rest)) (h : Scans params m rest ts) :
    Scans params n (c :: cs) (t :: ts) := by
  rw [Scans, scan, if_neg (by simp [hc])]
  split
  · next hnone => simp [hnext] at hnone
  · next he =>
    rw [hnext] at he
    cases he
    rw [h]
    rfl

theorem Scans.blank (h : Scans params n cs ts) : Scans params n (' ' :: cs) ts := by
  rw [Scans, scan, if_pos (by decide)]
  exact h

theorem Scans.mark (hc : Token.mark? c = some t) (h : Scans params n cs ts) :
    Scans params n (c :: cs) (t :: ts) := by
  unfold Token.mark? at hc
  split at hc <;> cases hc <;> exact .of_next (by decide) rfl h

theorem Scans.sign (relation : Relation) (h : Scans params n cs ts) :
    Scans params n (relation.sign.toList ++ ' ' :: cs) (.sign relation :: ts) := by
  have hnext : ∀ c rest, relation.sign.toList = c :: rest → c.isWhitespace = false ∧
      Token.next params n c (rest ++ ' ' :: cs) = some (.sign relation, n, ' ' :: cs) := by
    intro c rest he
    cases relation <;> cases he <;> exact ⟨by decide, rfl⟩
  obtain ⟨c, rest, he⟩ : ∃ c rest, relation.sign.toList = c :: rest := by
    cases relation <;> exact ⟨_, _, rfl⟩
  rw [he]
  exact .of_next (hnext c rest he).1 (hnext c rest he).2 h.blank

theorem spans_nil : Spans (Scans params) n n [] [] := fun _ _ _ h => h

theorem spans_word (h : Text.isWord cs) : Spans (Scans params) n n cs [Token.ofWord cs] := by
  intro rest ts hrest hts
  cases cs with
  | nil => simp [Text.isWord] at h
  | cons c cs =>
    rw [Text.isWord, Bool.and_eq_true, List.all_eq_true] at h
    have hstop := stops_isFieldPart hrest
    have hc : c.isWhitespace = false := by
      have := Text.isBlank_eq_false_of_isFieldPart (Text.isFieldPart_of_isWordStart h.1)
      exact Bool.eq_false_iff.2 fun hw => by simp [Text.isBlank_of_isWhitespace hw] at this
    have hnext : Token.next params n c (cs ++ rest) = some (Token.ofWord (c :: cs), n, rest) := by
      rw [Token.next, if_pos h.1, Text.takeWhile_append_stop h.2 hstop,
        Text.dropWhile_append_stop h.2 hstop]
    exact .of_next hc hnext hts

theorem spans_keyword (k : Keyword) : Spans (Scans params) n n k.text.toList [.keyword k] := by
  have hk : Text.isWord k.text.toList ∧ Token.ofWord k.text.toList = .keyword k := by
    cases k <;> exact ⟨rfl, rfl⟩
  exact hk.2 ▸ spans_word hk.1

theorem spans_digit (hc : c.isDigit) :
    Spans (Scans params) n n [c] [.number (Token.digitsNumber [c])] := by
  intro rest ts hrest hts
  have hword : Text.isWordStart c = false := Bool.eq_false_iff.2 fun hw => by
    simp [Text.isDigit_eq_false_of_isWordStart hw] at hc
  have hblank : c.isWhitespace = false := Bool.eq_false_iff.2 fun hw => by
    have := Text.isBlank_eq_false_of_isFieldPart (Text.isFieldPart_of_isDigit hc)
    simp [Text.isBlank_of_isWhitespace hw] at this
  have hnext : Token.next params n c rest = some (.number (Token.digitsNumber [c]), n, rest) := by
    have hnone : ∀ d ∈ ([] : List Char), d.isDigit := by simp
    have htake := Text.takeWhile_append_stop hnone (stops_isDigit hrest)
    have hdrop := Text.dropWhile_append_stop hnone (stops_isDigit hrest)
    rw [List.nil_append] at htake hdrop
    rw [Token.next, if_neg (by simp [hword]), if_pos hc, htake, hdrop]
  exact .of_next hblank hnext hts

/-- The place after the first `n` stands for the parameter after these. -/
theorem spans_placeholder (d : Dialect) {v : Value} (hv : params[n]? = some v) :
    Spans (Scans params) n (n + 1) (d.placeholder (n + 1)).toList [.value v] := by
  intro rest ts hrest hts
  by_cases hd : d = .postgres
  · have hdigits : ∀ c ∈ Nat.toDigits 10 (n + 1), c.isDigit := fun c hc =>
      Nat.isDigit_of_mem_toDigits (by decide) (by decide) hc
    have htake := Text.takeWhile_append_stop hdigits (stops_isDigit hrest)
    have hdrop := Text.dropWhile_append_stop hdigits (stops_isDigit hrest)
    have hnext : Token.next params n '$' (Nat.toDigits 10 (n + 1) ++ rest) =
        some (.value v, n + 1, rest) := by
      have hnumber : Token.digitsNumber (Nat.toDigits 10 (n + 1)) = n + 1 :=
        Nat.ofDigitChars_ten_toDigits
      rw [Token.next, if_neg (by decide), if_neg (by decide), if_neg (by decide), if_pos rfl,
        htake, hdrop, hnumber]
      simp [hv]
    rw [hd, toList_placeholder_postgres]
    exact .of_next (by decide) hnext hts
  · have hnext : Token.next params n '?' rest = some (.value v, n + 1, rest) := by
      rw [Token.next, if_neg (by decide), if_neg (by decide), if_pos rfl, hv]
      rfl
    rw [toList_placeholder_of_ne hd]
    exact .of_next (by decide) hnext hts

theorem spans_escape : Spans (Scans params) n n ['\'', '\\', '\''] [.quoted ['\\']] := by
  intro rest ts hrest hts
  have hquoted : Token.quoted? ('\\' :: '\'' :: rest) = some (['\\'], rest) := by
    cases rest with
    | nil => rfl
    | cons d rest =>
      have hd : d ≠ '\'' := by
        rintro rfl
        simp [mayExtend] at hrest
      simp [Token.quoted?, hd]
  have hnext : Token.next params n '\'' ('\\' :: '\'' :: rest) =
      some (.quoted ['\\'], n, rest) := by
    rw [Token.next, if_neg (by decide), if_neg (by decide), if_neg (by decide), if_neg (by decide),
      if_pos rfl, hquoted]
    rfl
  exact .of_next (by decide) hnext hts

theorem spans_blank (h : Spans (Scans params) n m cs ts) :
    Spans (Scans params) n m (' ' :: cs) ts :=
  fun rest us hrest hus => (h rest us hrest hus).blank

/-- Parts with one blank between them. -/
theorem spans_blank_append {l : Nat} {ds : List Char} {us : List Token}
    (h : Spans (Scans params) n m cs ts) (h' : Spans (Scans params) m l ds us) :
    Spans (Scans params) n l (cs ++ ' ' :: ds) (ts ++ us) :=
  h.append (spans_blank h') ((Text.stops_cons ..).2 rfl)

theorem spans_mark (hc : Token.mark? c = some t) (h : Spans (Scans params) n m cs ts) :
    Spans (Scans params) n m (c :: cs) (t :: ts) :=
  fun rest us hrest hus => (h rest us hrest hus).mark hc

theorem spans_sign (relation : Relation) (h : Spans (Scans params) n m cs ts) :
    Spans (Scans params) n m (relation.sign.toList ++ ' ' :: cs) (.sign relation :: ts) :=
  fun rest us hrest hus => by simpa using (h rest us hrest hus).sign relation

theorem spans_equation {d : Char} (hc : c.isDigit) (hd : d.isDigit) :
    Spans (Scans params) n n [c, '=', d] (.number (Token.digitsNumber [c]) ::
      [.sign .eq, .number (Token.digitsNumber [d])]) := by
  have hequals : Spans (Scans params) n n ['=', d] [.sign .eq, .number (Token.digitsNumber [d])] :=
    fun rest us hrest hus => .of_next (by decide) rfl (spans_digit hd rest us hrest hus)
  exact (spans_digit hc).append hequals ((Text.stops_cons ..).2 rfl)

end RuleFilter.Sql
