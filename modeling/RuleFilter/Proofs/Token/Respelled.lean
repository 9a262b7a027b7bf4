import Mathlib.Logic.Relation
import RuleFilter.Proofs.Reading.Respelled
import RuleFilter.Proofs.Token.Append

/-!
Other spellings of a text. An edit respells a lexeme, or the blanks between two, in front of the
text that follows it, and leaves everything else as it is; what the edited text is scanned as
respells what the text was scanned as.
-/

namespace RuleFilter.Token

open Grammar

/-- In front of the text `after`, the first text can be written as the second one. -/
inductive Edit (after : List Char) : List Char → List Char → Prop
  /-- Other blanks. -/
  | blanks {ds ds' : List Char} : ds ≠ [] → ds' ≠ [] → (∀ c ∈ ds, Text.isBlank c) →
      (∀ c ∈ ds', Text.isBlank c) → Edit after ds ds'
  /-- A reserved word in other case. -/
  | word {s s' : String} {k : Keyword} : Keyword.ofWord? s = some k → Text.lower s' = Text.lower s →
      Text.Stops Text.isFieldPart after → Edit after s.toList s'.toList
  | doubleEquals : Text.Stops (· == '=') after → Edit after ['='] ['=', '=']
  | singleEquals : Edit after ['=', '='] ['=']
  | angles : Edit after ['!', '='] ['<', '>']
  | bang : Edit after ['<', '>'] ['!', '=']
  /-- One word for an operator of two words. -/
  | fuse {s w f : String} {ds : List Char} {k j : Keyword} : Fuses k j →
      Keyword.ofWord? s = some k → Keyword.ofWord? w = some .with → Keyword.ofWord? f = some j →
      ds ≠ [] → (∀ c ∈ ds, Text.isBlank c) → Text.Stops Text.isFieldPart after →
      Edit after (s.toList ++ (ds ++ w.toList)) f.toList
  /-- Two words for an operator of one word. -/
  | split {s w f : String} {ds : List Char} {k j : Keyword} : Fuses k j →
      Keyword.ofWord? s = some k → Keyword.ofWord? w = some .with → Keyword.ofWord? f = some j →
      ds ≠ [] → (∀ c ∈ ds, Text.isBlank c) → Text.Stops Text.isFieldPart after →
      Edit after f.toList (s.toList ++ (ds ++ w.toList))
  /-- A plus sign in front of a number without a sign. -/
  | plus {c : Char} {cs : List Char} {x : Binary64.Finite} : c.isDigit →
      next c (cs ++ after) = .ok (.number x, after) → Edit after (c :: cs) ('+' :: c :: cs)
  /-- The same content in either kind of quotes. -/
  | quotes {q q' : Char} {body body' content : List Char} : q = '"' ∨ q = '\'' →
      q' = '"' ∨ q' = '\'' → Quotes q body content → Quotes q' body' content →
      Edit after (q :: (body ++ [q])) (q' :: (body' ++ [q']))

/-- One edit makes the second text of the first one: in front of the edited place whole lexemes and
blanks stand, and the rest of the text after it. -/
def Respelled (text text' : String) : Prop :=
  ∃ (before after s s' : List Char) (ts : List Token), Before (s ++ after) before ts ∧
    Edit after s s' ∧ text.toList = before ++ (s ++ after) ∧ text'.toList = before ++ (s' ++ after)

variable {after s s' : List Char} {c : Char} {cs : List Char} {l l' : Lexeme} {ls ms : List Lexeme}

section Writes

/-- In front of the text after it, the text is a lexeme. -/
def Writes (after s : List Char) (l : Lexeme) : Prop :=
  ∃ c cs, s = c :: cs ∧ Text.isBlank c = false ∧ next c (cs ++ after) = .ok (l, after)

theorem Writes.scanned_iff (h : Writes after s l) :
    Scanned (s ++ after) ls ↔ ∃ ms, ls = l :: ms ∧ Scanned after ms := by
  obtain ⟨c, cs, rfl, hc, hl⟩ := h
  rw [List.cons_append, Scanned, scan_of_next hc hl]
  constructor
  · rintro ⟨ts, hts, rfl⟩
    obtain ⟨us, hus, rfl⟩ := map_eq_ok_iff.1 hts
    exact ⟨us.map lexeme, rfl, us, hus, rfl⟩
  · rintro ⟨_, rfl, us, hus, rfl⟩
    exact ⟨_, map_eq_ok_iff.2 ⟨us, hus, rfl⟩, rfl⟩

theorem scanned_blanks_iff {ds : List Char} (hds : ∀ c ∈ ds, Text.isBlank c) :
    Scanned (ds ++ after) ls ↔ Scanned after ls := by rw [Scanned, scan_blanks hds, Scanned]

theorem isWord_of_ofWord? {w : String} {k : Keyword} (h : Keyword.ofWord? w = some k) :
    Text.isWord w.toList := by
  rw [Keyword.ofWord?_eq_some_iff, Text.sameWord, beq_iff_eq] at h
  have hmap := congrArg String.toList h
  rw [Text.toList_lower, Text.toList_lower] at hmap
  exact Text.isWord_congr hmap (by cases k <;> rfl)

theorem writes_word {w : String} {k : Keyword} (h : Keyword.ofWord? w = some k)
    (hafter : Text.Stops Text.isFieldPart after) : Writes after w.toList (.word w) := by
  have hword := isWord_of_ofWord? h
  have hw : String.ofList w.toList = w := String.ofList_toList
  revert hword hw
  cases w.toList with
  | nil =>
    intro hword
    cases hword
  | cons c cs =>
    rintro hword rfl
    rw [Text.isWord, Bool.and_eq_true, List.all_eq_true] at hword
    have hnext := @next_word c (cs ++ after) hword.1
    rw [Text.takeWhile_append_stop hword.2 hafter, Text.dropWhile_append_stop hword.2 hafter]
      at hnext
    exact ⟨c, cs, rfl,
      Text.isBlank_eq_false_of_isFieldPart (Text.isFieldPart_of_isWordStart hword.1), hnext⟩

theorem writes_comparison {op : Operator} (hmark : mark? c = none) (hc : Text.isBlank c = false)
    (h : comparison? (c :: (cs ++ after)) = some (op, after)) :
    Writes after (c :: cs) (.compare op) := ⟨c, cs, rfl, hc, next_of_comparison? hmark h⟩

theorem writes_equals (h : Text.Stops (· == '=') after) : Writes after ['='] (.compare .eq) :=
  writes_comparison rfl rfl (comparison?.eq_2 _ (Text.stops_beq_iff.1 h))

theorem scanned_two_words_iff {s w : String} {ds : List Char} {k i : Keyword}
    (hs : Keyword.ofWord? s = some k) (hw : Keyword.ofWord? w = some i) (hne : ds ≠ [])
    (hds : ∀ c ∈ ds, Text.isBlank c) (hafter : Text.Stops Text.isFieldPart after) :
    Scanned (s.toList ++ (ds ++ w.toList) ++ after) ls ↔
      ∃ ms, ls = .word s :: .word w :: ms ∧ Scanned after ms := by
  have hblank : Text.Stops Text.isFieldPart (ds ++ (w.toList ++ after)) := by
    obtain ⟨d, ds, rfl⟩ := List.exists_cons_of_ne_nil hne
    rw [List.cons_append, Text.stops_cons, Bool.eq_false_iff]
    intro hd
    have hd' := hds d List.mem_cons_self
    rw [Text.isBlank_eq_false_of_isFieldPart hd] at hd'
    cases hd'
  rw [List.append_assoc, List.append_assoc, (writes_word hs hblank).scanned_iff]
  simp only [scanned_blanks_iff hds, (writes_word hw hafter).scanned_iff]
  constructor
  · rintro ⟨_, rfl, ms, rfl, hms⟩
    exact ⟨ms, rfl, hms⟩
  · rintro ⟨ms, rfl, hms⟩
    exact ⟨_, rfl, ms, rfl, hms⟩

theorem writes_quotes {q : Char} {body content : List Char} (hq : q = '"' ∨ q = '\'')
    (h : Quotes q body content) :
    Writes after (q :: (body ++ [q])) (.string (String.ofList content)) := by
  have hne : q ≠ '\\' := by rcases hq with rfl | rfl <;> decide
  have hblank : Text.isBlank q = false := by rcases hq with rfl | rfl <;> rfl
  refine ⟨q, _, rfl, hblank, next_quote hq ?_⟩
  simpa using @quoted_of_quotes _ _ after _ _ hne h

end Writes

section Spares

/-- A reserved word begins with the first letter of its capital form or with the small letter. -/
theorem exists_first_of_ofWord? {w : String} {k : Keyword} (h : Keyword.ofWord? w = some k) :
    ∃ c cs, w.toList = c :: cs ∧ Text.isWordStart c ∧
      (Text.lower k.text).toList.head? = some c.toLower := by
  have hword := isWord_of_ofWord? h
  rw [Keyword.ofWord?_eq_some_iff, Text.sameWord, beq_iff_eq] at h
  rw [h, Text.toList_lower]
  cases hw : w.toList with
  | nil =>
    rw [hw] at hword
    cases hword
  | cons c cs =>
    rw [hw, Text.isWord, Bool.and_eq_true] at hword
    exact ⟨c, cs, rfl, hword.1, rfl⟩

theorem spares_words {s f : String} {k j : Keyword} (hs : Keyword.ofWord? s = some k)
    (hf : Keyword.ofWord? f = some j)
    (h : (Text.lower k.text).toList.head? = (Text.lower j.text).toList.head?)
    (rest rest' : List Char) : Spares (s.toList ++ rest) (f.toList ++ rest') := by
  obtain ⟨c, cs, hcs, hc, hfirst⟩ := exists_first_of_ofWord? hs
  obtain ⟨d, ds, hds, hd, hfirst'⟩ := exists_first_of_ofWord? hf
  have hcd : c.toLower = d.toLower := Option.some.inj (hfirst.symm.trans (h.trans hfirst'))
  rw [hcs, hds]
  refine .of_first (fun _ => Text.isFieldPart_of_isWordStart hc) (isNumberPart_congr hcd).2 ?_ ?_ ?_
  · intro hd'
    rw [isExponentPart, Bool.or_eq_true] at hd' ⊢
    obtain hd' | hd' := hd'
    · exact .inl ((isNumberPart_congr hcd).2 hd')
    · obtain rfl | rfl : d = '+' ∨ d = '-' := by simpa [isSign] using hd'
      all_goals cases hd
  · rintro rfl
    cases hd
  · rintro rfl
    cases hd

theorem first_eq_of_fuses {k j : Keyword} (h : Fuses k j) :
    (Text.lower k.text).toList.head? = (Text.lower j.text).toList.head? := by
  cases h <;> rfl

theorem Edit.spares (h : Edit after s s') : Spares (s ++ after) (s' ++ after) := by
  cases h with
  | blanks _ hne _ hblank => exact .of_blanks hne hblank after
  | word hs hlower _ =>
    exact spares_words hs ((Keyword.ofWord?_congr hlower).trans hs) rfl after after
  | doubleEquals _ | singleEquals => exact .of_first id id id id id
  | angles | bang => exact .of_stops ((Text.stops_cons ..).2 rfl)
  | fuse hk hs _ hf _ _ _ =>
    rw [List.append_assoc]
    exact spares_words hs hf (first_eq_of_fuses hk) _ _
  | split hk hs _ hf _ _ _ =>
    rw [List.append_assoc]
    exact spares_words hf hs (first_eq_of_fuses hk).symm _ _
  | plus hc _ =>
    refine .of_first (fun h => absurd h (by decide)) (fun h => absurd h (by decide)) ?_
      (fun h => absurd h (by decide)) (fun h => absurd h (by decide))
    intro _
    simp [isExponentPart, isNumberPart, hc]
  | quotes _ hq _ _ => rcases hq with rfl | rfl <;> exact .of_stops ((Text.stops_cons ..).2 rfl)

end Spares

theorem stops_equals_of_scanned (h : Scanned after (l :: ms)) (hl : ∀ op, l ≠ .compare op) :
    Text.Stops (· == '=') after := by
  rw [Text.stops_beq_iff]
  rintro cs rfl
  by_cases hcs : Text.Stops (· == '=') cs
  · obtain ⟨ns, heq, -⟩ := (writes_equals hcs).scanned_iff.1 h
    exact hl _ (List.cons.inj heq).1
  · rw [Text.stops_beq_iff] at hcs
    push Not at hcs
    obtain ⟨ds, rfl, -⟩ := hcs
    have hdouble : Writes ds ['=', '='] (.compare .eq) := writes_comparison rfl rfl rfl
    obtain ⟨ns, heq, -⟩ := hdouble.scanned_iff.1 h
    exact hl _ (List.cons.inj heq).1

theorem Writes.respelled (h : Writes after s l) (h' : Writes after s' l')
    (hl : ∀ ms, Grammar.Respelled (l :: ms) (l' :: ms)) (hls : Scanned (s ++ after) ls) :
    ∃ ls', Scanned (s' ++ after) ls' ∧ Grammar.Respelled ls ls' := by
  obtain ⟨ms, rfl, hms⟩ := h.scanned_iff.1 hls
  exact ⟨l' :: ms, h'.scanned_iff.2 ⟨ms, rfl, hms⟩, hl ms⟩

/-- What the edited text is scanned as respells what the text was scanned as. -/
theorem Edit.scanned (h : Edit after s s') (hfollowed : Followed ls)
    (hls : Scanned (s ++ after) ls) :
    ∃ ls', Scanned (s' ++ after) ls' ∧ Grammar.Respelled ls ls' := by
  have hsame (l : Lexeme) (ms : List Lexeme) : Grammar.Respelled (l :: ms) (l :: ms) := .refl _
  cases h with
  | blanks _ _ hds hds' =>
    exact ⟨ls, (scanned_blanks_iff hds').2 ((scanned_blanks_iff hds).1 hls), .refl ls⟩
  | word hs hlower hafter =>
    have hs' := (Keyword.ofWord?_congr hlower).trans hs
    refine (writes_word hs hafter).respelled (writes_word hs' hafter) (fun ms => ?_) hls
    exact .word (isWord_word_iff.2 hs) (isWord_word_iff.2 hs') (.refl ms)
  | doubleEquals hafter =>
    exact (writes_equals hafter).respelled (writes_comparison rfl rfl rfl) (hsame _) hls
  | singleEquals =>
    have hdouble : Writes after ['=', '='] (.compare .eq) := writes_comparison rfl rfl rfl
    obtain ⟨ms, rfl, hms⟩ := hdouble.scanned_iff.1 hls
    obtain ⟨l, v, ns, rfl, hl⟩ := hfollowed [] .eq ms rfl
    have hafter := stops_equals_of_scanned hms hl.ne_compare
    exact hdouble.respelled (writes_equals hafter) (hsame _) hls
  | angles =>
    exact (writes_comparison rfl rfl rfl).respelled (writes_comparison rfl rfl rfl) (hsame _) hls
  | bang =>
    exact (writes_comparison rfl rfl rfl).respelled (writes_comparison rfl rfl rfl) (hsame _) hls
  | fuse hk hs hw hf hne hds hafter =>
    obtain ⟨ms, rfl, hms⟩ := (scanned_two_words_iff hs hw hne hds hafter).1 hls
    exact ⟨_, (writes_word hf hafter).scanned_iff.2 ⟨ms, rfl, hms⟩, .fuse hk
      (isWord_word_iff.2 hs) (isWord_word_iff.2 hw) (isWord_word_iff.2 hf) (.refl ms)⟩
  | split hk hs hw hf hne hds hafter =>
    obtain ⟨ms, rfl, hms⟩ := (writes_word hf hafter).scanned_iff.1 hls
    exact ⟨_, (scanned_two_words_iff hs hw hne hds hafter).2 ⟨ms, rfl, hms⟩, .split hk
      (isWord_word_iff.2 hs) (isWord_word_iff.2 hw) (isWord_word_iff.2 hf) (.refl ms)⟩
  | @plus c cs x hc hx =>
    have hblank : Text.isBlank c = false :=
      Text.isBlank_eq_false_of_isFieldPart (Text.isFieldPart_of_isDigit hc)
    have hnumber : Writes after (c :: cs) (.number x) := ⟨c, cs, rfl, hblank, hx⟩
    have hplus : Writes after ('+' :: c :: cs) (.number x) :=
      ⟨'+', c :: cs, rfl, rfl, next_plus hc hx⟩
    exact hnumber.respelled hplus (hsame _) hls
  | quotes hq hq' hbody hbody' =>
    exact (writes_quotes hq hbody).respelled (writes_quotes hq' hbody') (hsame _) hls

theorem Before.scanned_iff {rest before : List Char} {ts : List Token} (h : Before rest before ts) :
    Scanned (before ++ rest) ls ↔ ∃ ms, ls = ts.map lexeme ++ ms ∧ Scanned rest ms := by
  rw [Scanned, h.scan_append]
  constructor
  · rintro ⟨us, hus, rfl⟩
    obtain ⟨vs, hvs, rfl⟩ := map_eq_ok_iff.1 hus
    exact ⟨vs.map lexeme, by simp [Function.comp_def], vs, hvs, rfl⟩
  · rintro ⟨_, rfl, vs, hvs, rfl⟩
    exact ⟨_, map_eq_ok_iff.2 ⟨vs, hvs, rfl⟩, by simp [Function.comp_def]⟩

theorem Respelled.scanned {text text' : String} (h : Respelled text text') (hfollowed : Followed ls)
    (hls : Scanned text.toList ls) :
    ∃ ls', Scanned text'.toList ls' ∧ Grammar.Respelled ls ls' := by
  obtain ⟨before, after, s, s', ts, hbefore, hedit, htext, htext'⟩ := h
  rw [htext] at hls
  obtain ⟨ms, rfl, hms⟩ := hbefore.scanned_iff.1 hls
  obtain ⟨ms', hms', hrespelled⟩ := hedit.scanned hfollowed.right hms
  refine ⟨ts.map lexeme ++ ms', ?_, (Grammar.Respelled.refl _).append hrespelled⟩
  rw [htext']
  exact (hbefore.congr hedit.spares).scanned_iff.2 ⟨ms', rfl, hms'⟩

end RuleFilter.Token
