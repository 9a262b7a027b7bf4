import Mathlib.Algebra.Group.Nat.Even
import Mathlib.Data.List.DropRight
import RuleFilter.Proofs.Sql.Like
import RuleFilter.Proofs.Text.Replace

/-!
Escaped texts in patterns. A pattern matches a text character by character; one that is made of an
escaped text, between wildcards or not, looks for that text as it is, and nothing of it is left
without a partner: every backslash at its end escapes a character or is escaped.
-/

namespace RuleFilter.Sql

open Text

/-- The texts that a pattern matches: `%` stands for any text and `_` for any one character, a
backslash makes the character after it stand for itself, and so does every other character. -/
inductive Matches : List Char → List Char → Prop
  | nil : Matches [] []
  | anyText {ps zs : List Char} (ys : List Char) : Matches ps zs → Matches ('%' :: ps) (ys ++ zs)
  | anyChar {ps xs : List Char} (x : Char) : Matches ps xs → Matches ('_' :: ps) (x :: xs)
  | escaped {ps xs : List Char} (c : Char) : Matches ps xs → Matches ('\\' :: c :: ps) (c :: xs)
  | exactly {c : Char} {ps xs : List Char} : isWildcard c = false → Matches ps xs →
      Matches (c :: ps) (c :: xs)

/-- The backslashes at the end of a pattern are as many as pairs make up, so that none stands there
with nothing to escape. -/
def IsPaired (ps : List Char) : Prop := Even (ps.rtakeWhile (· == '\\')).length

variable {c : Char} {ps xs : List Char} {ws : List Wildcard}

section Matching

theorem matchesText_exactly_cons : matchesText (.exactly c :: ws) xs ↔
    ∃ ys, xs = c :: ys ∧ matchesText ws ys := @matchesText_exactly xs ws [c]

theorem matchesText_anyChar : matchesText (.anyChar :: ws) xs ↔
    ∃ x ys, xs = x :: ys ∧ matchesText ws ys := by
  cases xs <;> simp [matchesText]

theorem ofChar_of_isWildcard (h : isWildcard c = false) :
    c ≠ '\\' ∧ Wildcard.ofChar c = .exactly c := by
  simp only [isWildcard, Bool.or_eq_false_iff, beq_eq_false_iff_ne] at h
  exact ⟨h.1.1, by rw [Wildcard.ofChar, if_neg h.1.2, if_neg h.2]⟩

theorem exists_places_of_matches (h : Matches ps xs) :
    ∃ ws, readPattern '\\' ps = some ws ∧ matchesText ws xs := by
  induction h with
  | nil => exact ⟨[], rfl, rfl⟩
  | anyText ys _ ih =>
    obtain ⟨ws, hread, hmatch⟩ := ih
    exact ⟨.anyText :: ws, by rw [readPattern_cons (by decide), hread]; rfl,
      matchesText_anyText.2 ⟨ys, _, rfl, hmatch⟩⟩
  | anyChar x _ ih =>
    obtain ⟨ws, hread, hmatch⟩ := ih
    exact ⟨.anyChar :: ws, by rw [readPattern_cons (by decide), hread]; rfl, hmatch⟩
  | escaped c _ ih =>
    obtain ⟨ws, hread, hmatch⟩ := ih
    exact ⟨.exactly c :: ws, by simp [readPattern, hread],
      matchesText_exactly_cons.2 ⟨_, rfl, hmatch⟩⟩
  | exactly hc _ ih =>
    obtain ⟨ws, hread, hmatch⟩ := ih
    obtain ⟨hescape, hplace⟩ := ofChar_of_isWildcard hc
    exact ⟨.exactly _ :: ws, by rw [readPattern_cons hescape, hread, hplace]; rfl,
      matchesText_exactly_cons.2 ⟨_, rfl, hmatch⟩⟩

/-- What the place of a character that does not escape matches, the character does. -/
theorem matches_of_ofChar (hc : c ≠ '\\') (h : matchesText (.ofChar c :: ws) xs)
    (hps : ∀ ys, matchesText ws ys → Matches ps ys) : Matches (c :: ps) xs := by
  unfold Wildcard.ofChar at h
  split at h
  · next hpercent =>
    obtain ⟨ys, zs, rfl, hzs⟩ := matchesText_anyText.1 h
    exact hpercent ▸ .anyText ys (hps zs hzs)
  split at h
  · next hone =>
    obtain ⟨x, ys, rfl, hys⟩ := matchesText_anyChar.1 h
    exact hone ▸ .anyChar x (hps ys hys)
  · next hpercent hone =>
    obtain ⟨ys, rfl, hys⟩ := matchesText_exactly_cons.1 h
    exact .exactly (by simp [isWildcard, hc, hpercent, hone]) (hps ys hys)

theorem matches_of_places (hread : readPattern '\\' ps = some ws) (h : matchesText ws xs) :
    Matches ps xs := by
  fun_induction readPattern '\\' ps generalizing ws xs with
  | case1 =>
    cases hread
    exact matchesText_nil.1 h ▸ .nil
  | case2 => cases hread
  | case3 d ps ih =>
    obtain ⟨ws, hws, rfl⟩ := Option.map_eq_some_iff.1 hread
    obtain ⟨ys, rfl, hys⟩ := matchesText_exactly_cons.1 h
    exact .escaped d (ih hws hys)
  | case4 c ps hc ih =>
    obtain ⟨ws, hws, rfl⟩ := Option.map_eq_some_iff.1 hread
    exact matches_of_ofChar hc h fun ys hys => ih hws hys

theorem like_iff_matches : like '\\' ps xs ↔ Matches ps xs := by
  rw [like, Option.any_eq_true]
  constructor
  · intro h
    obtain ⟨ws, hread, hmatch⟩ := h
    exact matches_of_places hread hmatch
  · exact exists_places_of_matches

end Matching

section Pairs

/-- A run at the end of a text reaches its first character only where it is the whole text. -/
theorem rtakeWhile_cons (p : Char → Bool) (c : Char) (cs : List Char) :
    (c :: cs).rtakeWhile p = if (c :: cs).all p then c :: cs else cs.rtakeWhile p := by
  split
  · next h => exact List.rtakeWhile_eq_self_iff.2 (List.all_eq_true.1 h)
  · next h =>
    rw [List.rtakeWhile, List.rtakeWhile, List.reverse_cons, List.takeWhile_append]
    split
    · next hlength =>
      have hself := (List.takeWhile_prefix p).eq_of_length hlength
      have hcs : cs.all p := by
        rw [← List.all_reverse, ← hself]
        exact List.all_takeWhile
      have hc : p c = false := by simpa [hcs] using h
      rw [hself]
      simp [hc]
    · rfl

theorem isPaired_cons (hc : c ≠ '\\') : IsPaired (c :: ps) ↔ IsPaired ps := by
  rw [IsPaired, rtakeWhile_cons, if_neg (by simp [hc]), IsPaired]

/-- A backslash and the character after it pair up whatever that character is. -/
theorem isPaired_escape : IsPaired ('\\' :: c :: ps) ↔ IsPaired ps := by
  rw [IsPaired, rtakeWhile_cons, rtakeWhile_cons, IsPaired]
  split
  · next h =>
    have hself : ps.rtakeWhile (· == '\\') = ps :=
      List.rtakeWhile_eq_self_iff.2 fun d hd => List.all_eq_true.1 h d (by simp [hd])
    simp [hself, Nat.even_add_one]
  · next h =>
    rw [if_neg]
    simpa using h

/-- A pattern has no reading just where a backslash at its end is left without a character. -/
theorem readPattern_eq_none_iff : readPattern '\\' ps = none ↔ ¬ IsPaired ps := by
  fun_induction readPattern '\\' ps with
  | case1 => simp [IsPaired]
  | case2 => simp [IsPaired, rtakeWhile_cons]
  | case3 d ps ih => rw [Option.map_eq_none_iff, ih, isPaired_escape]
  | case4 c ps hc ih => rw [Option.map_eq_none_iff, ih, isPaired_cons hc]

theorem isPaired_of_readPattern (h : readPattern '\\' ps = some ws) : IsPaired ps := by
  by_contra hnot
  rw [readPattern_eq_none_iff.2 hnot] at h
  cases h

theorem isPaired_literal (s : String) : IsPaired (literalPattern s).toList := by
  rw [toList_literalPattern]
  apply isPaired_of_readPattern
  simpa [readPattern] using @readPattern_literal [] s.toList

theorem isPaired_concat (hc : c ≠ '\\') : IsPaired (ps ++ [c]) := by
  rw [IsPaired, List.rtakeWhile_concat_neg _ _ _ (by simpa using hc)]
  decide

end Pairs

/-- Escaping is done in one pass as in three, if backslashes come first. -/
theorem flatMap_escapeWildcard (cs : List Char) : cs.flatMap escapeWildcard =
    replaceChar '_' ['\\', '_']
      (replaceChar '%' ['\\', '%'] (replaceChar '\\' ['\\', '\\'] cs)) := by
  rw [replaceChar_escape '\\', replaceChar_flatMap_escape (by decide) (by decide),
    replaceChar_flatMap_escape (by decide) (by decide)]
  exact List.flatMap_congr fun c _ => by simp [escapeWildcard, isWildcard]

/-- A pattern made of an escaped text, with every backslash, `%` and `_` replaced in this order,
matches the texts that have that text in them, at their start or at their end, as the `%` around it
say, and never ends in a backslash that escapes nothing. -/
theorem matches_literalPattern (s x : String) :
    let escaped := literalPattern s
    escaped.toList = replaceChar '_' ['\\', '_']
        (replaceChar '%' ['\\', '%'] (replaceChar '\\' ['\\', '\\'] s.toList)) ∧
      (Matches ("%" ++ escaped ++ "%").toList x.toList ↔ s.toList <:+: x.toList) ∧
      (Matches (escaped ++ "%").toList x.toList ↔ s.toList <+: x.toList) ∧
      (Matches ("%" ++ escaped).toList x.toList ↔ s.toList <:+ x.toList) ∧
      IsPaired escaped.toList ∧ IsPaired ("%" ++ escaped ++ "%").toList ∧
      IsPaired (escaped ++ "%").toList ∧ IsPaired ("%" ++ escaped).toList := by
  have hlead (ps : String) (h : IsPaired ps.toList) : IsPaired ("%" ++ ps).toList := by
    rw [String.toList_append]
    exact (isPaired_cons (by decide)).2 h
  have htrail (ps : String) : IsPaired (ps ++ "%").toList := by
    rw [String.toList_append]
    exact isPaired_concat (by decide)
  intro escaped
  refine ⟨?_, ?_, ?_, ?_, isPaired_literal s, htrail _, htrail _, hlead _ (isPaired_literal s)⟩
  · rw [toList_literalPattern, flatMap_escapeWildcard]
  · rw [← like_iff_matches, like_infix]
  · rw [← like_iff_matches, like_prefix]
  · rw [← like_iff_matches, like_suffix]

end RuleFilter.Sql
