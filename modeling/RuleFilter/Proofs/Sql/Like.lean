import Mathlib.Data.List.Infix
import RuleFilter.Sql.Pattern

/-!
Matching of LIKE patterns: `%` stands for any text, `_` for any one character, and the escape
character makes the one after it stand for itself. An escaped text matches itself alone.
-/

namespace RuleFilter.Sql

/-- What a place of a pattern stands for. -/
inductive Wildcard where
  | anyText | anyChar
  | exactly (c : Char)

def Wildcard.ofChar (c : Char) : Wildcard :=
  if c = '%' then .anyText else if c = '_' then .anyChar else .exactly c

/-- A pattern as its places; none if it ends in an escape character with nothing after it. -/
def readPattern (escape : Char) : List Char → Option (List Wildcard)
  | [] => some []
  | c :: cs =>
    if c = escape then
      match cs with
      | [] => none
      | d :: cs => (readPattern escape cs).map (.exactly d :: ·)
    else (readPattern escape cs).map (.ofChar c :: ·)

def matchesText : List Wildcard → List Char → Bool
  | [], xs => xs.isEmpty
  | .anyText :: ws, xs => xs.tails.any fun ys => matchesText ws ys
  | .anyChar :: ws, _ :: xs => matchesText ws xs
  | .exactly c :: ws, x :: xs => c = x && matchesText ws xs
  | .anyChar :: _, [] | .exactly _ :: _, [] => false

def like (escape : Char) (pattern text : List Char) : Bool :=
  (readPattern escape pattern).any fun ws => matchesText ws text

variable {cs ps xs : List Char} {ws : List Wildcard}

theorem readPattern_cons {c : Char} (h : c ≠ '\\') :
    readPattern '\\' (c :: cs) = (readPattern '\\' cs).map (.ofChar c :: ·) := by
  cases cs <;> simp [readPattern, h]

theorem readPattern_escapeWildcard (c : Char) : readPattern '\\' (escapeWildcard c ++ ps) =
    (readPattern '\\' ps).map (.exactly c :: ·) := by
  rw [escapeWildcard]
  split
  · rfl
  · next h =>
    simp only [isWildcard, Bool.or_eq_true, beq_iff_eq, not_or] at h
    obtain ⟨⟨hescape, hpercent⟩, hone⟩ := h
    rw [List.singleton_append, readPattern_cons hescape, Wildcard.ofChar, if_neg hpercent,
      if_neg hone]

/-- Every character of an escaped text stands for itself. -/
theorem readPattern_literal (cs : List Char) : readPattern '\\' (cs.flatMap escapeWildcard ++ ps) =
    (readPattern '\\' ps).map (cs.map .exactly ++ ·) := by
  induction cs with
  | nil => simp
  | cons c cs ih =>
    rw [List.flatMap_cons, List.append_assoc, readPattern_escapeWildcard, ih, Option.map_map]
    rfl

theorem matchesText_exactly (cs : List Char) : matchesText (cs.map .exactly ++ ws) xs ↔
    ∃ zs, xs = cs ++ zs ∧ matchesText ws zs := by
  induction cs generalizing xs with
  | nil => simp
  | cons c cs ih =>
    cases xs with
    | nil => simp [matchesText]
    | cons x xs =>
      rw [List.map_cons, List.cons_append, matchesText, Bool.and_eq_true, decide_eq_true_eq, ih]
      constructor
      · intro h
        rcases h with ⟨rfl, zs, rfl, hzs⟩
        exact ⟨zs, rfl, hzs⟩
      · intro h
        rcases h with ⟨zs, he, hzs⟩
        obtain ⟨rfl, rfl⟩ := List.cons.inj he
        exact ⟨rfl, zs, rfl, hzs⟩

theorem matchesText_anyText : matchesText (.anyText :: ws) xs ↔
    ∃ ys zs, xs = ys ++ zs ∧ matchesText ws zs := by
  rw [matchesText, List.any_eq_true]
  constructor
  · intro h
    rcases h with ⟨zs, hsuffix, hzs⟩
    obtain ⟨ys, rfl⟩ := (List.mem_tails ..).1 hsuffix
    exact ⟨ys, zs, rfl, hzs⟩
  · intro h
    rcases h with ⟨ys, zs, rfl, hzs⟩
    exact ⟨zs, (List.mem_tails ..).2 ⟨ys, rfl⟩, hzs⟩

theorem matchesText_nil : matchesText [] xs ↔ xs = [] := by
  rw [matchesText, List.isEmpty_iff]

theorem matchesText_anyText_nil : matchesText [.anyText] xs :=
  matchesText_anyText.2 ⟨xs, [], by simp, rfl⟩

/-- A text in the middle of a pattern, at its start and at its end is looked for as it is. -/
theorem like_infix (s : String) :
    like '\\' ("%" ++ literalPattern s ++ "%").toList xs ↔ s.toList <:+: xs := by
  have hpattern : readPattern '\\' ("%" ++ literalPattern s ++ "%").toList =
      some (.anyText :: (s.toList.map .exactly ++ [.anyText])) := by
    have := @readPattern_literal ['%'] s.toList
    simpa [readPattern_cons, Wildcard.ofChar, readPattern] using this
  rw [like, hpattern, Option.any_some, matchesText_anyText]
  constructor
  · intro h
    rcases h with ⟨ys, zs, rfl, hzs⟩
    obtain ⟨zs, rfl, -⟩ := (matchesText_exactly _).1 hzs
    exact ⟨ys, zs, by simp⟩
  · intro h
    rcases h with ⟨ys, zs, rfl⟩
    exact ⟨ys, s.toList ++ zs, by simp,
      (matchesText_exactly _).2 ⟨zs, rfl, matchesText_anyText_nil⟩⟩

theorem like_prefix (s : String) :
    like '\\' (literalPattern s ++ "%").toList xs ↔ s.toList <+: xs := by
  have hpattern : readPattern '\\' (literalPattern s ++ "%").toList =
      some (s.toList.map .exactly ++ [.anyText]) := by
    have := @readPattern_literal ['%'] s.toList
    simpa [readPattern_cons, Wildcard.ofChar, readPattern] using this
  rw [like, hpattern, Option.any_some, matchesText_exactly]
  constructor
  · intro h
    rcases h with ⟨zs, rfl, -⟩
    exact ⟨zs, rfl⟩
  · intro h
    rcases h with ⟨zs, rfl⟩
    exact ⟨zs, rfl, matchesText_anyText_nil⟩

theorem like_suffix (s : String) :
    like '\\' ("%" ++ literalPattern s).toList xs ↔ s.toList <:+ xs := by
  have hpattern : readPattern '\\' ("%" ++ literalPattern s).toList =
      some (.anyText :: (s.toList.map .exactly ++ [])) := by
    have := @readPattern_literal [] s.toList
    simpa [readPattern_cons, Wildcard.ofChar, readPattern] using this
  rw [like, hpattern, Option.any_some, matchesText_anyText]
  constructor
  · intro h
    rcases h with ⟨ys, zs, rfl, hzs⟩
    obtain ⟨zs, rfl, hnil⟩ := (matchesText_exactly _).1 hzs
    rw [matchesText_nil.1 hnil, List.append_nil]
    exact ⟨ys, rfl⟩
  · intro h
    rcases h with ⟨ys, rfl⟩
    exact ⟨ys, s.toList, rfl, (matchesText_exactly _).2 ⟨[], by simp, rfl⟩⟩

end RuleFilter.Sql
