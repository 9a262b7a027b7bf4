import RuleFilter.Proofs.Reading.Canonical
import RuleFilter.Proofs.Reading.Depth
import RuleFilter.Proofs.Rule.Parse

/-!
Canonical text under limits. The text of a rule can be longer than a text that was read as the rule,
and it has parentheses that such a text need not have, so that limits may refuse it; nothing else
can. Both happen under limits that admitted the text.
-/

namespace RuleFilter

namespace Rule

open Grammar

variable {limits : Limits} {text : String} {r : Rule}

theorem parse_of_size_lt (h : limits.size < text.utf8ByteSize) :
    parse limits text = .error (.tooLarge .size limits.size) := by
  have hsize : limits.check .size text.utf8ByteSize = .error (.tooLarge .size limits.size) :=
    if_pos h
  simp only [parse, hsize, bind, Except.bind]

/-- The canonical text of a rule is read as the rule without its groups of one, or refused for its
depth or else for its comparisons. -/
theorem parse_canonical_of_size (h : r.WellFormed) (hsize : r.text.utf8ByteSize ≤ limits.size) :
    parse limits r.text =
      if nesting 0 r.lexemes ≤ limits.depth then
        if r.leafCount ≤ limits.conditions then .ok r.collapse
        else .error (.tooLarge .conditions limits.conditions)
      else .error (.tooLarge .depth limits.depth) := by
  obtain ⟨ts, hscan, hts⟩ := (spells_text h).scanned
  have hderives := (Reading.derivesWithin_lexemes h (Nat.le_succ r.depth)).1
  have hcheck : limits.check .size r.text.utf8ByteSize = .ok () := Limits.check_eq_ok_iff.2 hsize
  have htokens : (Token.scan r.text.toList).mapError (Token.Failure.toError r.text.toList) =
      .ok ts := mapError_eq_ok_iff.2 hscan
  rw [← hts] at hderives ⊢
  have hwhole := Reading.wholeRule_of_derives hderives limits.depth
  by_cases hdepth : nesting 0 (ts.map Token.lexeme) ≤ limits.depth
  · rw [if_pos hdepth] at hwhole ⊢
    have hread (cs : List Char) : (Reading.wholeRule limits.depth ts).mapError
        (Reading.Failure.toError cs limits) = .ok r.collapse := mapError_eq_ok_iff.2 hwhole
    simp only [parse, hcheck, htokens, hread, bind, Except.bind, leafCount_collapse]
    by_cases hconditions : r.leafCount ≤ limits.conditions
    · have hcount : limits.check .conditions r.leafCount = .ok () :=
        Limits.check_eq_ok_iff.2 hconditions
      rw [if_pos hconditions, hcount]
      rfl
    · have hcount : limits.check .conditions r.leafCount =
          .error (.tooLarge .conditions limits.conditions) := if_pos (Nat.lt_of_not_le hconditions)
      rw [if_neg hconditions, hcount]
  · rw [if_neg hdepth] at hwhole ⊢
    have hread (cs : List Char) : (Reading.wholeRule limits.depth ts).mapError
        (Reading.Failure.toError cs limits) = .error (.tooLarge .depth limits.depth) := by
      rw [hwhole]
      rfl
    simp only [parse, hcheck, htokens, hread, bind, Except.bind]

/-- The same where the rule has few enough comparisons. -/
theorem parse_canonical (h : r.WellFormed) (hsize : r.text.utf8ByteSize ≤ limits.size)
    (hconditions : r.leafCount ≤ limits.conditions) : parse limits r.text =
      if nesting 0 r.lexemes ≤ limits.depth then .ok r.collapse
      else .error (.tooLarge .depth limits.depth) := by
  rw [parse_canonical_of_size h hsize, if_pos hconditions]

/-- The canonical text of a rule is read as the rule without its groups of one unless the limits
refuse it. -/
theorem parse_canonical_or (h : r.WellFormed) : parse limits r.text = .ok r.collapse ∨
    ∃ limit, parse limits r.text = .error (.tooLarge limit (limits.of limit)) := by
  by_cases hsize : r.text.utf8ByteSize ≤ limits.size
  · rw [parse_canonical_of_size h hsize]
    split
    · split
      · exact .inl rfl
      · exact .inr ⟨.conditions, rfl⟩
    · exact .inr ⟨.depth, rfl⟩
  · exact .inr ⟨.size, parse_of_size_lt (Nat.lt_of_not_le hsize)⟩

theorem parse_collapse (h : r.WellFormed) (hsize : r.text.utf8ByteSize ≤ limits.size)
    (hdepth : r.depth ≤ limits.depth + 1) (hconditions : r.leafCount ≤ limits.conditions) :
    parse limits r.text = .ok r.collapse := by
  rw [parse_canonical h hsize hconditions, if_pos (Reading.derivesWithin_lexemes h hdepth).2]

/-- Under the limits that admitted a text, the canonical text of its rule is refused for its size if
it is longer than they allow. Otherwise it is read as the same rule if the groups of the rule nest
at most one level deeper than parentheses may. -/
theorem reparse_text (h : parse limits text = .ok r) :
    (limits.size < r.text.utf8ByteSize →
      parse limits r.text = .error (.tooLarge .size limits.size)) ∧
    (r.text.utf8ByteSize ≤ limits.size → r.depth ≤ limits.depth + 1 →
      parse limits r.text = .ok r) := by
  refine ⟨parse_of_size_lt, fun hsize hdepth => ?_⟩
  rw [parse_collapse (wellFormed_of_parse h) hsize hdepth (leafCount_le_of_parse h),
    collapse_eq_self (branching_of_parse h)]

theorem parse_of_scanned {ls : List Lexeme} (hscan : Token.Scanned text.toList ls)
    (hderives : Reading.DerivesWithin limits.depth (.chain .or) ls r)
    (hsize : text.utf8ByteSize ≤ limits.size) (hconditions : r.leafCount ≤ limits.conditions) :
    parse limits text = .ok r := by
  obtain ⟨ts, hts, rfl⟩ := hscan
  exact parse_eq_ok_iff_derives.2 ⟨hsize, ⟨ts, hts, hderives⟩, hconditions⟩

/-- The rule of `a=true`, whose canonical text has two blanks more. -/
def tight : Rule := .leaf ⟨"a", .eq, .single (.bool true)⟩

theorem parse_tight (hsize : 6 ≤ limits.size) (hconditions : 1 ≤ limits.conditions) :
    parse limits "a=true" = .ok tight := by
  have hscan : Token.Scanned "a=true".toList [.word "a", .compare .eq, .word "true"] := by
    decide +kernel
  have hderives : Reading.DerivesWithin limits.depth .term
      [.word "a", .compare .eq, .word "true"] tight :=
    Reading.derivesWithin_comparison
      (.test (isField_word_iff.2 ⟨rfl, by decide⟩)
        (.compare .eq (.true (isWord_word_iff.2 (by decide)))))
  have hrule := (hderives.members .or).single .or
  exact parse_of_scanned hscan hrule hsize (by simpa [tight, leafCount] using hconditions)

theorem size_text_tight : tight.text.utf8ByteSize = 8 := by
  simp only [tight, Rule.text, Comparison.text, Operand.text, Value.text]
  decide

/-- A rule of which a text needs one level of parentheses, and the canonical text has two. -/
def stacked : Rule :=
  .group .and [.group .or [.leaf ⟨"a", .isNull, .none⟩,
    .group .and [.leaf ⟨"b", .isNull, .none⟩, .leaf ⟨"c", .isNull, .none⟩]],
    .leaf ⟨"d", .isNull, .none⟩]

def stackedText : String := "(a IS NULL OR b IS NULL AND c IS NULL) AND d IS NULL"

theorem parse_stacked (hsize : 52 ≤ limits.size) (hdepth : 1 ≤ limits.depth)
    (hconditions : 4 ≤ limits.conditions) : parse limits stackedText = .ok stacked := by
  have ha := @Reading.derivesWithin_isNull 0 "a" (by decide)
  have hb := @Reading.derivesWithin_isNull 0 "b" (by decide)
  have hc := @Reading.derivesWithin_isNull 0 "c" (by decide)
  have hd := @Reading.derivesWithin_isNull 1 "d" (by decide)
  have hor := Reading.derivesWithin_pair .or (ha.members .or)
    (Reading.derivesWithin_pair .and hb hc)
  have hand := Reading.derivesWithin_pair .and (Reading.derivesWithin_paren hor) hd
  have hscan : Token.Scanned stackedText.toList
      [.openParen, .word "a", .word "IS", .word "NULL", .word "OR", .word "b", .word "IS",
        .word "NULL", .word "AND", .word "c", .word "IS", .word "NULL", .closeParen, .word "AND",
        .word "d", .word "IS", .word "NULL"] := by
    decide +kernel
  have hrule := hand.disjunction
  exact parse_of_scanned hscan ⟨hrule.1, hrule.2.trans hdepth⟩ hsize
    (by simpa [stacked, leafCount])

theorem size_text_stacked : stacked.text.utf8ByteSize = 54 := by
  simp only [stacked, text, enclose, List.map, Comparison.text, Operand.text]
  decide

theorem depth_stacked : stacked.depth = 3 := by simp [stacked, depth]

theorem reparse_tight_and_stacked :
    parse ⟨6, 0, 1⟩ "a=true" = .ok tight ∧
      parse ⟨6, 0, 1⟩ tight.text = .error (.tooLarge .size 6) ∧
      parse ⟨54, 2, 4⟩ stackedText = .ok stacked ∧ parse ⟨54, 2, 4⟩ stacked.text = .ok stacked := by
  have htight : parse ⟨6, 0, 1⟩ "a=true" = .ok tight := parse_tight (by decide) (by decide)
  have hstacked : parse ⟨54, 2, 4⟩ stackedText = .ok stacked :=
    parse_stacked (by decide) (by decide) (by decide)
  refine ⟨htight, (reparse_text htight).1 ?_, hstacked, (reparse_text hstacked).2 ?_ ?_⟩
  · rw [size_text_tight]
    decide
  · rw [size_text_stacked]
  · rw [depth_stacked]

/-- Canonical text can be refused under the limits that admitted the text it comes from. -/
theorem not_reparse_text : ¬ ∀ (limits : Limits) (text : String) (r : Rule),
    parse limits text = .ok r → parse limits r.text = .ok r := by
  intro h
  have hparse := h ⟨6, 0, 1⟩ "a=true" tight (parse_tight (by decide) (by decide))
  have hsize : 6 < tight.text.utf8ByteSize := by rw [size_text_tight]; decide
  rw [parse_of_size_lt hsize] at hparse
  cases hparse

/-- Where groups nest deeper, canonical text is refused for its depth: it has parentheses around
every group but the outermost, also where the text that was read needed none. -/
theorem reparse_text_of_depth_lt (h : parse limits text = .ok r)
    (hsize : r.text.utf8ByteSize ≤ limits.size) (hdepth : limits.depth + 1 < r.depth) :
    parse limits r.text = .error (.tooLarge .depth limits.depth) := by
  have hwell := wellFormed_of_parse h
  have hnesting : ¬ nesting 0 r.lexemes ≤ limits.depth := by
    rw [Reading.nesting_lexemes_le_iff hwell (branching_of_parse h)]
    omega
  rw [parse_canonical hwell hsize (leafCount_le_of_parse h), if_neg hnesting]

/-- Canonical text of an allowed size can be refused too, for parentheses that the text it comes
from does without. -/
theorem not_reparse_text_of_size_le : ¬ ∀ (limits : Limits) (text : String) (r : Rule),
    parse limits text = .ok r → r.text.utf8ByteSize ≤ limits.size →
      parse limits r.text = .ok r := by
  intro h
  have hparse : parse ⟨54, 1, 4⟩ stackedText = .ok stacked :=
    parse_stacked (by decide) (by decide) (by decide)
  have hsize : stacked.text.utf8ByteSize ≤ 54 := size_text_stacked.le
  have hrefused := reparse_text_of_depth_lt hparse hsize (by rw [depth_stacked]; decide)
  rw [h _ _ _ hparse hsize] at hrefused
  cases hrefused

end Rule

end RuleFilter
