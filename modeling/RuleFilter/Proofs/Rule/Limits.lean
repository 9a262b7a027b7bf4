import RuleFilter.Proofs.Rule.Canonical

/-!
Limits on filter text. They are checked at different times, yet each asks something of the text
alone: its bytes, its open parentheses, its comparisons. What they let pass is read as it is read
without them.
-/

namespace RuleFilter

namespace Rule

open Grammar

/-- Limits accept a text just when it is short enough, its rule has few enough comparisons and never
too many of its parentheses are open; the rule is the one that it is read as where no limit is below
its size. So what was accepted stays accepted under larger limits, as the same rule. -/
theorem parse_iff_of_unlimited {free : Limits} {text : String}
    (hfree : ∀ limit, text.utf8ByteSize ≤ free.of limit) (limits : Limits) (r : Rule) :
    (parse limits text = .ok r ↔ text.utf8ByteSize ≤ limits.size ∧ parse free text = .ok r ∧
      (∃ ts, Token.scan text.toList = .ok ts ∧
        ∀ us, us <+: ts.map Token.lexeme → unclosed us ≤ limits.depth) ∧
      r.leafCount ≤ limits.conditions) ∧
    ∀ limits' : Limits, (∀ limit, limits.of limit ≤ limits'.of limit) →
      parse limits text = .ok r → parse limits' text = .ok r := by
  have hopen (ts : List Token) : nesting 0 (ts.map Token.lexeme) ≤ limits.depth ↔
      ∀ us, us <+: ts.map Token.lexeme → unclosed us ≤ limits.depth := nesting_le_iff
  constructor
  · rw [parse_eq_ok_iff_derives, parse_iff_derives hfree]
    constructor
    · intro h
      rcases h with ⟨hsize, ⟨ts, hts, hr, hnesting⟩, hcount⟩
      exact ⟨hsize, ⟨ts, hts, hr⟩, ⟨ts, hts, (hopen ts).1 hnesting⟩, hcount⟩
    · intro h
      rcases h with ⟨hsize, ⟨ts, hts, hr⟩, ⟨ts', hts', hprefixes⟩, hcount⟩
      cases hts.symm.trans hts'
      exact ⟨hsize, ⟨ts, hts, hr, (hopen ts).2 hprefixes⟩, hcount⟩
  · intro limits' hle h
    rcases parse_eq_ok_iff_derives.1 h with ⟨hsize, ⟨ts, hts, hr, hnesting⟩, hcount⟩
    exact parse_eq_ok_iff_derives.2 ⟨hsize.trans (hle .size),
      ⟨ts, hts, hr, hnesting.trans (hle .depth)⟩, hcount.trans (hle .conditions)⟩

/-- A text with parentheses in a string, which open nothing. -/
def bracketed : Rule :=
  .group .and [.leaf ⟨"a", .eq, .single (.string "((")⟩,
    .group .or [.leaf ⟨"b", .isNull, .none⟩, .leaf ⟨"c", .isNull, .none⟩]]

theorem parse_bracketed : parse ⟨64, 64, 64⟩ "a = \"((\" AND (b IS NULL OR c IS NULL)" =
    .ok bracketed := by
  have hvalue : (Rule.leaf ⟨"a", .eq, .single (.string "((")⟩).WellFormed :=
    .leaf ⟨by decide, rfl, by simp [Operand.values, Value.IsWritable]⟩
  have hinner : (Rule.group .or
      [.leaf ⟨"b", .isNull, .none⟩, .leaf ⟨"c", .isNull, .none⟩]).WellFormed :=
    .group (by simp) (List.forall_mem_cons.2
      ⟨wellFormed_nullTest (by decide) rfl,
        List.forall_mem_singleton.2 (wellFormed_nullTest (by decide) rfl)⟩)
  have hwell : bracketed.WellFormed :=
    .group (by simp) (List.forall_mem_cons.2 ⟨hvalue, List.forall_mem_singleton.2 hinner⟩)
  have htext : bracketed.text = "a = \"((\" AND (b IS NULL OR c IS NULL)" := by
    simp only [bracketed, text, enclose, List.map, Comparison.text, Operand.text, Value.text]
    decide
  have hparse := @parse_collapse ⟨64, 64, 64⟩ bracketed hwell (by rw [htext]; decide)
    (by simp [bracketed, depth]) (by simp [bracketed, leafCount])
  have hcollapse : bracketed.collapse = bracketed := by simp [bracketed, collapse]
  rwa [hcollapse, htext] at hparse

/-- One level of parentheses is enough for it, and none is not. -/
theorem parse_iff_of_unlimited_bracketed :
    let text := "a = \"((\" AND (b IS NULL OR c IS NULL)"
    (∀ limit, text.utf8ByteSize ≤ Limits.of ⟨64, 64, 64⟩ limit) ∧
      parse ⟨37, 1, 3⟩ text = .ok bracketed ∧ parse ⟨37, 0, 3⟩ text ≠ .ok bracketed := by
  intro text
  have hfree : ∀ limit, text.utf8ByteSize ≤ Limits.of ⟨64, 64, 64⟩ limit := by
    intro limit
    cases limit <;> decide
  have hscan : Token.Scanned text.toList
      [.word "a", .compare .eq, .string "((", .word "AND", .openParen, .word "b", .word "IS",
        .word "NULL", .word "OR", .word "c", .word "IS", .word "NULL", .closeParen] := by
    decide +kernel
  rcases hscan with ⟨ts, hts, hls⟩
  refine ⟨hfree, ?_, fun h => ?_⟩
  · have hopen : ∀ us, us <+: ts.map Token.lexeme → unclosed us ≤ 1 := by
      rw [hls]
      exact nesting_le_iff.1 (by decide)
    exact (parse_iff_of_unlimited hfree ⟨37, 1, 3⟩ bracketed).1.2
      ⟨by decide, parse_bracketed, ⟨ts, hts, hopen⟩, by simp [bracketed, leafCount]⟩
  · rcases ((parse_iff_of_unlimited hfree ⟨37, 0, 3⟩ bracketed).1.1 h).2.2.1 with ⟨us, hus, hopen⟩
    cases hts.symm.trans hus
    rw [hls] at hopen
    have hnesting := nesting_le_iff.2 hopen
    revert hnesting
    decide

end Rule

end RuleFilter
