import RuleFilter.Proofs.Rule.Integer

/-!
Names in filter text. The check of a name by its characters, the scanner and the reader of rules
agree on which texts are names of fields, whatever else a text may hold.
-/

namespace RuleFilter

namespace Token

variable {s : String}

theorem scanned_word_iff : Scanned s.toList [.word s] ↔ Text.isWord s.toList := by
  constructor
  · rintro ⟨ts, hts, hword⟩
    obtain ⟨t, rfl, ht⟩ := List.map_eq_singleton_iff.1 hword
    have hwell := wellFormed_of_scan hts t List.mem_cons_self
    rw [ht] at hwell
    exact hwell
  · intro h
    exact (spells_word h).scanned

theorem exists_number?_one :
    ∃ x, number? "1".toList = some x ∧ Binary64.finite x = Binary64.ofInt 1 := by
  have hone : (number? "1".toList).map Binary64.finite = some (Binary64.ofInt 1) := by
    decide +kernel
  exact Option.map_eq_some_iff.1 hone

end Token

namespace Rule

variable {limits : Limits} {s : String}

theorem parse_equation_one (h : Text.isFieldName s)
    (hlimits : ∀ limit, (s ++ " = 1").utf8ByteSize ≤ limits.of limit) :
    parse limits (s ++ " = 1") = .ok (.leaf ⟨s, .eq, .single (.number (Binary64.ofInt 1))⟩) := by
  have htext : s ++ " = " ++ "1" = s ++ " = 1" := String.append_assoc
  have hliteral : Decimal.int? "1".toList = some 1 := by decide +kernel
  obtain ⟨x, hx, hone⟩ := Token.exists_number?_one
  rw [← htext] at hlimits ⊢
  rw [← hone]
  exact (parse_equation_iff h hliteral hlimits).2 ⟨x, hx, rfl⟩

/-- The names of fields are the texts that are scanned as a single word which is themselves and no
reserved word in any case, and those that an equation in text can have in front, where no limit is
below its size. -/
theorem isFieldName_iff_scanned_and_parse (s : String)
    (hlimits : ∀ limit, (s ++ " = 1").utf8ByteSize ≤ limits.of limit) :
    (Text.isFieldName s ↔
        Token.Scanned s.toList [.word s] ∧ ∀ k : Keyword, ¬ Text.sameWord k.text s) ∧
      (Text.isFieldName s ↔ parse limits (s ++ " = 1") =
        .ok (.leaf ⟨s, .eq, .single (.number (Binary64.ofInt 1))⟩)) := by
  constructor
  · rw [Text.isFieldName_iff, Token.scanned_word_iff, Keyword.ofWord?_eq_none_iff]
  · constructor
    · intro h
      exact parse_equation_one h hlimits
    · intro h
      cases wellFormed_of_parse h with
      | leaf hwell => exact hwell.field

/-- A name with a reserved word in front of a point, and that word alone. -/
theorem isFieldName_iff_scanned_and_parse_in :
    (parse {} "In._0 = 1" = .ok (.leaf ⟨"In._0", .eq, .single (.number (Binary64.ofInt 1))⟩)) ∧
      Token.Scanned "In".toList [.word "In"] ∧ ¬ ∃ limits : Limits,
        (∀ limit, "In = 1".utf8ByteSize ≤ limits.of limit) ∧
        parse limits "In = 1" = .ok (.leaf ⟨"In", .eq, .single (.number (Binary64.ofInt 1))⟩) := by
  refine ⟨?_, Token.scanned_word_iff.2 (by decide), ?_⟩
  · exact (isFieldName_iff_scanned_and_parse "In._0" (le_default (by decide))).2.1 (by decide)
  · rintro ⟨limits, hlimits, hparse⟩
    have hname := (isFieldName_iff_scanned_and_parse "In" hlimits).2.2 hparse
    exact absurd hname (by decide)

end Rule

end RuleFilter
