import RuleFilter.Proofs.Reading.Accepted
import RuleFilter.Proofs.Success
import RuleFilter.Proofs.Token.Spelling

/-!
What filter text is read as: the rule that the grammar derives from its lexemes. Whatever is read
has a form that text can express, and the limits bound it.
-/

namespace RuleFilter

theorem Text.length_toList_le (text : String) : text.toList.length ≤ text.utf8ByteSize := by
  rw [String.length_toList]
  induction text using String.push_induction with
  | empty => simp
  | push s c ih =>
    have := c.utf8Size_pos
    simp only [String.length_push, String.utf8ByteSize_push]
    omega

namespace Rule

open Grammar

/-- Text is read as a rule just when all its stages succeed within the limits. -/
theorem parse_eq_ok_iff {limits : Limits} {text : String} {r : Rule} :
    parse limits text = .ok r ↔ text.utf8ByteSize ≤ limits.size ∧
      (∃ ts, Token.scan text.toList = .ok ts ∧ Reading.wholeRule limits.depth ts = .ok r) ∧
      r.leafCount ≤ limits.conditions := by
  have hsize : limits.check .size text.utf8ByteSize = .ok () ↔ text.utf8ByteSize ≤ limits.size :=
    Limits.check_eq_ok_iff
  have hcount : limits.check .conditions r.leafCount = .ok () ↔ r.leafCount ≤ limits.conditions :=
    Limits.check_eq_ok_iff
  rw [← hsize, ← hcount]
  simp only [parse, bind_eq_ok_iff, mapError_eq_ok_iff]
  constructor
  · intro h
    rcases h with ⟨_, hsize, ts, hts, r', hr, _, hcount, heq⟩
    cases heq
    exact ⟨hsize, ⟨ts, hts, hr⟩, hcount⟩
  · intro h
    rcases h with ⟨hsize, ⟨ts, hts, hr⟩, hcount⟩
    exact ⟨(), hsize, ts, hts, r, hr, (), hcount, rfl⟩

section Parsed

variable {limits : Limits} {text : String} {r : Rule}

theorem parse_eq_ok_iff_derives : parse limits text = .ok r ↔ text.utf8ByteSize ≤ limits.size ∧
    (∃ ts, Token.scan text.toList = .ok ts ∧ Derives (.chain .or) (ts.map Token.lexeme) r ∧
      nesting 0 (ts.map Token.lexeme) ≤ limits.depth) ∧ r.leafCount ≤ limits.conditions := by
  simp only [parse_eq_ok_iff, Reading.wholeRule_eq_ok_iff]

theorem leafCount_le_of_parse (h : parse limits text = .ok r) : r.leafCount ≤ limits.conditions :=
  (parse_eq_ok_iff.1 h).2.2

theorem wellFormed_of_parse (h : parse limits text = .ok r) : r.WellFormed := by
  obtain ⟨-, ⟨ts, hts, hr, -⟩, -⟩ := parse_eq_ok_iff_derives.1 h
  exact wellFormed_of_derives hr (List.forall_mem_map.2 (Token.wellFormed_of_scan hts))

/-- No group of one is read, since a chain of one is its member. -/
theorem branching_of_parse (h : parse limits text = .ok r) : r.Branching := by
  obtain ⟨-, ⟨ts, -, hr, -⟩, -⟩ := parse_eq_ok_iff_derives.1 h
  exact branching_of_derives hr

/-- Groups nest at most twice as deep as parentheses may, and twice more: between two levels of
parentheses there is room for a group under each combinator. -/
theorem depth_le_of_parse (h : parse limits text = .ok r) : r.depth ≤ 2 * limits.depth + 2 := by
  obtain ⟨-, ⟨ts, -, hr, hnesting⟩, -⟩ := parse_eq_ok_iff_derives.1 h
  have hdepth := depth_le_of_derives hr
  simp only [Phrase.height] at hdepth
  omega

end Parsed

/-- Where no limit is below the size of the text, the text is read as just the rule that the grammar
derives from its lexemes: a text cannot nest deeper or have more comparisons than it is long. -/
theorem parse_iff_derives {limits : Limits} {text : String}
    (h : ∀ limit, text.utf8ByteSize ≤ limits.of limit) (r : Rule) :
    parse limits text = .ok r ↔
      ∃ ts, Token.scan text.toList = .ok ts ∧ Derives (.chain .or) (ts.map Token.lexeme) r := by
  rw [parse_eq_ok_iff_derives]
  constructor
  · intro hparse
    obtain ⟨-, ⟨ts, hts, hr, -⟩, -⟩ := hparse
    exact ⟨ts, hts, hr⟩
  · intro hderives
    obtain ⟨ts, hts, hr⟩ := hderives
    have hlength : (ts.map Token.lexeme).length ≤ text.utf8ByteSize := by
      rw [List.length_map]
      exact Nat.le_trans (Token.length_le_of_scan hts) (Text.length_toList_le text)
    have hnesting := nesting_le_length 0 (ts.map Token.lexeme)
    have hcount := leafCount_le_length hr
    have hdepth : text.utf8ByteSize ≤ limits.depth := h .depth
    have hconditions : text.utf8ByteSize ≤ limits.conditions := h .conditions
    exact ⟨h .size, ⟨ts, hts, hr, by omega⟩, by omega⟩

/-- A chain under `and` whose second member is in parentheses, and whose first one has an `and` of
its own. -/
theorem parse_iff_derives_chain :
    let text := "a Between null aNd 'x' AND (b in [] Or c is not NULL) and d == true"
    let limits : Limits := ⟨100, 100, 100⟩
    (∀ limit, text.utf8ByteSize ≤ limits.of limit) ∧
      parse limits text = .ok (.group .and
        [.leaf ⟨"a", .between, .range .null (.string "x")⟩,
          .group .or [.leaf ⟨"b", .oneOf, .list []⟩, .leaf ⟨"c", .isNotNull, .none⟩],
          .leaf ⟨"d", .eq, .single (.bool true)⟩]) := by
  intro text limits
  have hsize : ∀ limit, text.utf8ByteSize ≤ limits.of limit := by
    intro limit
    cases limit <;> decide
  have hfield {s : String} (h : Keyword.ofWord? s = none) : IsField (.word s) s :=
    isField_word_iff.2 ⟨rfl, h⟩
  have hword {k : Keyword} {s : String} (h : Keyword.ofWord? s = some k) : IsWord k (.word s) :=
    isWord_word_iff.2 h
  have ha : IsComparison [.word "a", .word "Between", .word "null", .word "aNd", .string "x"]
      ⟨"a", .between, .range .null (.string "x")⟩ :=
    .test (hfield (by decide)) (.between (hword (by decide)) (.null (hword (by decide)))
      (hword (by decide)) (.string "x"))
  have hb : IsComparison [.word "b", .word "in", .openBracket, .closeBracket]
      ⟨"b", .oneOf, .list []⟩ := .test (hfield (by decide)) (.oneOf (hword (by decide)) .empty)
  have hc : IsComparison [.word "c", .word "is", .word "not", .word "NULL"]
      ⟨"c", .isNotNull, .none⟩ :=
    .test (hfield (by decide))
      (.isNotNull (hword (by decide)) (hword (by decide)) (hword (by decide)))
  have hd : IsComparison [.word "d", .compare .eq, .word "true"]
      ⟨"d", .eq, .single (.bool true)⟩ :=
    .test (hfield (by decide)) (.compare .eq (.true (hword (by decide))))
  have hinner := @Derives.group .or _ _ [⟨.word "Or", _, _⟩] (by simp)
    (.single .and (.comparison hb)) (List.forall_mem_singleton.2 (hword (by decide)))
    (List.forall_mem_singleton.2 (.single .and (.comparison hc)))
  have houter := @Derives.group .and _ _ [⟨.word "AND", _, _⟩, ⟨.word "and", _, _⟩] (by simp)
    (.comparison ha)
    (List.forall_mem_cons.2 ⟨hword (by decide), List.forall_mem_singleton.2 (hword (by decide))⟩)
    (List.forall_mem_cons.2 ⟨.paren hinner, List.forall_mem_singleton.2 (.comparison hd)⟩)
  have hscan : Token.Scanned text.toList
      [.word "a", .word "Between", .word "null", .word "aNd", .string "x", .word "AND",
        .openParen, .word "b", .word "in", .openBracket, .closeBracket, .word "Or", .word "c",
        .word "is", .word "not", .word "NULL", .closeParen, .word "and", .word "d", .compare .eq,
        .word "true"] := by decide +kernel
  obtain ⟨ts, hts, hls⟩ := hscan
  refine ⟨hsize, (parse_iff_derives hsize _).2 ⟨ts, hts, ?_⟩⟩
  rw [hls]
  exact .single .or houter

end Rule

end RuleFilter
