import RuleFilter.Proofs.Rule.Parse
import RuleFilter.Proofs.Token.Respelled

/-!
Surface spelling. Text that is read is read as the same rule when keywords change their case, signs
and operators of words are written in their other form, numbers get a plus sign, strings the other
quotes, and lexemes other blanks between them.
-/

namespace RuleFilter.Rule

open Grammar Token

variable {limits limits' : Limits} {text text' : String} {r : Rule}

/-- One edit leaves the rule that is derived. -/
theorem derives_of_respelled (h : Token.Respelled text text') {ls : List Lexeme}
    (hls : Scanned text.toList ls) (hr : Derives (.chain .or) ls r) :
    ∃ ls', Scanned text'.toList ls' ∧ Derives (.chain .or) ls' r := by
  obtain ⟨ls', hls', hrespelled⟩ := h.scanned (followed_of_derives hr) hls
  exact ⟨ls', hls', hrespelled.derives hr⟩

theorem derives_of_edits (hedits : Relation.ReflTransGen Token.Respelled text text')
    (h : ∃ ls, Scanned text.toList ls ∧ Derives (.chain .or) ls r) :
    ∃ ls, Scanned text'.toList ls ∧ Derives (.chain .or) ls r := by
  induction hedits with
  | refl => exact h
  | tail _ hedit ih =>
    obtain ⟨ls, hls, hr⟩ := ih
    exact derives_of_respelled hedit hls hr

/-- Text that is read is read as the same rule after any number of edits. -/
theorem parse_respelled (h : parse limits text = .ok r)
    (hedits : Relation.ReflTransGen Token.Respelled text text')
    (hlimits : ∀ limit, text'.utf8ByteSize ≤ limits'.of limit) : parse limits' text' = .ok r := by
  obtain ⟨-, ⟨ts, hts, hr, -⟩, -⟩ := parse_eq_ok_iff_derives.1 h
  obtain ⟨_, ⟨ts', hts', rfl⟩, hr'⟩ := derives_of_edits hedits ⟨_, ⟨ts, hts, rfl⟩, hr⟩
  exact (parse_iff_derives hlimits r).2 ⟨ts', hts', hr'⟩

/-- An operator becomes one word, and the string after it, whose content has both quotes, the other
kind of string. -/
theorem parse_respelled_startsWith :
    let text := "a starts \t with '\\'\"'"
    let text' := "a StartsWith \"'\\\"\""
    let limits : Limits := ⟨99, 99, 99⟩
    let r : Rule := .leaf ⟨"a", .startsWith, .single (.string "'\"")⟩
    (parse limits text = .ok r ∧ Relation.ReflTransGen Token.Respelled text text' ∧
        ∀ limit, text'.utf8ByteSize ≤ limits.of limit) ∧
      parse limits text' = .ok r := by
  intro text text' limits r
  have hparse : parse limits text = .ok r := by
    have hword {k : Keyword} {s : String} (h : Keyword.ofWord? s = some k) : IsWord k (.word s) :=
      isWord_word_iff.2 h
    have htest : IsComparison [.word "a", .word "starts", .word "with", .string "'\""]
        ⟨"a", .startsWith, .single (.string "'\"")⟩ :=
      .test (isField_word_iff.2 ⟨rfl, by decide⟩)
        (.startsThenWith (hword (by decide)) (hword (by decide)) (.string _))
    have hscan : Scanned text.toList [.word "a", .word "starts", .word "with", .string "'\""] := by
      decide +kernel
    obtain ⟨ts, hts, hls⟩ := hscan
    refine (parse_iff_derives (fun limit => by cases limit <;> decide) r).2 ⟨ts, hts, ?_⟩
    rw [hls]
    exact .single .or (.single .and (.comparison htest))
  have hfuse : Token.Respelled text "a StartsWith '\\'\"'" := by
    have hbefore (rest : List Char) : Before rest ['a', ' '] [⟨.word "a", ['a', ' ']⟩] := by
      have hnext : next 'a' ([' '] ++ rest) = .ok (.word "a", [' '] ++ rest) := by
        simp [next_word, Text.isFieldPart, Text.isWordPart, Text.isWordStart]
      exact .token rfl hnext (.blank rfl .nil)
    have hblank : ∀ c ∈ " \t ".toList, Text.isBlank c := List.all_eq_true.1 (by decide)
    have hedit : Edit (' ' :: "'\\'\"'".toList)
        ("starts".toList ++ (" \t ".toList ++ "with".toList)) "StartsWith".toList :=
      .fuse .startsWith (by decide) (by decide) (by decide) (by decide) hblank
        ((Text.stops_cons ..).2 rfl)
    exact ⟨['a', ' '], _, _, _, _, hbefore _, hedit, by decide, by decide⟩
  have hquotes : Token.Respelled "a StartsWith '\\'\"'" text' := by
    have hscan : Scanned "a StartsWith ".toList [.word "a", .word "StartsWith"] := by
      decide +kernel
    obtain ⟨ts, hts, -⟩ := hscan
    have hedit : Edit [] ('\'' :: (['\\', '\'', '"'] ++ ['\'']))
        ('"' :: (['\'', '\\', '"'] ++ ['"'])) :=
      .quotes (.inr rfl) (.inl rfl) (.escape rfl (.plain (by decide) (by decide) .nil))
        (.plain (by decide) (by decide) (.escape rfl .nil))
    exact ⟨_, [], _, _, ts, (before_of_scan hts).congr (.of_stops ((Text.stops_cons ..).2 rfl)),
      hedit, by decide, by decide⟩
  have hlimits : ∀ limit, text'.utf8ByteSize ≤ limits.of limit := by
    intro limit
    cases limit <;> decide
  have hedits : Relation.ReflTransGen Token.Respelled text text' :=
    (Relation.ReflTransGen.single hfuse).tail hquotes
  exact ⟨⟨hparse, hedits, hlimits⟩, parse_respelled hparse hedits hlimits⟩

end RuleFilter.Rule
