import Mathlib.Algebra.Order.BigOperators.Group.List
import RuleFilter.Proofs.Rule.Limits
import RuleFilter.Proofs.Token.Append

/-!
Filter texts put together. Parentheses keep a text apart from those beside it, so that a filter can
be combined with another one by their texts alone.
-/

namespace RuleFilter

namespace Reading

open Grammar

/-- Phrases, however deep their parentheses nest, nest no deeper than some bound. -/
theorem exists_derivesWithin {α : Type} {ph : Phrase} {lexemes : α → List Lexeme} {f : α → Rule}
    {xs : List α} (h : ∀ x ∈ xs, Derives ph (lexemes x) (f x)) :
    ∃ n, ∀ x ∈ xs, DerivesWithin n ph (lexemes x) (f x) := by
  refine ⟨(xs.map fun x => nesting 0 (lexemes x)).sum, fun x hx => ⟨h x hx, ?_⟩⟩
  exact List.le_sum_of_mem (List.mem_map_of_mem hx)

end Reading

namespace Rule

open Grammar

/-- The texts in parentheses, with the word of a combinator between them. -/
def joined (k : Combinator) (texts : List String) : String :=
  String.intercalate (" " ++ k.keyword ++ " ") (texts.map fun text => "(" ++ text ++ ")")

theorem toList_joined (k : Combinator) (texts : List String) : (joined k texts).toList =
    (' ' :: (k.keyword.toList ++ [' '])).intercalate
      (texts.map fun text => '(' :: (text.toList ++ [')'])) := by
  simp [joined, Function.comp_def]

/-- Texts that are read, whatever they hold, are together read as the group of their rules, in
order, where no limit is below the size of the whole. -/
theorem parse_joined {limits : Limits} (k : Combinator) {parts : List (String × Rule)}
    (hlen : 2 ≤ parts.length) (h : ∀ p ∈ parts, ∃ own : Limits, parse own p.1 = .ok p.2)
    (hlimits : ∀ limit, (joined k (parts.map Prod.fst)).utf8ByteSize ≤ limits.of limit) :
    parse limits (joined k (parts.map Prod.fst)) = .ok (.group k (parts.map Prod.snd)) := by
  have hread : ∀ p ∈ parts, ∃ ts, Token.scan p.1.toList = .ok ts ∧
      Derives (.chain .or) (ts.map Token.lexeme) p.2 := by
    intro p hp
    rcases h p hp with ⟨own, hown⟩
    rcases parse_eq_ok_iff_derives.1 hown with ⟨-, ⟨ts, hts, hderives, -⟩, -⟩
    exact ⟨ts, hts, hderives⟩
  choose! ts hts hderives using hread
  have hspells : ∀ p ∈ parts, Token.Spells ('(' :: (p.1.toList ++ [')']))
      (.openParen :: ((ts p).map Token.lexeme ++ [.closeParen])) :=
    fun p hp => Token.Scanned.enclosed ⟨ts p, hts p hp, rfl⟩
  have hterms : ∀ p ∈ parts, Derives .term
      (.openParen :: ((ts p).map Token.lexeme ++ [.closeParen])) p.2 :=
    fun p hp => .paren (hderives p hp)
  rcases Reading.exists_derivesWithin hterms with ⟨n, hn⟩
  have hne : parts ≠ [] := List.length_pos_iff.1 (by omega)
  have hgroup := Reading.derivesWithin_group k hne (by omega) hn
  rcases (k.spells_intercalate hspells).scanned with ⟨us, hus, hls⟩
  refine (parse_iff_derives hlimits _).2 ⟨us, ?_, ?_⟩
  · rw [toList_joined, List.map_map]
    exact hus
  · rw [hls]
    exact hgroup.1

/-- The first text has the combinator itself, and a string with parentheses that are never closed.
-/
theorem parse_joined_bracketed_tight :
    let text := "(a = \"((\" AND (b IS NULL OR c IS NULL)) AND (a=true)"
    joined .and ["a = \"((\" AND (b IS NULL OR c IS NULL)", "a=true"] = text ∧
      parse ⟨64, 64, 64⟩ text = .ok (.group .and [bracketed, tight]) := by
  intro text
  have htext : joined .and ["a = \"((\" AND (b IS NULL OR c IS NULL)", "a=true"] = text := by
    decide
  have hsize : ∀ limit, text.utf8ByteSize ≤ Limits.of ⟨64, 64, 64⟩ limit := by
    intro limit
    cases limit <;> decide
  have htight : parse ⟨64, 64, 64⟩ "a=true" = .ok tight := parse_tight (by decide) (by decide)
  have hparts : ∀ p ∈ [("a = \"((\" AND (b IS NULL OR c IS NULL)", bracketed), ("a=true", tight)],
      ∃ own : Limits, parse own p.1 = .ok p.2 :=
    List.forall_mem_cons.2
      ⟨⟨_, parse_bracketed⟩, List.forall_mem_singleton.2 ⟨_, htight⟩⟩
  have hjoined := @parse_joined ⟨64, 64, 64⟩ .and _ (by simp) hparts (by
    rw [← htext] at hsize
    exact hsize)
  refine ⟨htext, ?_⟩
  rw [← htext]
  exact hjoined

end Rule

end RuleFilter
