import RuleFilter.Proofs.Rule.Canonical
import RuleFilter.Proofs.Rule.Payload
import RuleFilter.Proofs.Token.Append

/-!
The rules that can be read. Text can be read as just the well-formed rules in which every group has
two members or more, and payloads as just the well-formed ones. Between two levels of parentheses a
text has room for two groups, one under each combinator, and no more: what is read nests at most
twice as deep as the limit and twice more, and for each limit some text nests that deep.
-/

namespace RuleFilter

namespace Rule

/-- Whatever is read is well formed, and of text nothing else is asked than that no group has a
single member. -/
theorem exists_read_iff (r : Rule) :
    ((∃ limits text, parse limits text = .ok r) ↔ r.WellFormed ∧ r.Branching) ∧
      ((∃ limits payload, ofJson limits payload = .ok r) ↔ r.WellFormed) := by
  refine ⟨⟨?_, ?_⟩, ⟨?_, ?_⟩⟩
  · rintro ⟨limits, text, h⟩
    exact ⟨wellFormed_of_parse h, branching_of_parse h⟩
  · rintro ⟨hwell, hbranching⟩
    have hparse := @parse_collapse ⟨r.text.utf8ByteSize, r.depth, r.leafCount⟩ r hwell
      (Nat.le_refl _) (Nat.le_succ _) (Nat.le_refl _)
    rw [collapse_eq_self hbranching] at hparse
    exact ⟨_, _, hparse⟩
  · rintro ⟨limits, payload, h⟩
    exact wellFormed_of_ofJson h
  · intro hwell
    have hjson := @ofJson_toJson ⟨0, r.depth, r.leafCount⟩ r hwell (Nat.le_refl _)
    rw [if_pos (Nat.le_refl _)] at hjson
    exact ⟨_, _, hjson⟩

section Layers

open Grammar Reading

def nullTest : Rule := .leaf ⟨"a", .isNull, .none⟩

/-- A rule in a group under each combinator. -/
def layer (r : Rule) : Rule := .group .or [.group .and [r, nullTest], nullTest]

/-- The rule that is read where parentheses nest `n` deep and every level has both combinators. -/
def layers : Nat → Rule
  | 0 => layer nullTest
  | n + 1 => layer (layers n)

/-- The text of a layer around a rule, without parentheses of its own. -/
def layerText (text : String) : String := text ++ " AND a IS NULL OR a IS NULL"

def layersText : Nat → String
  | 0 => layerText "a IS NULL"
  | n + 1 => layerText ("(" ++ layersText n ++ ")")

theorem depth_layer (r : Rule) : (layer r).depth = r.depth + 2 := by
  simp [layer, nullTest, depth]
  omega

theorem depth_layers (n : Nat) : (layers n).depth = 2 * (n + 1) := by
  induction n with
  | zero => simp [layers, depth_layer, nullTest, depth]
  | succ n ih => rw [layers, depth_layer, ih]; omega

def nullTestLexemes : List Lexeme := [.word "a", .word "IS", .word "NULL"]

def layerLexemes : List Lexeme := .word "AND" :: (nullTestLexemes ++ .word "OR" :: nullTestLexemes)

theorem derivesWithin_layer {n : Nat} {ls : List Lexeme} {r : Rule}
    (h : DerivesWithin n .term ls r) :
    DerivesWithin n (.chain .or) (ls ++ layerLexemes) (layer r) := by
  have hnull : DerivesWithin n .term nullTestLexemes nullTest := derivesWithin_isNull (by decide)
  have hand := derivesWithin_pair .and h hnull
  have hor := derivesWithin_pair .or hand (hnull.single .and)
  simpa [layer, layerLexemes, Combinator.keyword] using hor

theorem scanned_layerText {text : String} {ls : List Lexeme} (h : Token.Scanned text.toList ls) :
    Token.Scanned (layerText text).toList (ls ++ layerLexemes) := by
  have hlayer : Token.Scanned " AND a IS NULL OR a IS NULL".toList layerLexemes := by
    decide +kernel
  rw [layerText, String.toList_append]
  exact h.append ((Text.stops_cons ..).2 rfl) hlayer

theorem exists_lexemes_layersText (n : Nat) : ∃ ls, Token.Scanned (layersText n).toList ls ∧
    DerivesWithin n (.chain .or) ls (layers n) := by
  induction n with
  | zero =>
    have hnull : Token.Scanned "a IS NULL".toList nullTestLexemes := by decide +kernel
    exact ⟨_, scanned_layerText hnull,
      derivesWithin_layer (derivesWithin_isNull (by decide))⟩
  | succ n ih =>
    obtain ⟨ls, hscan, hderives⟩ := ih
    have henclosed : Token.Scanned ("(" ++ layersText n ++ ")").toList
        (.openParen :: (ls ++ [.closeParen])) := by
      simpa using hscan.enclosed.scanned
    exact ⟨_, scanned_layerText henclosed, derivesWithin_layer (derivesWithin_paren hderives)⟩

theorem parse_layersText {limits : Limits}
    (hsize : (layersText limits.depth).utf8ByteSize ≤ limits.size)
    (hconditions : (layers limits.depth).leafCount ≤ limits.conditions) :
    parse limits (layersText limits.depth) = .ok (layers limits.depth) := by
  obtain ⟨ls, hscan, hderives⟩ := exists_lexemes_layersText limits.depth
  exact parse_of_scanned hscan hderives hsize hconditions

/-- The greatest depth of what is read where parentheses nest at most `n` deep is `2 * (n + 1)`,
which one text reaches under all limits that leave room for it. -/
theorem depth_le_and_exists_eq : (∀ limits text r, parse limits text = .ok r →
      r.depth ≤ 2 * (limits.depth + 1)) ∧
    ∀ n, ∃ text r, r.depth = 2 * (n + 1) ∧ ∀ limits : Limits, limits.depth = n →
      text.utf8ByteSize ≤ limits.size → r.leafCount ≤ limits.conditions →
        parse limits text = .ok r := by
  constructor
  · intro limits text r h
    have hdepth := depth_le_of_parse h
    omega
  · intro n
    refine ⟨layersText n, layers n, depth_layers n, ?_⟩
    rintro limits rfl hsize hconditions
    exact parse_layersText hsize hconditions

/-- However deep parentheses may nest, some text within that limit has canonical text beyond it. -/
theorem exists_canonical_too_deep (n : Nat) : ∃ limits text r, limits.depth = n ∧
    parse limits text = .ok r ∧ r.text.utf8ByteSize ≤ limits.size ∧
      parse limits r.text = .error (.tooLarge .depth n) := by
  let limits : Limits := ⟨max (layersText n).utf8ByteSize (layers n).text.utf8ByteSize, n,
    (layers n).leafCount⟩
  have hparse : parse limits (layersText n) = .ok (layers n) :=
    @parse_layersText limits (Nat.le_max_left _ _) (Nat.le_refl _)
  have hsize : (layers n).text.utf8ByteSize ≤ limits.size := Nat.le_max_right _ _
  have hdepth : n + 1 < (layers n).depth := by
    rw [depth_layers]
    omega
  exact ⟨limits, layersText n, layers n, rfl, hparse, hsize,
    reparse_text_of_depth_lt hparse hsize hdepth⟩

end Layers

end Rule

end RuleFilter
