import RuleFilter.Proofs.Rule.Shape
import RuleFilter.Proofs.Token.Spelling

/-! The lexemes of canonical text: the text of a rule spells the lexemes of the rule. -/

namespace RuleFilter

open Token

namespace Value

def lexeme : Value → Lexeme
  | .string s => .string s
  | .number (.finite x) => .number x
  | .number x => .word x.text
  | .bool b => .word (Value.bool b).text
  | .null => .word Value.null.text

theorem value?_lexeme {v : Value} (h : v.IsWritable) : v.lexeme.value? = some v := by
  cases v with
  | string s => rfl
  | number x => obtain ⟨y, rfl⟩ := h; rfl
  | bool b => cases b <;> decide
  | null => decide

theorem spells_text {v : Value} (h : v.IsWritable) : Spells v.text.toList [v.lexeme] := by
  cases v with
  | string s => exact spells_string s
  | number x =>
    obtain ⟨y, rfl⟩ := h
    simpa [text, Binary64.text, lexeme] using spells_number y
  | bool b => cases b <;> exact spells_word rfl
  | null => exact spells_word rfl

end Value

namespace Operator

def lexemes : Operator → List Lexeme
  | .between => [.word "BETWEEN"]
  | .oneOf => [.word "IN"]
  | .noneOf => [.word "NOT", .word "IN"]
  | .contains => [.word "CONTAINS"]
  | .startsWith => [.word "STARTS", .word "WITH"]
  | .endsWith => [.word "ENDS", .word "WITH"]
  | .isNull => [.word "IS", .word "NULL"]
  | .isNotNull => [.word "IS", .word "NOT", .word "NULL"]
  | op => [.compare op]

theorem spells_symbol (op : Operator) : Spells op.symbol.toList op.lexemes := by
  have hword {s : String} (h : Text.isWord s.toList) : Spells s.toList [.word s] := spells_word h
  cases op with
  | eq =>
    show Spells ['='] [.compare .eq]
    exact spells_sign rfl rfl fun rest h _ => by simp [comparison?]
  | neq =>
    show Spells ['!', '='] [.compare .neq]
    exact spells_sign rfl rfl fun rest _ _ => rfl
  | lt =>
    show Spells ['<'] [.compare .lt]
    exact spells_sign rfl rfl fun rest h h' => by simp [comparison?]
  | lte =>
    show Spells ['<', '='] [.compare .lte]
    exact spells_sign rfl rfl fun rest _ _ => rfl
  | gt =>
    show Spells ['>'] [.compare .gt]
    exact spells_sign rfl rfl fun rest h _ => by simp [comparison?]
  | gte =>
    show Spells ['>', '='] [.compare .gte]
    exact spells_sign rfl rfl fun rest _ _ => rfl
  | between | oneOf | contains => exact hword rfl
  | noneOf => exact (hword (s := "NOT") rfl).blank_append (hword (s := "IN") rfl)
  | startsWith => exact (hword (s := "STARTS") rfl).blank_append (hword (s := "WITH") rfl)
  | endsWith => exact (hword (s := "ENDS") rfl).blank_append (hword (s := "WITH") rfl)
  | isNull => exact (hword (s := "IS") rfl).blank_append (hword (s := "NULL") rfl)
  | isNotNull =>
    exact (hword (s := "IS") rfl).blank_append
      ((hword (s := "NOT") rfl).blank_append (hword (s := "NULL") rfl))

end Operator

namespace Operand

/-- The lexemes after the operator. -/
def lexemes : Operand → List Lexeme
  | .none => []
  | .single v => [v.lexeme]
  | .list vs => .openBracket :: ([Lexeme.comma].intercalate (vs.map fun v => [v.lexeme]) ++
      [.closeBracket])
  | .range low high => [low.lexeme, .word "AND", high.lexeme]

theorem spells_text {v : Operand} (h : ∀ u ∈ v.values, u.IsWritable) :
    Spells v.text.toList v.lexemes := by
  cases v with
  | none => exact spells_nil
  | single v =>
    simpa [text, lexemes] using (Value.spells_text (h v (by simp [values]))).blank
  | list vs =>
    have hvs : Spells ([',', ' '].intercalate (vs.map fun v => v.text.toList))
        ([Lexeme.comma].intercalate (vs.map fun v => [v.lexeme])) :=
      .intercalate (fun _ _ hd => .mark rfl hd.blank) (fun _ => (Text.stops_cons ..).2 rfl)
        fun v hv => Value.spells_text (h v hv)
    simpa [text, lexemes, Function.comp_def] using
      (Spells.mark rfl (hvs.close (c := ']') rfl rfl)).blank
  | range low high =>
    have hlow := Value.spells_text (h low (by simp [values]))
    have hhigh := Value.spells_text (h high (by simp [values]))
    have hand : Spells "AND".toList [.word "AND"] := spells_word rfl
    simpa [text, lexemes] using (hlow.blank_append (hand.blank_append hhigh)).blank

theorem stops_text (v : Operand) : Text.Stops mayExtend v.text.toList := by
  cases v <;> simp [text, mayExtend, Text.isFieldPart, Text.isWordPart]

end Operand

namespace Comparison

def lexemes (c : Comparison) : List Lexeme :=
  .word c.field :: (c.operator.lexemes ++ c.operand.lexemes)

theorem spells_text {c : Comparison} (h : c.WellFormed) : Spells c.text.toList c.lexemes := by
  have hop := (Operator.spells_symbol c.operator).append (Operand.spells_text h.values)
    (Operand.stops_text _)
  simpa [text, lexemes] using
    (spells_word (Text.isFieldName_iff.1 h.field).1).blank_append hop

end Comparison

/-- Texts with the word of a combinator between them. -/
theorem Combinator.spells_intercalate (k : Combinator) {α : Type} {f : α → List Char}
    {g : α → List Lexeme} {xs : List α} (h : ∀ x ∈ xs, Spells (f x) (g x)) :
    Spells ((' ' :: (k.keyword.toList ++ [' '])).intercalate (xs.map f))
      ([Lexeme.word k.keyword].intercalate (xs.map g)) := by
  have hkeyword : Spells k.keyword.toList [.word k.keyword] :=
    spells_word (by cases k <;> rfl)
  refine .intercalate (fun ds ms hds => ?_) (fun _ => (Text.stops_cons ..).2 rfl) h
  simpa using (hkeyword.blank_append hds).blank

namespace Rule

/-- The lexemes of a rule that stands beside others, from its lexemes alone. -/
def encloseLexemes (r : Rule) (ls : List Lexeme) : List Lexeme :=
  match r with
  | .leaf _ => ls
  | .group _ _ => .openParen :: (ls ++ [.closeParen])

def lexemes : Rule → List Lexeme
  | .leaf c => c.lexemes
  | .group _ [only] => lexemes only
  | .group combinator children =>
    [Lexeme.word combinator.keyword].intercalate
      (children.map fun r => r.encloseLexemes (lexemes r))

theorem spells_enclose {r : Rule} (h : Spells r.text.toList r.lexemes) :
    Spells (r.enclose r.text).toList (r.encloseLexemes r.lexemes) := by
  cases r with
  | leaf c => exact h
  | group combinator children =>
    simpa [enclose, encloseLexemes] using
      Spells.mark rfl (h.close (c := ')') rfl rfl)

theorem text_group {combinator : Combinator} {children : List Rule} (h : children.length ≠ 1) :
    text (.group combinator children) =
      String.intercalate (" " ++ combinator.keyword ++ " ")
        (children.map fun r => r.enclose r.text) := by
  rw [text]
  rintro only rfl
  exact h rfl

theorem lexemes_group {combinator : Combinator} {children : List Rule} (h : children.length ≠ 1) :
    lexemes (.group combinator children) =
      [Lexeme.word combinator.keyword].intercalate
        (children.map fun r => r.encloseLexemes r.lexemes) := by
  rw [lexemes]
  rintro only rfl
  exact h rfl

theorem spells_text {r : Rule} (h : r.WellFormed) : Spells r.text.toList r.lexemes := by
  induction h with
  | leaf hc => simpa [text, lexemes] using Comparison.spells_text hc
  | @group combinator children _ _ ih =>
    by_cases hlen : children.length = 1
    · obtain ⟨only, rfl⟩ := List.length_eq_one_iff.1 hlen
      simpa [text, lexemes] using ih only (by simp)
    · have hgroup := combinator.spells_intercalate fun r hr => spells_enclose (ih r hr)
      rw [text_group hlen, lexemes_group hlen]
      simpa [Function.comp_def] using hgroup

end Rule

end RuleFilter
