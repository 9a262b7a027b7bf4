import RuleFilter.Proofs.Rule.Shape
import RuleFilter.Proofs.Token.Shape

/-!
The grammar of filter text, over lexemes. A phrase stands for the rule of its derivation: a chain of
one is its only member, a longer chain is the group of its members in reading order, and a rule in
parentheses is one member wherever it stands. What a phrase derives bounds what its rule can hold:
comparisons by the number of lexemes, groups by how deep its parentheses nest.
-/

namespace RuleFilter

namespace Keyword

theorem ofWord?_text (k : Keyword) : ofWord? k.text = some k := by cases k <;> decide

theorem ofWord?_eq_some_iff {s : String} {k : Keyword} :
    ofWord? s = some k ↔ Text.sameWord k.text s := by
  constructor
  · intro h
    simpa using List.find?_some h
  · intro h
    rw [Text.sameWord, beq_iff_eq] at h
    rw [ofWord?_congr h.symm, ofWord?_text]

theorem ofWord?_eq_none_iff {s : String} :
    ofWord? s = none ↔ ∀ k : Keyword, ¬ Text.sameWord k.text s := by
  simp only [← ofWord?_eq_some_iff, Option.eq_none_iff_forall_ne_some, Ne]

end Keyword

namespace Grammar

/-- A word that is the keyword but for the case of its letters. -/
inductive IsWord (k : Keyword) : Lexeme → Prop
  | word {s : String} : Text.sameWord k.text s → IsWord k (.word s)

/-- A word that is no keyword, whatever its case. -/
inductive IsField : Lexeme → String → Prop
  | word {s : String} : (∀ k : Keyword, ¬ Text.sameWord k.text s) → IsField (.word s) s

inductive IsValue : Lexeme → Value → Prop
  | string (s : String) : IsValue (.string s) (.string s)
  | number (x : Binary64.Finite) : IsValue (.number x) (.number x)
  | true {l : Lexeme} : IsWord .true l → IsValue l (.bool true)
  | false {l : Lexeme} : IsWord .false l → IsValue l (.bool false)
  | null {l : Lexeme} : IsWord .null l → IsValue l .null

/-- One or more values between commas. -/
inductive IsValues : List Lexeme → List Value → Prop
  | one {l : Lexeme} {v : Value} : IsValue l v → IsValues [l] [v]
  | more {l : Lexeme} {v : Value} {ls : List Lexeme} {vs : List Value} :
      IsValue l v → IsValues ls vs → IsValues (l :: .comma :: ls) (v :: vs)

inductive IsList : List Lexeme → List Value → Prop
  | empty : IsList [.openBracket, .closeBracket] []
  | values {ls : List Lexeme} {vs : List Value} :
      IsValues ls vs → IsList (.openBracket :: (ls ++ [.closeBracket])) vs

/-- What follows the field of a comparison. -/
inductive IsTest : List Lexeme → Operator → Operand → Prop
  | compare (op : Operator) {l : Lexeme} {v : Value} :
      IsValue l v → IsTest [.compare op, l] op (.single v)
  | oneOf {w : Lexeme} {ls : List Lexeme} {vs : List Value} :
      IsWord .among w → IsList ls vs → IsTest (w :: ls) .oneOf (.list vs)
  | noneOf {n w : Lexeme} {ls : List Lexeme} {vs : List Value} :
      IsWord .not n → IsWord .among w → IsList ls vs → IsTest (n :: w :: ls) .noneOf (.list vs)
  | contains {w l : Lexeme} {v : Value} :
      IsWord .contains w → IsValue l v → IsTest [w, l] .contains (.single v)
  | startsWith {w l : Lexeme} {v : Value} :
      IsWord .startsWith w → IsValue l v → IsTest [w, l] .startsWith (.single v)
  | startsThenWith {s w l : Lexeme} {v : Value} :
      IsWord .starts s → IsWord .with w → IsValue l v → IsTest [s, w, l] .startsWith (.single v)
  | endsWith {w l : Lexeme} {v : Value} :
      IsWord .endsWith w → IsValue l v → IsTest [w, l] .endsWith (.single v)
  | endsThenWith {s w l : Lexeme} {v : Value} :
      IsWord .ends s → IsWord .with w → IsValue l v → IsTest [s, w, l] .endsWith (.single v)
  | between {b l a h : Lexeme} {low high : Value} :
      IsWord .between b → IsValue l low → IsWord .and a → IsValue h high →
      IsTest [b, l, a, h] .between (.range low high)
  | isNull {i n : Lexeme} : IsWord .is i → IsWord .null n → IsTest [i, n] .isNull .none
  | isNotNull {i t n : Lexeme} :
      IsWord .is i → IsWord .not t → IsWord .null n → IsTest [i, t, n] .isNotNull .none

inductive IsComparison : List Lexeme → Comparison → Prop
  | test {l : Lexeme} {ls : List Lexeme} {field : String} {op : Operator} {v : Operand} :
      IsField l field → IsTest ls op v → IsComparison (l :: ls) ⟨field, op, v⟩

/-- A term is a comparison or stands in parentheses; a chain has terms under `and`, and chains under
`and` are what it has under `or`. -/
inductive Phrase where
  | term
  | chain (k : Combinator)

/-- What a chain is made of. -/
def members : Combinator → Phrase
  | .and => .term
  | .or => .chain .and

/-- From what chains are made of to the chains, by way of those under `and`. -/
@[elab_as_elim]
theorem Phrase.induct {P : Phrase → Prop} (term : P .term)
    (chain : ∀ k, P (members k) → P (.chain k)) (ph : Phrase) : P ph := by
  have hand : P (.chain .and) := chain .and term
  match ph with
  | .term => exact term
  | .chain .and => exact hand
  | .chain .or => exact chain .or hand

/-- The keyword between the members of a chain. -/
def joining : Combinator → Keyword
  | .and => .and
  | .or => .or

/-- A member of a chain after the first one, with the word that joins it to those before. -/
structure Link where
  word : Lexeme
  lexemes : List Lexeme
  rule : Rule

def Link.text (x : Link) : List Lexeme := x.word :: x.lexemes

inductive Derives : Phrase → List Lexeme → Rule → Prop
  | comparison {ls : List Lexeme} {c : Comparison} :
      IsComparison ls c → Derives .term ls (.leaf c)
  | paren {ls : List Lexeme} {r : Rule} :
      Derives (.chain .or) ls r → Derives .term (.openParen :: (ls ++ [.closeParen])) r
  | single (k : Combinator) {ls : List Lexeme} {r : Rule} :
      Derives (members k) ls r → Derives (.chain k) ls r
  | group (k : Combinator) {ls : List Lexeme} {r : Rule} {links : List Link} : links ≠ [] →
      Derives (members k) ls r → (∀ x ∈ links, IsWord (joining k) x.word) →
      (∀ x ∈ links, Derives (members k) x.lexemes x.rule) →
      Derives (.chain k) (ls ++ links.flatMap Link.text) (.group k (r :: links.map Link.rule))

section Words

variable {k : Keyword} {l : Lexeme} {s : String} {v : Value}

theorem isKeyword_iff : l.isKeyword k ↔ IsWord k l := by
  constructor
  · intro h
    cases l with
    | word s => exact .word (Keyword.ofWord?_eq_some_iff.1 (by simpa [Lexeme.isKeyword] using h))
    | _ => simp [Lexeme.isKeyword] at h
  · intro h
    cases h with
    | word hs => simp [Lexeme.isKeyword, Keyword.ofWord?_eq_some_iff.2 hs]

theorem isWord_word_iff : IsWord k (.word s) ↔ Keyword.ofWord? s = some k := by
  rw [← isKeyword_iff]
  simp [Lexeme.isKeyword]

theorem eq_of_isWord {k' : Keyword} (h : IsWord k l) (h' : IsWord k' l) : k = k' := by
  cases h with
  | word hs =>
    rw [isWord_word_iff, Keyword.ofWord?_eq_some_iff.2 hs] at h'
    exact Option.some.inj h'

theorem isField_word_iff {t : String} : IsField (.word s) t ↔ s = t ∧ Keyword.ofWord? s = none := by
  constructor
  · intro h
    cases h with
    | word hs => exact ⟨rfl, Keyword.ofWord?_eq_none_iff.2 hs⟩
  · intro h
    rcases h with ⟨rfl, hs⟩
    exact .word (Keyword.ofWord?_eq_none_iff.1 hs)

theorem value?_eq_some_iff : l.value? = some v ↔ IsValue l v := by
  constructor
  · intro h
    cases l with
    | string s => cases h; exact .string s
    | number x => cases h; exact .number x
    | word s =>
      cases hs : Keyword.ofWord? s with
      | none => simp [Lexeme.value?, hs] at h
      | some k =>
        have hword : IsWord k (.word s) := isWord_word_iff.2 hs
        cases k with
        | true =>
          cases (by simpa [Lexeme.value?, hs] using h : Value.bool true = v)
          exact .true hword
        | false =>
          cases (by simpa [Lexeme.value?, hs] using h : Value.bool false = v)
          exact .false hword
        | null =>
          cases (by simpa [Lexeme.value?, hs] using h : Value.null = v)
          exact .null hword
        | _ => simp [Lexeme.value?, hs] at h
    | _ => cases h
  · intro h
    cases h with
    | string s => rfl
    | number x => rfl
    | true hw | false hw | null hw =>
      cases hw with
      | word hs => simp [Lexeme.value?, Keyword.ofWord?_eq_some_iff.2 hs]

end Words

section Rules

variable {ph : Phrase} {l : Lexeme} {ls : List Lexeme} {r : Rule}

theorem branching_of_derives (h : Derives ph ls r) : r.Branching := by
  induction h with
  | comparison _ => exact .leaf _
  | paren _ ih => exact ih
  | single k _ ih => exact ih
  | @group k ls r links hne _ _ _ ih ihs =>
    refine .group ?_ ?_
    · have := List.length_pos_iff.2 hne
      simp; omega
    · rw [List.forall_mem_cons, List.forall_mem_map]
      exact ⟨ih, ihs⟩

theorem leafCount_links_le {links : List Link}
    (h : ∀ x ∈ links, x.rule.leafCount ≤ x.lexemes.length) :
    ((links.map Link.rule).map Rule.leafCount).foldr (· + ·) 0 ≤
      (links.flatMap Link.text).length := by
  induction links with
  | nil => simp
  | cons x links ih =>
    have hx := h x (by simp)
    have hlinks := ih fun y hy => h y (by simp [hy])
    simp only [List.map_cons, List.foldr_cons, List.flatMap_cons, List.length_append, Link.text,
      List.length_cons]
    omega

theorem leafCount_le_length (h : Derives ph ls r) : r.leafCount ≤ ls.length := by
  induction h with
  | comparison hc =>
    cases hc with
    | test _ _ => simp [Rule.leafCount]
  | paren _ ih => simp; omega
  | single k _ ih => exact ih
  | group k _ _ _ _ ih ihs =>
    rw [Rule.leafCount, List.length_append]
    exact Nat.add_le_add ih (leafCount_links_le ihs)

theorem isWritable_of_isValue {v : Value} (h : IsValue l v) : v.IsWritable := by
  cases h with
  | number x => exact ⟨x, rfl⟩
  | _ => exact trivial

theorem isWritable_of_isList {vs : List Value} (h : IsList ls vs) : ∀ v ∈ vs, v.IsWritable := by
  cases h with
  | empty => simp
  | values hvs =>
    induction hvs with
    | one hv => simpa using isWritable_of_isValue hv
    | more hv _ ih => exact List.forall_mem_cons.2 ⟨isWritable_of_isValue hv, ih⟩

/-- The operand of a test has the shape that its operator takes, where signs are those of operators
that take one value. -/
theorem shape_of_isTest {op : Operator} {v : Operand} (h : IsTest ls op v)
    (hls : ∀ l ∈ ls, l.WellFormed) : v.shape = op.shape ∧ ∀ u ∈ v.values, u.IsWritable := by
  have hsingle {l : Lexeme} {v : Value} (hv : IsValue l v) :
      ∀ u ∈ (Operand.single v).values, u.IsWritable := by
    simpa [Operand.values] using isWritable_of_isValue hv
  cases h with
  | compare op hv => exact ⟨(hls (.compare op) (by simp)).symm, hsingle hv⟩
  | oneOf _ hvs | noneOf _ _ hvs => exact ⟨rfl, isWritable_of_isList hvs⟩
  | contains _ hv | startsWith _ hv | startsThenWith _ _ hv | endsWith _ hv | endsThenWith _ _ hv =>
    exact ⟨rfl, hsingle hv⟩
  | between _ hlow _ hhigh =>
    have hvalues := And.intro (isWritable_of_isValue hlow) (isWritable_of_isValue hhigh)
    exact ⟨rfl, by simpa [Operand.values] using hvalues⟩
  | isNull _ _ | isNotNull _ _ _ => exact ⟨rfl, by simp [Operand.values]⟩

theorem isFieldName_of_isField {field : String} (h : IsField l field) (hl : l.WellFormed) :
    Text.isFieldName field := by
  cases h with
  | word hs =>
    exact Text.isFieldName_iff.2 ⟨hl, Keyword.ofWord?_eq_none_iff.2 hs⟩

theorem wellFormed_of_isComparison {c : Comparison} (h : IsComparison ls c)
    (hls : ∀ l ∈ ls, l.WellFormed) : c.WellFormed := by
  cases h with
  | test hfield htest =>
    rw [List.forall_mem_cons] at hls
    obtain ⟨hshape, hvalues⟩ := shape_of_isTest htest hls.2
    exact ⟨isFieldName_of_isField hfield hls.1, hshape, hvalues⟩

/-- What is derived from lexemes that text can spell can be written as text. -/
theorem wellFormed_of_derives (h : Derives ph ls r) (hls : ∀ l ∈ ls, l.WellFormed) :
    r.WellFormed := by
  induction h with
  | comparison hc => exact .leaf (wellFormed_of_isComparison hc hls)
  | paren _ ih => exact ih fun l hl => hls l (by simp [hl])
  | single k _ ih => exact ih hls
  | group k _ _ _ _ ih ihs =>
    refine .group (by simp) ?_
    rw [List.forall_mem_cons, List.forall_mem_map]
    refine ⟨ih fun l hl => hls l (by simp [hl]), fun x hx => ihs x hx fun l hl => hls l ?_⟩
    rw [List.mem_append, List.mem_flatMap]
    exact .inr ⟨x, hx, List.mem_cons_of_mem _ hl⟩

end Rules

end Grammar

end RuleFilter
