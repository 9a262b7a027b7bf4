import RuleFilter.Proofs.Reading.Accepted
import RuleFilter.Proofs.Rule.Lexemes

/-!
Canonical text in the grammar. The lexemes of a rule derive the rule without its groups of one, and
their parentheses nest one level less than the groups of the rule.
-/

namespace RuleFilter

open Grammar Reading

namespace Grammar

theorem isValue_lexeme {v : Value} (h : v.IsWritable) : IsValue v.lexeme v :=
  value?_eq_some_iff.1 (Value.value?_lexeme h)

theorem isValues_lexemes {vs : List Value} (hne : vs ≠ []) (h : ∀ v ∈ vs, v.IsWritable) :
    IsValues ([Lexeme.comma].intercalate (vs.map fun v => [v.lexeme])) vs := by
  induction vs with
  | nil => exact absurd rfl hne
  | cons v vs ih =>
    rw [List.forall_mem_cons] at h
    have hv := isValue_lexeme h.1
    cases vs with
    | nil => exact .one hv
    | cons w vs => exact .more hv (ih (by simp) h.2)

theorem isList_lexemes {vs : List Value} (h : ∀ v ∈ vs, v.IsWritable) :
    IsList (Operand.list vs).lexemes vs := by
  cases vs with
  | nil => exact .empty
  | cons v vs => exact .values (isValues_lexemes (by simp) h)

theorem isTest_lexemes {op : Operator} {v : Operand} (hshape : v.shape = op.shape)
    (h : ∀ u ∈ v.values, u.IsWritable) : IsTest (op.lexemes ++ v.lexemes) op v := by
  have hword {k : Keyword} {s : String} (hs : Keyword.ofWord? s = some k) : IsWord k (.word s) :=
    isWord_word_iff.2 hs
  cases v with
  | none =>
    cases op with
    | isNull => exact .isNull (hword rfl) (hword rfl)
    | isNotNull => exact .isNotNull (hword rfl) (hword rfl) (hword rfl)
    | _ => cases hshape
  | single v =>
    have hv : IsValue v.lexeme v := isValue_lexeme (h v (by simp [Operand.values]))
    cases op with
    | eq | neq | lt | lte | gt | gte => exact .compare _ hv
    | contains => exact .contains (hword rfl) hv
    | startsWith => exact .startsThenWith (hword rfl) (hword rfl) hv
    | endsWith => exact .endsThenWith (hword rfl) (hword rfl) hv
    | _ => cases hshape
  | list vs =>
    cases op with
    | oneOf => exact .oneOf (hword rfl) (isList_lexemes h)
    | noneOf => exact .noneOf (hword rfl) (hword rfl) (isList_lexemes h)
    | _ => cases hshape
  | range low high =>
    cases op with
    | between =>
      exact .between (hword rfl) (isValue_lexeme (h low (by simp [Operand.values]))) (hword rfl)
        (isValue_lexeme (h high (by simp [Operand.values])))
    | _ => cases hshape

theorem isComparison_lexemes {c : Comparison} (h : c.WellFormed) : IsComparison c.lexemes c := by
  have hfield := (Text.isFieldName_iff.1 h.field).2
  exact .test (isField_word_iff.2 ⟨rfl, hfield⟩) (isTest_lexemes h.shape h.values)

end Grammar

namespace Reading

variable {n : Nat} {ls : List Lexeme} {r : Rule}

/-- A chain with nothing joined to it is its member. -/
theorem DerivesWithin.single (k : Combinator) (h : DerivesWithin n (members k) ls r) :
    DerivesWithin n (.chain k) ls r := by
  simpa [join] using @derivesWithin_join n k ls r [] h (by simp) (by simp)

theorem DerivesWithin.members (k : Combinator) (h : DerivesWithin n .term ls r) :
    DerivesWithin n (members k) ls r := by
  cases k with
  | and => exact h
  | or => exact .single .and h

theorem DerivesWithin.disjunction {k : Combinator} (h : DerivesWithin n (.chain k) ls r) :
    DerivesWithin n (.chain .or) ls r := by
  cases k with
  | and => exact .single .or h
  | or => exact h

theorem isWord_joining (k : Combinator) : IsWord (joining k) (.word k.keyword) := by
  cases k <;> exact isWord_word_iff.2 rfl

/-- Two members with the word of a combinator between them are their group. -/
theorem derivesWithin_pair (k : Combinator) {ms : List Lexeme} {q : Rule}
    (h : DerivesWithin n (members k) ls r) (h' : DerivesWithin n (members k) ms q) :
    DerivesWithin n (.chain k) (ls ++ .word k.keyword :: ms) (.group k [r, q]) := by
  simpa [Link.text, join] using @derivesWithin_join n k ls r [⟨.word k.keyword, ms, q⟩] h
    (List.forall_mem_singleton.2 (isWord_joining k)) (List.forall_mem_singleton.2 h')

theorem derivesWithin_isNull {s : String} (hs : Keyword.ofWord? s = none) :
    DerivesWithin n .term [.word s, .word "IS", .word "NULL"] (.leaf ⟨s, .isNull, .none⟩) :=
  derivesWithin_comparison (.test (isField_word_iff.2 ⟨rfl, hs⟩)
    (.isNull (isWord_word_iff.2 (by decide)) (isWord_word_iff.2 (by decide))))

section Joined

variable {α : Type} {lexemes : α → List Lexeme} {f : α → Rule}

/-- Lexemes with a word between them are the first ones, joined by that word to the others. -/
theorem intercalate_eq_links (w : Lexeme) (lexemes : α → List Lexeme) (f : α → Rule) (x : α)
    (xs : List α) : [w].intercalate ((x :: xs).map lexemes) =
      lexemes x ++ (xs.map fun y => (⟨w, lexemes y, f y⟩ : Link)).flatMap Link.text := by
  induction xs generalizing x with
  | nil => simp
  | cons y xs ih =>
    have hxs := ih y
    rw [List.map_cons] at hxs
    simp [List.intercalate_cons_cons, hxs, Link.text]

/-- Terms with the word of a combinator between them are the group of their rules. -/
theorem derivesWithin_group (k : Combinator) {xs : List α} (hne : xs ≠ [])
    (hlen : xs.length ≠ 1) (h : ∀ x ∈ xs, DerivesWithin n .term (lexemes x) (f x)) :
    DerivesWithin n (.chain .or) ([Lexeme.word k.keyword].intercalate (xs.map lexemes))
      (.group k (xs.map f)) := by
  match xs with
  | [] => exact absurd rfl hne
  | [x] => exact absurd rfl hlen
  | x :: y :: xs =>
    rw [List.forall_mem_cons] at h
    rw [intercalate_eq_links _ _ f]
    have hwords : ∀ link ∈ (y :: xs).map fun z => (⟨.word k.keyword, lexemes z, f z⟩ : Link),
        IsWord (joining k) link.word := List.forall_mem_map.2 fun _ _ => isWord_joining k
    have hlinks := derivesWithin_join (h.1.members k) hwords
      (List.forall_mem_map.2 fun z hz => (h.2 z hz).members k)
    simpa [join, Function.comp_def] using hlinks.disjunction

end Joined

/-- The lexemes of a rule derive it without its groups of one, in parentheses that nest one level
less than its groups. -/
theorem derivesWithin_lexemes (h : r.WellFormed) (hn : r.depth ≤ n + 1) :
    DerivesWithin n (.chain .or) r.lexemes r.collapse := by
  induction h generalizing n with
  | @leaf c hc =>
    rw [Rule.lexemes, Rule.collapse]
    exact ((derivesWithin_comparison (isComparison_lexemes hc)).members .or).single .or
  | @group combinator children hne hchildren ih =>
    by_cases hlen : children.length = 1
    · obtain ⟨only, rfl⟩ := List.length_eq_one_iff.1 hlen
      have hdepth := Rule.depth_lt_of_mem combinator (List.mem_singleton_self only)
      rw [Rule.collapse_singleton, Rule.lexemes]
      exact ih only (by simp) (by omega)
    · rw [Rule.collapse_group hlen, Rule.lexemes_group hlen]
      -- Only a member that is a group is in parentheses, so the outermost group costs no level.
      refine derivesWithin_group combinator hne hlen fun q hq => ?_
      have hq' := hchildren q hq
      have hdepth := Rule.depth_lt_of_mem combinator hq
      cases q with
      | leaf c =>
        cases hq' with
        | leaf hc =>
          rw [Rule.lexemes, Rule.collapse]
          exact derivesWithin_comparison (isComparison_lexemes hc)
      | group combinator' children' =>
        obtain ⟨m, rfl⟩ : ∃ m, n = m + 1 := Nat.exists_eq_succ_of_ne_zero (by
          rw [Rule.depth] at hdepth
          omega)
        exact derivesWithin_paren (ih _ hq (by omega))

theorem balanced_lexemes (h : r.WellFormed) : Balanced r.lexemes :=
  balanced_of_derives (derivesWithin_lexemes h (Nat.le_succ r.depth)).1

theorem balanced_encloseLexemes (h : r.WellFormed) : Balanced (r.encloseLexemes r.lexemes) := by
  cases r with
  | leaf c => exact balanced_lexemes h
  | group combinator children => exact (balanced_lexemes h).paren

/-- Where no group has one member, each group but the outermost costs a level of parentheses. -/
theorem nesting_lexemes_le_iff (h : r.WellFormed) (hbranching : r.Branching) :
    nesting 0 r.lexemes ≤ n ↔ r.depth ≤ n + 1 := by
  refine ⟨fun hnesting => ?_, fun hn => (derivesWithin_lexemes h hn).2⟩
  induction hbranching generalizing n with
  | leaf c => simp [Rule.depth]
  | @group combinator children hlen _ ih =>
    cases h with
    | group hne hchildren =>
    refine Rule.depth_group_le fun q hq => ?_
    have hmember : nesting 0 (q.encloseLexemes q.lexemes) ≤ n := by
      obtain ⟨x, xs, rfl⟩ := List.exists_cons_of_ne_nil hne
      rw [Rule.lexemes_group (by omega), intercalate_eq_links _ _ id,
        nesting_chain_le_iff (balanced_encloseLexemes (hchildren x (by simp)))
          (List.forall_mem_map.2 fun _ _ => rfl)
          (List.forall_mem_map.2 fun y hy =>
            balanced_encloseLexemes (hchildren y (List.mem_cons_of_mem x hy))),
        List.forall_mem_map] at hnesting
      obtain rfl | hq := List.mem_cons.1 hq
      · exact hnesting.1
      · exact hnesting.2 q hq
    cases q with
    | leaf c => simp [Rule.depth]
    | group combinator' children' =>
      rw [Rule.encloseLexemes, nesting_paren (balanced_lexemes (hchildren _ hq))] at hmember
      obtain ⟨m, rfl⟩ : ∃ m, n = m + 1 := Nat.exists_eq_add_one.2 (Nat.lt_of_succ_le hmember).pos
      exact ih _ hq (hchildren _ hq) (Nat.le_of_succ_le_succ hmember)

end Reading

end RuleFilter
