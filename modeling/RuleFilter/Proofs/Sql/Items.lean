import RuleFilter.Proofs.Sql.Fragment

/-! The tokens of tests, and that tests are read back from them. -/

namespace RuleFilter.Sql

namespace Test

def tokens : Test → List Token
  | .isNull false => [.keyword .is, .keyword .null]
  | .isNull true => [.keyword .is, .keyword .not, .keyword .null]
  | .compare relation v => [.sign relation, .value v]
  | .between low high => [.keyword .between, .value low, .keyword .and, .value high]
  | .among negated vs =>
    (if negated then [.keyword .not] else []) ++ .keyword .among :: .openParen ::
      ([Token.comma].intercalate (vs.map fun v => [.value v]) ++ [.closeParen])
  | .like pattern escape =>
    [.keyword .like, .value (.string pattern), .keyword .escape, .quoted [escape]]

/-- Whether a fragment can express the test, which it cannot where a list is empty. -/
def IsReadable : Test → Prop
  | .among _ vs => vs ≠ []
  | _ => True

theorem values?_tokens {vs : List Value} (h : vs ≠ []) (ts : List Token) :
    values? ([Token.comma].intercalate (vs.map fun v => [.value v]) ++ .closeParen :: ts) =
      some (vs, ts) := by
  induction vs with
  | nil => exact absurd rfl h
  | cons v vs ih =>
    cases vs with
    | nil => rfl
    | cons w ws =>
      have hws := ih (by simp)
      rw [List.map_cons] at hws
      rw [List.map_cons, List.map_cons, List.intercalate_cons_cons, List.append_assoc,
        List.append_assoc, List.singleton_append, List.singleton_append, values?, hws]
      rfl

theorem test?_tokens {t : Test} (h : t.IsReadable) (ts : List Token) :
    test? (t.tokens ++ ts) = some (t, ts) := by
  cases t with
  | isNull negated => cases negated <;> rfl
  | compare relation v => rfl
  | between low high => rfl
  | among negated vs =>
    have hvs := values?_tokens h ts
    cases negated <;> simp [tokens, test?, hvs]
  | like pattern escape => rfl

end Test

namespace Atom

def tokens : Atom → List Token
  | .equation m n => [.number m, .sign .eq, .number n]
  | .test reference t => .name reference :: t.tokens

def IsReadable : Atom → Prop
  | .equation _ _ => True
  | .test _ t => t.IsReadable

theorem atom?_tokens {a : Atom} (h : a.IsReadable) (ts : List Token) :
    atom? (a.tokens ++ ts) = some (a, ts) := by
  cases a with
  | equation m n => rfl
  | test reference t =>
    rw [tokens, List.cons_append, atom?, Test.test?_tokens h]
    rfl

end Atom

def Item.tokens : Item Atom → List Token
  | .atom a => a.tokens
  | .join .and => [.keyword .and]
  | .join .or => [.keyword .or]
  | .openParen => [.openParen]
  | .closeParen => [.closeParen]

theorem items_of_atom? {t : Token} {ts rest : List Token} {a : Atom}
    (ht : (∃ s, t = .name s) ∨ ∃ n, t = .number n) (h : atom? (t :: ts) = some (a, rest)) :
    items (t :: ts) = (items rest).map (.atom a :: ·) := by
  obtain ⟨s, rfl⟩ | ⟨n, rfl⟩ := ht
  all_goals
    rw [items]
    split
    · next he =>
      rw [h] at he
      cases he
      rfl
    · next he => simp [h] at he
    all_goals simp

theorem items_atom {a : Atom} (h : a.IsReadable) (ts : List Token) :
    items (a.tokens ++ ts) = (items ts).map (.atom a :: ·) := by
  have hatom := a.atom?_tokens h ts
  cases a with
  | equation m n => exact items_of_atom? (.inr ⟨m, rfl⟩) hatom
  | test reference t => exact items_of_atom? (.inl ⟨reference, rfl⟩) hatom

theorem items_tokens {is : List (Item Atom)} (h : ∀ a, .atom a ∈ is → a.IsReadable) :
    items (is.flatMap Item.tokens) = some is := by
  induction is with
  | nil => rw [List.flatMap_nil, items]
  | cons i is ih =>
    have his := ih fun a ha => h a (List.mem_cons_of_mem i ha)
    rw [List.flatMap_cons]
    cases i with
    | atom a =>
      rw [Item.tokens, items_atom (h a (List.mem_cons_self)), his]
      rfl
    | join k =>
      cases k <;> rw [Item.tokens, List.singleton_append, items, his] <;> rfl
    | openParen | closeParen =>
      rw [Item.tokens, List.singleton_append, items, his]
      rfl

end RuleFilter.Sql
