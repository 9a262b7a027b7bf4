import RuleFilter.Proofs.Reading.Accepted

/-!
Reading with more room for parentheses. It changes nothing but that reading stops at fewer of them,
so what the grammar derives is either read or refused for its depth.
-/

namespace RuleFilter.Reading

open Token Grammar

/-- The first reading is the second one, unless it stops at parentheses nested too deep. -/
def Shallower {α : Type} {ts : List Token} (x y : Outcome α ts) : Prop :=
  x = .error .tooDeep ∨ x = y

namespace Shallower

variable {α β : Type} {ts : List Token} {x y : Outcome α ts}

theorem refl (x : Outcome α ts) : Shallower x x := .inr rfl

theorem map (h : Shallower x y) (f : α → β) : Shallower (x.map f) (y.map f) := by
  obtain rfl | rfl := h
  · exact .inl rfl
  · exact refl _

theorem next {f g : α → (ts : List Token) → Outcome β ts} (h : Shallower x y)
    (hfg : ∀ a ts, Shallower (f a ts) (g a ts)) : Shallower (x.next f) (y.next g) := by
  obtain rfl | rfl := h
  · exact .inl rfl
  · match x with
    | .error e => exact refl _
    | .ok ⟨a, rest, h⟩ =>
      simp only [Outcome.next]
      obtain hf | hf := hfg a rest
      · rw [hf]
        exact .inl rfl
      · rw [hf]
        exact refl _

theorem after (h : Shallower x y) (t : Token) : Shallower (x.after t) (y.after t) := by
  obtain rfl | rfl := h
  · exact .inl rfl
  · exact refl _

end Shallower

/-- The first reader is the second one but for parentheses nested too deep. -/
def ShallowerReader (read read' : (ts : List Token) → Outcome Rule ts) : Prop :=
  ∀ ts, Shallower (read ts) (read' ts)

theorem shallower_chain {k : Keyword} {read read' : (ts : List Token) → Outcome Rule ts}
    (h : ShallowerReader read read') (ts : List Token) :
    Shallower (chain k read ts) (chain k read' ts) := by
  rw [chain, chain]
  obtain hts | hts := h ts
  · rw [hts]
    exact .inl rfl
  · rw [← hts]
    cases read ts with
    | error e => exact .refl _
    | ok found =>
      rcases found with ⟨r, _ | ⟨t, rest⟩, hlt⟩
      · exact .refl _
      · have hshorter : rest.length < ts.length := Nat.lt_of_succ_lt hlt
        obtain hrest | hrest := shallower_chain (k := k) h rest
        · simp only [hrest]
          split
          · exact .inl rfl
          · exact .refl _
        · simp only [hrest]
          exact .refl _
termination_by ts.length

theorem shallower_phrase_chain {m n : Nat} {k : Combinator}
    (h : ShallowerReader (phrase m (members k)) (phrase n (members k))) :
    ShallowerReader (phrase m (.chain k)) (phrase n (.chain k)) := by
  rw [phrase_chain, phrase_chain]
  exact fun ts => (shallower_chain h ts).map (join k)

/-- More room for parentheses changes a reading only where there was too little. -/
theorem shallower_phrase {m n : Nat} (h : m ≤ n) (ph : Phrase) :
    ShallowerReader (phrase m ph) (phrase n ph) := by
  induction m generalizing n ph with
  | zero =>
    induction ph using Phrase.induct with
    | chain k hk => exact shallower_phrase_chain hk
    | term =>
      intro ts
      cases ts with
      | nil => exact .refl _
      | cons t ts =>
        simp only [phrase, member, inside]
        split
        · exact .inl rfl
        · exact .refl _
  | succ m ih =>
    obtain ⟨n, rfl⟩ : ∃ n', n = n' + 1 := ⟨n - 1, by omega⟩
    induction ph using Phrase.induct with
    | chain k hk => exact shallower_phrase_chain hk
    | term =>
      intro ts
      cases ts with
      | nil => exact .refl _
      | cons t ts =>
        simp only [phrase, member, inside]
        split
        · refine Shallower.after (Shallower.next ?_ fun _ _ => .refl _) t
          rw [rule_eq_phrase, rule_eq_phrase]
          exact ih (Nat.le_of_succ_le_succ h) _ ts
        · exact .refl _

/-- What the grammar derives is read, or refused for its depth where parentheses nest too deep. -/
theorem wholeRule_of_derives {ts : List Token} {r : Rule}
    (h : Derives (.chain .or) (ts.map lexeme) r) (n : Nat) : wholeRule n ts =
      if nesting 0 (ts.map lexeme) ≤ n then .ok r else .error .tooDeep := by
  split
  · next hn => exact wholeRule_eq_ok_iff.2 ⟨h, hn⟩
  · next hn =>
    have hwhole := wholeRule_eq_ok_iff.2 ⟨h, Nat.le_refl _⟩
    have hrule := shallower_phrase (Nat.le_of_not_le hn) (.chain .or) ts
    rw [← rule_eq_phrase, ← rule_eq_phrase] at hrule
    obtain hrule | hrule := hrule
    · rw [wholeRule, hrule]
    · rw [wholeRule, ← hrule] at hwhole
      exact absurd (wholeRule_eq_ok_iff.1 hwhole).2 hn

end RuleFilter.Reading
