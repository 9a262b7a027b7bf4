import RuleFilter.Rule.Reading

/-!
What readers yield. Each way of putting readers together is described once, by what it yields and
where it fails in terms of what its parts yield and where they fail.
-/

namespace RuleFilter.Reading

/-- Reading yields the value and leaves the tokens after it. -/
def Outcome.Yields {α : Type} {ts : List Token} (x : Outcome α ts) (a : α) (rest : List Token) :
    Prop := ∃ h, x = .ok ⟨a, rest, h⟩

/-- The next token is a keyword. -/
def Begins (k : Keyword) (ts : List Token) : Prop := ∃ t ∈ ts.head?, t.lexeme.isKeyword k

@[simp] theorem not_begins_nil (k : Keyword) : ¬ Begins k [] := by simp [Begins]

@[simp] theorem begins_cons {k : Keyword} {t : Token} {ts : List Token} :
    Begins k (t :: ts) ↔ t.lexeme.isKeyword k := by simp [Begins]

section Combinators

variable {α β : Type} {ts rest : List Token} {x : Outcome α ts}

@[simp] theorem yields_ok {a b : α} {mid : List Token} {h : mid.length < ts.length} :
    Outcome.Yields (.ok ⟨a, mid, h⟩ : Outcome α ts) b rest ↔ a = b ∧ mid = rest := by
  constructor
  · intro h
    rcases h with ⟨h', he⟩
    cases he
    exact ⟨rfl, rfl⟩
  · intro h
    rcases h with ⟨rfl, rfl⟩
    exact ⟨h, rfl⟩

@[simp] theorem not_yields_error {e : Failure} {a : α} :
    ¬ Outcome.Yields (.error e : Outcome α ts) a rest := by
  rintro ⟨h, he⟩
  cases he

theorem yields_map_iff {f : α → β} {b : β} :
    (x.map f).Yields b rest ↔ ∃ a, x.Yields a rest ∧ f a = b := by
  match x with
  | .error e => simp [Outcome.map]
  | .ok ⟨a, mid, h⟩ =>
    simp only [Outcome.map, yields_ok]
    constructor
    · intro h
      rcases h with ⟨hb, hrest⟩
      exact ⟨a, ⟨rfl, hrest⟩, hb⟩
    · intro h
      rcases h with ⟨_, ⟨rfl, hrest⟩, hb⟩
      exact ⟨hb, hrest⟩

theorem yields_next_iff {f : α → (ts : List Token) → Outcome β ts} {b : β} :
    (x.next f).Yields b rest ↔ ∃ a mid, x.Yields a mid ∧ (f a mid).Yields b rest := by
  match x with
  | .error e => simp [Outcome.next]
  | .ok ⟨a, mid, h⟩ =>
    have hnext : Outcome.Yields (Outcome.next (.ok ⟨a, mid, h⟩) f) b rest ↔
        (f a mid).Yields b rest := by
      simp only [Outcome.next]
      split
      · next he => simp [he]
      · next he => simp [he]
    rw [hnext]
    constructor
    · intro hb
      exact ⟨a, mid, yields_ok.2 ⟨rfl, rfl⟩, hb⟩
    · intro h
      rcases h with ⟨a', mid', ha, hb⟩
      obtain ⟨rfl, rfl⟩ := yields_ok.1 ha
      exact hb

theorem yields_after_iff {t : Token} {a : α} : (x.after t).Yields a rest ↔ x.Yields a rest := by
  match x with
  | .error e => simp [Outcome.after]
  | .ok ⟨b, mid, h⟩ => simp [Outcome.after]

end Combinators

section Lists

variable {ts rest : List Token}

theorem yields_expect_iff {e : Expected} {u : Unit} :
    (expect e ts).Yields u rest ↔ ∃ t, ts = t :: rest ∧ e.admits t.lexeme := by
  cases ts with
  | nil => simp [expect]
  | cons t ts =>
    rw [expect]
    split
    · next h =>
      rw [yields_ok]
      constructor
      · intro h
        rcases h with ⟨-, rfl⟩
        exact ⟨t, rfl, h⟩
      · intro h
        rcases h with ⟨_, ht, -⟩
        cases ht
        exact ⟨rfl, rfl⟩
    · next h =>
      rw [iff_false_intro not_yields_error, false_iff]
      rintro ⟨_, ht, ha⟩
      cases ht
      exact h ha

theorem yields_value_iff {v : Value} :
    (value ts).Yields v rest ↔ ∃ t, ts = t :: rest ∧ t.lexeme.value? = some v := by
  cases ts with
  | nil => simp [value]
  | cons t ts =>
    rw [value]
    split
    · next u h =>
      rw [yields_ok]
      constructor
      · intro h
        rcases h with ⟨rfl, rfl⟩
        exact ⟨t, rfl, h⟩
      · intro h
        rcases h with ⟨_, ht, hv⟩
        cases ht
        exact ⟨Option.some.inj (h.symm.trans hv), rfl⟩
    · next h =>
      rw [iff_false_intro not_yields_error, false_iff]
      rintro ⟨_, ht, hv⟩
      cases ht
      simp [h] at hv

/-- The values of a list end at its bracket or go on after a comma. -/
theorem yields_items_iff {vs : List Value} : (items ts).Yields vs rest ↔
    ∃ v t mid, (value ts).Yields v (t :: mid) ∧
      (t.lexeme = .closeBracket ∧ vs = [v] ∧ mid = rest ∨
        t.lexeme = .comma ∧ ∃ vs', (items mid).Yields vs' rest ∧ vs = v :: vs') := by
  rw [items]
  split
  · next he => simp [he]
  · next he => simp [he]
  · next v t mid h he =>
    have hv {v' : Value} {t' : Token} {mid' : List Token} :
        (value ts).Yields v' (t' :: mid') ↔ v = v' ∧ t = t' ∧ mid = mid' := by simp [he]
    simp only [hv]
    split
    · next hl =>
      rw [yields_ok]
      constructor
      · intro h
        rcases h with ⟨rfl, rfl⟩
        exact ⟨v, t, mid, ⟨rfl, rfl, rfl⟩, .inl ⟨hl, rfl, rfl⟩⟩
      · intro h
        rcases h with ⟨_, _, _, ⟨rfl, rfl, rfl⟩, ⟨-, hvs, hrest⟩ | ⟨hl', -⟩⟩
        · exact ⟨hvs.symm, hrest⟩
        · simp [hl] at hl'
    · next hl =>
      split
      · next hi =>
        rw [iff_false_intro not_yields_error, false_iff]
        rintro ⟨_, _, _, ⟨rfl, rfl, rfl⟩, ⟨hl', -⟩ | ⟨-, _, hvs, -⟩⟩
        · simp [hl] at hl'
        · simp [hi] at hvs
      · next us rest' h' hi =>
        rw [yields_ok]
        constructor
        · intro h
          rcases h with ⟨rfl, rfl⟩
          exact ⟨v, t, mid, ⟨rfl, rfl, rfl⟩, .inr ⟨hl, us, ⟨h', hi⟩, rfl⟩⟩
        · intro h
          rcases h with ⟨_, _, _, ⟨rfl, rfl, rfl⟩, ⟨hl', -⟩ | ⟨-, _, hvs, rfl⟩⟩
          · simp [hl] at hl'
          · rw [hi, yields_ok] at hvs
            exact ⟨congrArg _ hvs.1, hvs.2⟩
    · next hclose hcomma =>
      rw [iff_false_intro not_yields_error, false_iff]
      rintro ⟨_, _, _, ⟨rfl, rfl, rfl⟩, ⟨hl, -⟩ | ⟨hl, -⟩⟩
      · exact hclose hl
      · exact hcomma hl

/-- A chain ends where its keyword does not follow. -/
theorem yields_chain_iff {k : Keyword} {read : (ts : List Token) → Outcome Rule ts}
    {rs : List Rule} : (chain k read ts).Yields rs rest ↔
    ∃ r mid, (read ts).Yields r mid ∧
      (¬ Begins k mid ∧ rs = [r] ∧ mid = rest ∨
        ∃ t mid' rs', mid = t :: mid' ∧ t.lexeme.isKeyword k ∧
          (chain k read mid').Yields rs' rest ∧ rs = r :: rs') := by
  rw [chain]
  split
  · next he => simp [he]
  · next r h he =>
    rw [yields_ok]
    constructor
    · intro h
      rcases h with ⟨rfl, rfl⟩
      exact ⟨r, [], ⟨h, he⟩, .inl ⟨not_begins_nil k, rfl, rfl⟩⟩
    · intro h
      rcases h with ⟨r', mid, hr, hend⟩
      obtain ⟨rfl, rfl⟩ := yields_ok.1 (he ▸ hr)
      obtain ⟨-, rfl, rfl⟩ | ⟨_, _, _, ht, -⟩ := hend
      · exact ⟨rfl, rfl⟩
      · cases ht
  · next r t mid h he =>
    have hr {r' : Rule} {mid' : List Token} :
        (read ts).Yields r' mid' ↔ r = r' ∧ t :: mid = mid' := by simp [he]
    simp only [hr]
    split
    · next hk =>
      split
      · next hc =>
        rw [iff_false_intro not_yields_error, false_iff]
        rintro ⟨_, _, ⟨rfl, rfl⟩, ⟨hend, -⟩ | ⟨_, _, _, ht, -, hrs, -⟩⟩
        · exact hend (begins_cons.2 hk)
        · cases ht
          simp [hc] at hrs
      · next ss rest' h' hc =>
        rw [yields_ok]
        constructor
        · intro h
          rcases h with ⟨rfl, rfl⟩
          exact ⟨r, _, ⟨rfl, rfl⟩, .inr ⟨t, mid, ss, rfl, hk, ⟨h', hc⟩, rfl⟩⟩
        · intro h
          rcases h with ⟨_, _, ⟨rfl, rfl⟩, ⟨hend, -⟩ | ⟨_, _, _, ht, -, hrs, rfl⟩⟩
          · exact absurd (begins_cons.2 hk) hend
          · cases ht
            rw [hc, yields_ok] at hrs
            exact ⟨congrArg _ hrs.1, hrs.2⟩
    · next hk =>
      rw [yields_ok]
      constructor
      · intro h
        rcases h with ⟨rfl, rfl⟩
        exact ⟨r, _, ⟨rfl, rfl⟩, .inl ⟨by simpa using hk, rfl, rfl⟩⟩
      · intro h
        rcases h with ⟨_, _, ⟨rfl, rfl⟩, ⟨-, hrs, hrest⟩ | ⟨_, _, _, ht, hk', -⟩⟩
        · exact ⟨hrs.symm, hrest⟩
        · cases ht
          exact absurd hk' hk

end Lists

section Errors

variable {α β : Type} {ts : List Token} {x : Outcome α ts} {e : Failure}

theorem map_eq_error_iff {f : α → β} : x.map f = .error e ↔ x = .error e := by
  match x with
  | .error e' => simp [Outcome.map]
  | .ok ⟨a, mid, h⟩ => simp [Outcome.map]

theorem after_eq_error_iff {t : Token} : x.after t = .error e ↔ x = .error e := by
  match x with
  | .error e' => simp [Outcome.after]
  | .ok ⟨a, mid, h⟩ => simp [Outcome.after]

theorem next_eq_error_iff {f : α → (ts : List Token) → Outcome β ts} :
    x.next f = .error e ↔ x = .error e ∨ ∃ a mid, x.Yields a mid ∧ f a mid = .error e := by
  match x with
  | .error e' => simp [Outcome.next]
  | .ok ⟨a, mid, h⟩ =>
    have hnext : Outcome.next (.ok ⟨a, mid, h⟩ : Outcome α ts) f = .error e ↔
        f a mid = .error e := by
      simp only [Outcome.next]
      split
      · next he => simp [he]
      · next he => simp [he]
    rw [hnext]
    constructor
    · intro hf
      exact .inr ⟨a, mid, yields_ok.2 ⟨rfl, rfl⟩, hf⟩
    · rintro (hx | ⟨a', mid', ha, hf⟩)
      · cases hx
      · obtain ⟨rfl, rfl⟩ := yields_ok.1 ha
        exact hf

/-- A list fails in a value or where neither a comma nor the bracket follows one. -/
theorem items_eq_error_iff : items ts = .error e ↔ value ts = .error e ∨
    ∃ v mid, (value ts).Yields v mid ∧
      ((∃ t mid', mid = t :: mid' ∧ t.lexeme = .comma ∧ items mid' = .error e) ∨
        mid.head?.map Token.lexeme ∉ [some .comma, some .closeBracket] ∧
          e = .unexpected .listSeparator mid.head?) := by
  rw [items]
  split
  · next he => simp [he]
  · next he =>
    simp only [he, yields_ok, and_assoc, exists_and_left, exists_eq_left']
    simp [eq_comm]
  · next v t mid h he =>
    simp only [he, yields_ok, and_assoc, exists_and_left, exists_eq_left']
    split
    · next hl => simp [hl]
    · next hl =>
      split
      · next hi => simp [hl, hi, and_assoc]
      · next hi => simp [hl, hi, and_assoc]
    · next hclose hcomma =>
      have hcomma' : t.lexeme ≠ .comma := hcomma
      have hclose' : t.lexeme ≠ .closeBracket := hclose
      simp [and_assoc, hcomma', hclose', @eq_comm _ e]

/-- A chain fails in its first member, or in the chain of the others after its keyword. -/
theorem chain_eq_error_iff {k : Keyword} {read : (ts : List Token) → Outcome Rule ts} :
    chain k read ts = .error e ↔ read ts = .error e ∨ ∃ r t mid, (read ts).Yields r (t :: mid) ∧
      t.lexeme.isKeyword k ∧ chain k read mid = .error e := by
  rw [chain]
  split
  · next he => simp [he]
  · next he => simp [he]
  · next r t mid h he =>
    have hyields {r' : Rule} {t' : Token} {mid' : List Token} :
        (read ts).Yields r' (t' :: mid') ↔ r = r' ∧ t = t' ∧ mid = mid' := by simp [he]
    simp only [hyields, and_assoc, exists_and_left, exists_eq_left']
    split
    · next hk =>
      split
      · next hc => simp [he, hk, hc]
      · next hc => simp [he, hk, hc]
    · next hk => simp [he, hk]

end Errors

end RuleFilter.Reading
