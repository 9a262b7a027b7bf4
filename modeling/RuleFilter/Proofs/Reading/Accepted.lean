import RuleFilter.Proofs.Reading.Derived

/-!
What is derived is read. Each reader yields what the grammar derives from lexemes, whatever follows
them; a chain needs that what follows does not go on with it. So a whole text is a rule just when
the grammar derives the rule from its lexemes and parentheses nest no deeper than they may.
-/

namespace RuleFilter.Reading

open Token Grammar

/-- Tokens with the lexemes are read as the value before all tokens that the condition admits. -/
def Reads {α : Type} (admits : List Token → Prop) (read : (ts : List Token) → Outcome α ts)
    (ls : List Lexeme) (a : α) : Prop :=
  ∀ ts rest, ts.map lexeme = ls → admits rest → (read (ts ++ rest)).Yields a rest

namespace Reads

variable {α β : Type} {admits admits' : List Token → Prop}
  {read : (ts : List Token) → Outcome α ts} {ls ms : List Lexeme} {a : α} {b : β}

theorem mono (h : Reads admits read ls a) (hadmits : ∀ ts, admits' ts → admits ts) :
    Reads admits' read ls a :=
  fun ts rest hts hrest => h ts rest hts (hadmits rest hrest)

theorem map (h : Reads admits read ls a) (f : α → β) :
    Reads admits (fun ts => (read ts).map f) ls (f a) :=
  fun ts rest hts hrest => yields_map_iff.2 ⟨a, h ts rest hts hrest, rfl⟩

theorem next {f : α → (ts : List Token) → Outcome β ts} (h : Reads admits' read ls a)
    (h' : Reads admits (f a) ms b)
    (hadmits : ∀ ts rest, ts.map lexeme = ms → admits rest → admits' (ts ++ rest)) :
    Reads admits (fun ts => (read ts).next f) (ls ++ ms) b := by
  intro ts rest hts hrest
  obtain ⟨us, vs, rfl, hus, hvs⟩ := List.map_eq_append_iff.1 hts
  rw [yields_next_iff, List.append_assoc]
  exact ⟨a, vs ++ rest, h us _ hus (hadmits vs rest hvs hrest), h' vs rest hvs hrest⟩

theorem after {l : Lexeme} {read' : (ts : List Token) → Outcome α ts} (h : Reads admits read ls a)
    (hread : ∀ t ts, t.lexeme = l → read' (t :: ts) = (read ts).after t) :
    Reads admits read' (l :: ls) a := by
  intro ts rest hts hrest
  obtain ⟨t, us, rfl, ht, hus⟩ := List.map_eq_cons_iff.1 hts
  rw [List.cons_append, hread t _ ht, yields_after_iff]
  exact h us rest hus hrest

end Reads

section Parts

variable {admits : List Token → Prop} {k : Keyword} {l w : Lexeme} {ls : List Lexeme}

theorem reads_mark : Reads admits (expect (.mark l)) [l] () := by
  intro ts rest hts _
  obtain ⟨t, rfl, ht⟩ := List.map_eq_singleton_iff.1 hts
  exact yields_mark_iff.2 ⟨t, rfl, ht⟩

theorem reads_keyword (h : IsWord k w) : Reads admits (expect (.keyword k)) [w] () := by
  intro ts rest hts _
  obtain ⟨t, rfl, rfl⟩ := List.map_eq_singleton_iff.1 hts
  exact yields_keyword_iff.2 ⟨t, rfl, h⟩

theorem reads_value {v : Value} (h : IsValue l v) : Reads admits value [l] v := by
  intro ts rest hts _
  obtain ⟨t, rfl, rfl⟩ := List.map_eq_singleton_iff.1 hts
  exact yields_isValue_iff.2 ⟨t, rfl, h⟩

theorem reads_items {vs : List Value} (h : IsValues ls vs) :
    Reads admits items (ls ++ [.closeBracket]) vs := by
  induction h with
  | @one l v hv =>
    intro ts rest hts _
    obtain ⟨t, us, rfl, rfl, hus⟩ := List.map_eq_cons_iff.1 hts
    obtain ⟨u, rfl, hu⟩ := List.map_eq_singleton_iff.1 hus
    exact yields_items_iff.2 ⟨v, u, rest, yields_isValue_iff.2 ⟨t, rfl, hv⟩, .inl ⟨hu, rfl, rfl⟩⟩
  | @more l v ls vs hv _ ih =>
    intro ts rest hts hrest
    obtain ⟨t, us, rfl, rfl, hus⟩ := List.map_eq_cons_iff.1 hts
    obtain ⟨u, ws, rfl, hu, hws⟩ := List.map_eq_cons_iff.1 hus
    exact yields_items_iff.2 ⟨v, u, ws ++ rest, yields_isValue_iff.2 ⟨t, rfl, hv⟩,
      .inr ⟨hu, vs, ih ws rest hws hrest, rfl⟩⟩

/-- A list of values begins with one, so its bracket does not close at once. -/
theorem exists_isValue_of_isValues {vs : List Value} (h : IsValues ls vs) :
    ∃ l ms v, ls = l :: ms ∧ IsValue l v := by
  cases h with
  | one hv => exact ⟨_, _, _, rfl, hv⟩
  | more hv _ => exact ⟨_, _, _, rfl, hv⟩

theorem reads_list {vs : List Value} (h : IsList ls vs) : Reads admits list ls vs := by
  have hopen : Reads (fun _ => True) (expect (.mark .openBracket)) [.openBracket] () := reads_mark
  cases h with
  | empty =>
    refine hopen.next (fun ts rest hts _ => ?_) fun _ _ _ _ => trivial
    obtain ⟨t, rfl, ht⟩ := List.map_eq_singleton_iff.1 hts
    simp [ht]
  | @values ls vs hvs =>
    refine hopen.next (fun ts rest hts hrest => ?_) fun _ _ _ _ => trivial
    have hitems := reads_items hvs ts rest hts hrest
    obtain ⟨l, ms, v, rfl, hv⟩ := exists_isValue_of_isValues hvs
    obtain ⟨t, us, rfl, rfl, -⟩ := List.map_eq_cons_iff.1 hts
    have ht : t.lexeme ≠ .closeBracket := by
      intro hclose
      rw [hclose] at hv
      cases hv <;> rename_i hw <;> cases hw
    simpa [ht] using hitems

theorem reads_single {op : Operator} {v : Value} (h : IsValue l v) :
    Reads admits (single op) [l] (op, .single v) :=
  (reads_value h).map _

theorem reads_listed {op : Operator} {vs : List Value} (h : IsList ls vs) :
    Reads admits (listed op) ls (op, .list vs) :=
  (reads_list h).map _

theorem Reads.after_word {α : Type} {read : (ts : List Token) → Outcome α ts} {a : α}
    (hw : IsWord k w) (h : Reads admits read ls a) :
    Reads admits (fun ts => (expect (.keyword k) ts).next fun _ ts => read ts) (w :: ls) a := by
  have hword : Reads (fun _ => True) (expect (.keyword k)) [w] () := reads_keyword hw
  exact hword.next h fun _ _ _ _ => trivial

theorem reads_range {h : Lexeme} {low high : Value} (hlow : IsValue l low) (hw : IsWord .and w)
    (hhigh : IsValue h high) : Reads admits range [l, w, h] (.between, .range low high) := by
  have hlow' : Reads (fun _ => True) value [l] low := reads_value hlow
  exact hlow'.next (.after_word hw ((reads_value hhigh).map _)) fun _ _ _ _ => trivial

theorem reads_nullTest_is (h : IsWord .null w) : Reads admits nullTest [w] (.isNull, .none) := by
  have hnull : Reads admits (expect (.keyword .null)) [w] () := reads_keyword h
  intro ts rest hts hrest
  have hread := hnull.map (fun _ => (Operator.isNull, Operand.none)) ts rest hts hrest
  obtain ⟨t, rfl, rfl⟩ := List.map_eq_singleton_iff.1 hts
  have hnot : t.lexeme.isKeyword .not = false := by
    rw [Bool.eq_false_iff]
    intro ht
    have := eq_of_isWord (isKeyword_iff.1 ht) h
    cases this
  simpa [nullTest, hnot] using hread

theorem reads_nullTest_isNot {t : Lexeme} (ht : IsWord .not t) (hw : IsWord .null w) :
    Reads admits nullTest [t, w] (.isNotNull, .none) := by
  have hnull : Reads admits (expect (.keyword .null)) [w] () := reads_keyword hw
  refine (hnull.map fun _ => (Operator.isNotNull, Operand.none)).after fun u us hu => ?_
  have hnot : u.lexeme.isKeyword .not = true := isKeyword_iff.2 (hu ▸ ht)
  simp [nullTest, hnot]

end Parts

section Comparisons

variable {admits : List Token → Prop} {ls : List Lexeme}

theorem Reads.test_of_word {k : Keyword} {w : Lexeme} {field : String} {x : Operator × Operand}
    {read : (ts : List Token) → Outcome (Operator × Operand) ts} (h : Reads admits read ls x)
    (hw : IsWord k w) (hread : afterWord k = some read) :
    Reads admits (test field) (w :: ls) x := by
  cases hw with
  | word hs =>
    exact h.after fun t ts ht => by simp [test, ht, Keyword.ofWord?_eq_some_iff.2 hs, hread]

theorem reads_test {field : String} {op : Operator} {v : Operand} (h : IsTest ls op v) :
    Reads admits (test field) ls (op, v) := by
  cases h with
  | compare op hv => exact (reads_single hv).after fun t ts ht => by simp [test, ht]
  | oneOf hw hvs => exact (reads_listed hvs).test_of_word hw rfl
  | noneOf hn hw hvs => exact (Reads.after_word hw (reads_listed hvs)).test_of_word hn rfl
  | contains hw hv | startsWith hw hv | endsWith hw hv =>
    exact (reads_single hv).test_of_word hw rfl
  | startsThenWith hs hw hv | endsThenWith hs hw hv =>
    exact (Reads.after_word hw (reads_single hv)).test_of_word hs rfl
  | between hb hlow ha hhigh => exact (reads_range hlow ha hhigh).test_of_word hb rfl
  | isNull hi hn => exact (reads_nullTest_is hn).test_of_word hi rfl
  | isNotNull hi ht hn => exact (reads_nullTest_isNot ht hn).test_of_word hi rfl

theorem reads_comparison {c : Comparison} (h : IsComparison ls c) :
    Reads admits comparison ls c := by
  cases h with
  | @test l ls field op v hfield htest =>
    have hread : Reads admits (fun ts => (test field ts).map fun x => ⟨field, x.1, x.2⟩) ls
        (⟨field, op, v⟩ : Comparison) := (reads_test htest).map _
    cases hfield with
    | word hs =>
      have hkeyword := Keyword.ofWord?_eq_none_iff.2 hs
      exact hread.after fun t ts ht => by simp [comparison, ht, hkeyword]

end Comparisons

section Phrases

/-- What follows does not go on with the phrase. -/
def Ends : Phrase → List Token → Prop
  | .term, _ => True
  | .chain .and, ts => ¬ Begins .and ts
  | .chain .or, ts => ¬ Begins .and ts ∧ ¬ Begins .or ts

theorem ends_chain_iff {k : Combinator} {ts : List Token} :
    Ends (.chain k) ts ↔ Ends (members k) ts ∧ ¬ Begins (joining k) ts := by
  cases k <;> simp [Ends, members, joining]

/-- The word between the members of a chain ends each of them. -/
theorem ends_of_joining {k : Combinator} {t : Token} (ts : List Token)
    (h : IsWord (joining k) t.lexeme) : Ends (members k) (t :: ts) := by
  cases k with
  | and => trivial
  | or =>
    rw [members, Ends, begins_cons]
    intro ht
    have := eq_of_isWord (isKeyword_iff.1 ht) h
    cases this

theorem ends_nil (ph : Phrase) : Ends ph [] := by
  cases ph with
  | term => trivial
  | chain k => cases k <;> simp [Ends]

theorem ends_closeParen {t : Token} (ts : List Token) (h : t.lexeme = .closeParen) :
    Ends (.chain .or) (t :: ts) := by
  simp [Ends, h, Lexeme.isKeyword]

theorem reads_chain {k : Keyword} {read : (ts : List Token) → Outcome Rule ts}
    {admits : List Token → Prop} {ls : List Lexeme} {r : Rule} {links : List Link}
    (hadmits : ∀ t ts, IsWord k t.lexeme → admits (t :: ts)) (h : Reads admits read ls r)
    (hwords : ∀ x ∈ links, IsWord k x.word)
    (hlinks : ∀ x ∈ links, Reads admits read x.lexemes x.rule) :
    Reads (fun ts => admits ts ∧ ¬ Begins k ts) (chain k read) (ls ++ links.flatMap Link.text)
      (r :: links.map Link.rule) := by
  induction links generalizing ls r with
  | nil =>
    intro ts rest hts ⟨hrest, hk⟩
    have hr := h ts rest (by simpa using hts) hrest
    exact yields_chain_iff.2 ⟨r, rest, hr, .inl ⟨hk, rfl, rfl⟩⟩
  | cons x links ih =>
    rw [List.forall_mem_cons] at hwords hlinks
    intro ts rest hts hrest
    obtain ⟨us, vs, rfl, hus, hvs⟩ := List.map_eq_append_iff.1 hts
    obtain ⟨t, ws, rfl, ht, hws⟩ := List.map_eq_cons_iff.1 hvs
    have hword : IsWord k t.lexeme := ht ▸ hwords.1
    have hr := h us (t :: ws ++ rest) hus (hadmits t _ hword)
    have hmore := ih hlinks.1 hwords.2 hlinks.2 ws rest hws hrest
    rw [List.append_assoc]
    exact yields_chain_iff.2
      ⟨r, _, hr, .inr ⟨t, ws ++ rest, _, rfl, isKeyword_iff.2 hword, hmore, rfl⟩⟩

theorem reads_phrase_chain {n : Nat} {k : Combinator} {ls : List Lexeme} {r : Rule}
    {links : List Link} (h : Reads (Ends (members k)) (phrase n (members k)) ls r)
    (hwords : ∀ x ∈ links, IsWord (joining k) x.word)
    (hlinks : ∀ x ∈ links, Reads (Ends (members k)) (phrase n (members k)) x.lexemes x.rule) :
    Reads (Ends (.chain k)) (phrase n (.chain k)) (ls ++ links.flatMap Link.text)
      (join k (r :: links.map Link.rule)) := by
  rw [phrase_chain]
  have hchain := reads_chain (fun t ts ht => ends_of_joining ts ht) h hwords hlinks
  exact (hchain.mono fun ts hts => ends_chain_iff.1 hts).map _

/-- What the grammar derives is read, with room for its parentheses. -/
theorem reads_phrase {n : Nat} {ph : Phrase} {ls : List Lexeme} {r : Rule} (h : Derives ph ls r)
    (hn : nesting 0 ls ≤ n) : Reads (Ends ph) (phrase n ph) ls r := by
  induction h generalizing n with
  | @comparison ls c hc =>
    have hread : Reads (Ends .term) (fun ts => (comparison ts).map Rule.leaf) ls (Rule.leaf c) :=
      (reads_comparison hc).map _
    intro ts rest hts hrest
    have hyields := hread ts rest hts hrest
    cases hc with
    | test hfield _ =>
      obtain ⟨t, us, rfl, ht, -⟩ := List.map_eq_cons_iff.1 hts
      have hopen : t.lexeme ≠ .openParen := by
        rw [ht]
        rintro rfl
        cases hfield
      simpa [phrase, member, hopen] using hyields
  | @paren ls r h ih =>
    rw [nesting_paren (balanced_of_derives h)] at hn
    obtain ⟨m, rfl⟩ : ∃ m, n = m + 1 := ⟨n - 1, by omega⟩
    have hclose : Reads (Ends .term) (expect (.mark .closeParen)) [.closeParen] () := reads_mark
    have hinside : Reads (Ends (.chain .or)) (rule m) ls r := by
      rw [rule_eq_phrase]
      exact ih (by omega)
    have hends : ∀ ts rest, ts.map lexeme = [.closeParen] → Ends .term rest →
        Ends (.chain .or) (ts ++ rest) := by
      intro ts rest hts _
      obtain ⟨t, rfl, ht⟩ := List.map_eq_singleton_iff.1 hts
      exact ends_closeParen rest ht
    have hread : Reads (Ends .term)
        (fun ts => (rule m ts).next fun r ts => (expect (.mark .closeParen) ts).map fun _ => r)
        (ls ++ [.closeParen]) r := hinside.next (hclose.map fun _ => r) hends
    exact hread.after fun t ts ht => by simp [phrase, member, inside, ht]
  | single k _ ih =>
    simpa [join] using @reads_phrase_chain n k _ _ [] (ih hn) (by simp) (by simp)
  | @group k ls r links hne h hwords hlinks ih ihs =>
    have hparts := (nesting_members_le_iff h hwords hlinks).1 hn
    have hread := reads_phrase_chain (ih hparts.1) hwords fun x hx => ihs x hx (hparts.2 x hx)
    obtain ⟨x, more, rfl⟩ := List.exists_cons_of_ne_nil hne
    exact hread

/-- The grammar is not ambiguous: what is derived is what is read, and reading is a function. -/
theorem derives_unique {ph : Phrase} {ls : List Lexeme} {r r' : Rule} (h : Derives ph ls r)
    (h' : Derives ph ls r') : r = r' := by
  have hread {q : Rule} (hq : Derives ph ls q) :
      (phrase (nesting 0 ls) ph (ls.map (⟨·, []⟩) ++ [])).Yields q [] :=
    reads_phrase hq (Nat.le_refl _) _ [] (by simp [Function.comp_def]) (ends_nil ph)
  obtain ⟨_, hr⟩ := hread h
  obtain ⟨_, hr'⟩ := hread h'
  cases hr.symm.trans hr'
  rfl

/-- A whole text is a rule just when the grammar derives it from the lexemes, and parentheses nest
no deeper than they may. -/
theorem wholeRule_eq_ok_iff {n : Nat} {ts : List Token} {r : Rule} :
    wholeRule n ts = .ok r ↔
      Derives (.chain .or) (ts.map lexeme) r ∧ nesting 0 (ts.map lexeme) ≤ n := by
  have hwhole : wholeRule n ts = .ok r ↔ (phrase n (.chain .or) ts).Yields r [] := by
    rw [wholeRule, rule_eq_phrase]
    constructor
    · intro h
      split at h
      · cases h
      · next heq =>
        cases h
        exact ⟨_, heq⟩
      · cases h
    · intro h
      obtain ⟨hlt, h⟩ := h
      rw [h]
  rw [hwhole]
  constructor
  · intro h
    obtain ⟨us, rfl, hus⟩ := takes_phrase n _ ts r [] h
    rwa [List.append_nil]
  · intro h
    have hread := reads_phrase h.1 h.2 ts [] rfl (ends_nil _)
    rwa [List.append_nil] at hread

end Phrases

end RuleFilter.Reading
