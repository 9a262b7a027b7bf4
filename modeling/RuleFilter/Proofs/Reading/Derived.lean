import RuleFilter.Proofs.Reading.Nesting
import RuleFilter.Proofs.Reading.Outcome

/-!
What is read is derived. Each reader takes tokens off the front whose lexemes the grammar derives as
the value that is read, with parentheses no deeper than the reader allows.
-/

namespace RuleFilter.Reading

open Token Grammar

/-- The reader takes only what the language has, and reads it as the language says. -/
def Takes {α : Type} (read : (ts : List Token) → Outcome α ts)
    (language : List Lexeme → α → Prop) : Prop :=
  ∀ ts a rest, (read ts).Yields a rest → ∃ us, ts = us ++ rest ∧ language (us.map lexeme) a

section Parts

theorem yields_isValue_iff {ts rest : List Token} {v : Value} :
    (value ts).Yields v rest ↔ ∃ t, ts = t :: rest ∧ IsValue t.lexeme v := by
  simp only [yields_value_iff, value?_eq_some_iff]

theorem yields_keyword_iff {ts rest : List Token} {k : Keyword} {u : Unit} :
    (expect (.keyword k) ts).Yields u rest ↔ ∃ t, ts = t :: rest ∧ IsWord k t.lexeme := by
  simp only [yields_expect_iff, Expected.admits, isKeyword_iff]

theorem yields_mark_iff {ts rest : List Token} {l : Lexeme} {u : Unit} :
    (expect (.mark l) ts).Yields u rest ↔ ∃ t, ts = t :: rest ∧ t.lexeme = l := by
  simp only [yields_expect_iff, Expected.admits, beq_iff_eq, @eq_comm _ l]

theorem takes_items :
    Takes items fun ls vs => ∃ ms, ls = ms ++ [.closeBracket] ∧ IsValues ms vs := by
  intro ts vs rest h
  induction vs generalizing ts with
  | nil =>
    obtain ⟨v, t, mid, -, ⟨-, hvs, -⟩ | ⟨-, vs', -, hvs⟩⟩ := yields_items_iff.1 h <;> cases hvs
  | cons v vs ih =>
    obtain ⟨w, t, mid, hw, hmore⟩ := yields_items_iff.1 h
    obtain ⟨u, rfl, hu⟩ := yields_isValue_iff.1 hw
    obtain ⟨ht, hvs, rfl⟩ | ⟨ht, vs', hvs', hvs⟩ := hmore
    · cases hvs
      exact ⟨[u, t], rfl, [u.lexeme], by simp [ht], .one hu⟩
    · cases hvs
      obtain ⟨us, rfl, ms, hms, hvalues⟩ := ih mid hvs'
      exact ⟨u :: t :: us, rfl, u.lexeme :: .comma :: ms, by simp [ht, hms], .more hu hvalues⟩

theorem takes_list : Takes list IsList := by
  intro ts vs rest h
  obtain ⟨_, mid, hopen, hmid⟩ := yields_next_iff.1 h
  obtain ⟨t, rfl, ht⟩ := yields_mark_iff.1 hopen
  have hitems {ts : List Token} (h : (items ts).Yields vs rest) :
      ∃ us, t :: ts = us ++ rest ∧ IsList (us.map lexeme) vs := by
    obtain ⟨us, rfl, ms, hms, hvalues⟩ := takes_items ts vs rest h
    refine ⟨t :: us, rfl, ?_⟩
    rw [List.map_cons, ht, hms]
    exact .values hvalues
  cases mid with
  | nil => exact hitems hmid
  | cons u mid =>
    dsimp only at hmid
    split at hmid
    · next hu =>
      obtain ⟨rfl, rfl⟩ := yields_ok.1 hmid
      refine ⟨[t, u], rfl, ?_⟩
      rw [List.map_cons, List.map_cons, ht, hu]
      exact .empty
    · exact hitems hmid

theorem takes_single (op : Operator) :
    Takes (single op) fun ls x => ∃ l v, ls = [l] ∧ IsValue l v ∧ x = (op, .single v) := by
  intro ts x rest h
  obtain ⟨v, hv, rfl⟩ := yields_map_iff.1 h
  obtain ⟨t, rfl, ht⟩ := yields_isValue_iff.1 hv
  exact ⟨[t], rfl, t.lexeme, v, rfl, ht, rfl⟩

theorem takes_listed (op : Operator) :
    Takes (listed op) fun ls x => ∃ vs, IsList ls vs ∧ x = (op, .list vs) := by
  intro ts x rest h
  obtain ⟨vs, hvs, rfl⟩ := yields_map_iff.1 h
  obtain ⟨us, rfl, hus⟩ := takes_list ts vs rest hvs
  exact ⟨us, rfl, vs, hus, rfl⟩

/-- The reader of what follows a word, where that word comes in front. -/
theorem Takes.after_word {α : Type} {k : Keyword} {read : (ts : List Token) → Outcome α ts}
    {language : List Lexeme → α → Prop} (h : Takes read language) :
    Takes (fun ts => (expect (.keyword k) ts).next fun _ ts => read ts)
      fun ls x => ∃ w ms, ls = w :: ms ∧ IsWord k w ∧ language ms x := by
  intro ts x rest hx
  obtain ⟨_, mid, hword, hmid⟩ := yields_next_iff.1 hx
  obtain ⟨t, rfl, ht⟩ := yields_keyword_iff.1 hword
  obtain ⟨us, rfl, hus⟩ := h mid x rest hmid
  exact ⟨t :: us, rfl, t.lexeme, us.map lexeme, rfl, ht, hus⟩

theorem takes_range : Takes range fun ls x => ∃ l a h low high, ls = [l, a, h] ∧ IsValue l low ∧
    IsWord .and a ∧ IsValue h high ∧ x = (.between, .range low high) := by
  intro ts x rest h
  obtain ⟨low, mid, hlow, hmid⟩ := yields_next_iff.1 h
  obtain ⟨_, mid', hand, hmid'⟩ := yields_next_iff.1 hmid
  obtain ⟨high, hhigh, rfl⟩ := yields_map_iff.1 hmid'
  obtain ⟨t, rfl, ht⟩ := yields_isValue_iff.1 hlow
  obtain ⟨a, rfl, ha⟩ := yields_keyword_iff.1 hand
  obtain ⟨u, rfl, hu⟩ := yields_isValue_iff.1 hhigh
  exact ⟨[t, a, u], rfl, _, _, _, low, high, rfl, ht, ha, hu, rfl⟩

theorem takes_nullTest : Takes nullTest fun ls x =>
    (∃ n, ls = [n] ∧ IsWord .null n ∧ x = (.isNull, .none)) ∨
      ∃ t n, ls = [t, n] ∧ IsWord .not t ∧ IsWord .null n ∧ x = (.isNotNull, .none) := by
  intro ts x rest h
  have hnull {ts : List Token} {y : Operator × Operand}
      (h : ((expect (.keyword .null) ts).map fun _ => y).Yields x rest) :
      ∃ n, ts = n :: rest ∧ IsWord .null n.lexeme ∧ x = y := by
    obtain ⟨_, hu, rfl⟩ := yields_map_iff.1 h
    obtain ⟨n, rfl, hn⟩ := yields_keyword_iff.1 hu
    exact ⟨n, rfl, hn, rfl⟩
  cases ts with
  | nil =>
    obtain ⟨n, hts, -⟩ := hnull (y := (.isNull, .none)) h
    cases hts
  | cons t ts =>
    rw [nullTest] at h
    split at h
    · next ht =>
      obtain ⟨n, rfl, hn, rfl⟩ := hnull (yields_after_iff.1 h)
      exact ⟨[t, n], rfl, .inr ⟨_, _, rfl, isKeyword_iff.1 ht, hn, rfl⟩⟩
    · obtain ⟨n, hts, hn, rfl⟩ := hnull h
      cases hts
      exact ⟨[t], rfl, .inl ⟨_, rfl, hn, rfl⟩⟩

end Parts

section Comparisons

/-- What follows a word completes a test that begins with the word. -/
theorem takes_afterWord {k : Keyword} {w : Lexeme} (hw : IsWord k w)
    {read : (ts : List Token) → Outcome (Operator × Operand) ts} (h : afterWord k = some read) :
    Takes read fun ls x => IsTest (w :: ls) x.1 x.2 := by
  intro ts x rest hx
  cases k with
  | among =>
    cases h
    obtain ⟨us, rfl, vs, hvs, rfl⟩ := takes_listed _ ts x rest hx
    exact ⟨us, rfl, .oneOf hw hvs⟩
  | not =>
    cases h
    obtain ⟨us, rfl, i, ms, hus, hi, vs, hvs, rfl⟩ := (takes_listed _).after_word ts x rest hx
    exact ⟨us, rfl, hus ▸ .noneOf hw hi hvs⟩
  | contains =>
    cases h
    obtain ⟨us, rfl, l, v, hus, hv, rfl⟩ := takes_single _ ts x rest hx
    exact ⟨us, rfl, hus ▸ .contains hw hv⟩
  | startsWith =>
    cases h
    obtain ⟨us, rfl, l, v, hus, hv, rfl⟩ := takes_single _ ts x rest hx
    exact ⟨us, rfl, hus ▸ .startsWith hw hv⟩
  | endsWith =>
    cases h
    obtain ⟨us, rfl, l, v, hus, hv, rfl⟩ := takes_single _ ts x rest hx
    exact ⟨us, rfl, hus ▸ .endsWith hw hv⟩
  | starts =>
    cases h
    obtain ⟨us, rfl, i, ms, hus, hi, l, v, rfl, hv, rfl⟩ := (takes_single _).after_word ts x rest hx
    exact ⟨us, rfl, hus ▸ .startsThenWith hw hi hv⟩
  | ends =>
    cases h
    obtain ⟨us, rfl, i, ms, hus, hi, l, v, rfl, hv, rfl⟩ := (takes_single _).after_word ts x rest hx
    exact ⟨us, rfl, hus ▸ .endsThenWith hw hi hv⟩
  | between =>
    cases h
    obtain ⟨us, rfl, l, a, u, low, high, hus, hlow, ha, hhigh, rfl⟩ := takes_range ts x rest hx
    exact ⟨us, rfl, hus ▸ .between hw hlow ha hhigh⟩
  | is =>
    cases h
    obtain ⟨us, rfl, ⟨n, hus, hn, rfl⟩ | ⟨t, n, hus, ht, hn, rfl⟩⟩ := takes_nullTest ts x rest hx
    · exact ⟨us, rfl, hus ▸ .isNull hw hn⟩
    · exact ⟨us, rfl, hus ▸ .isNotNull hw ht hn⟩
  | and | or | null | true | false | «with» => cases h

theorem takes_test (field : String) : Takes (test field) fun ls x => IsTest ls x.1 x.2 := by
  intro ts x rest h
  cases ts with
  | nil => exact absurd h not_yields_error
  | cons t ts =>
    rw [test] at h
    split at h
    · next op ht =>
      obtain ⟨us, rfl, l, v, hus, hv, rfl⟩ := takes_single op ts x rest (yields_after_iff.1 h)
      refine ⟨t :: us, rfl, ?_⟩
      rw [List.map_cons, ht, hus]
      exact .compare op hv
    · next s ht =>
      split at h
      · next read hread =>
        obtain ⟨k, hk, hread⟩ := Option.bind_eq_some_iff.1 hread
        have hw : IsWord k t.lexeme := ht ▸ isWord_word_iff.2 hk
        obtain ⟨us, rfl, hus⟩ := takes_afterWord hw hread ts x rest (yields_after_iff.1 h)
        exact ⟨t :: us, rfl, hus⟩
      · exact absurd h not_yields_error
    · exact absurd h not_yields_error

theorem takes_comparison : Takes comparison IsComparison := by
  intro ts c rest h
  cases ts with
  | nil => exact absurd h not_yields_error
  | cons t ts =>
    rw [comparison] at h
    split at h
    · next s ht =>
      split at h
      · exact absurd h not_yields_error
      · next hs =>
        obtain ⟨x, hx, rfl⟩ := yields_map_iff.1 (yields_after_iff.1 h)
        obtain ⟨us, rfl, hus⟩ := takes_test s ts x rest hx
        have hfield : IsField t.lexeme s := by
          rw [ht, isField_word_iff]
          exact ⟨rfl, by simpa using hs⟩
        exact ⟨t :: us, rfl, .test hfield hus⟩
    · exact absurd h not_yields_error

end Comparisons

section Phrases

/-- The reader of a rule in parentheses, where `n` levels of them are allowed. -/
def inside : Nat → Option ((ts : List Token) → Outcome Rule ts)
  | 0 => none
  | n + 1 => some (rule n)

/-- The reader of a phrase in which parentheses nest no deeper than `n`. -/
def phrase (n : Nat) : Phrase → (ts : List Token) → Outcome Rule ts
  | .term => member (inside n)
  | .chain .and => conjunction (inside n)
  | .chain .or => disjunction (inside n)

theorem rule_eq_phrase (n : Nat) : rule n = phrase n (.chain .or) := by cases n <;> rfl

theorem phrase_chain (n : Nat) (k : Combinator) : phrase n (.chain k) =
    fun ts => (chain (joining k) (phrase n (members k)) ts).map (join k) := by cases k <;> rfl

/-- By the levels of parentheses and on each of them from terms to chains. -/
@[elab_as_elim]
theorem phrase_induct {P : Nat → Phrase → Prop}
    (hterm : ∀ n, (∀ m, n = m + 1 → P m (.chain .or)) → P n .term)
    (hchain : ∀ n k, P n (members k) → P n (.chain k)) (n : Nat) (ph : Phrase) : P n ph := by
  induction n generalizing ph with
  | zero => exact ph.induct (hterm 0 fun m hm => by cases hm) (hchain 0)
  | succ n ih =>
    refine ph.induct (hterm (n + 1) fun m hm => ?_) (hchain (n + 1))
    obtain rfl := Nat.succ.inj hm
    exact ih _

/-- Members that a language has, each but the first one with a keyword in front. -/
def Chained (k : Keyword) (language : List Lexeme → Rule → Prop) (ls : List Lexeme)
    (rs : List Rule) : Prop :=
  ∃ (ms : List Lexeme) (r : Rule) (links : List Link),
    ls = ms ++ links.flatMap Link.text ∧ rs = r :: links.map Link.rule ∧ language ms r ∧
      (∀ x ∈ links, IsWord k x.word) ∧ ∀ x ∈ links, language x.lexemes x.rule

theorem takes_chain {k : Keyword} {read : (ts : List Token) → Outcome Rule ts}
    {language : List Lexeme → Rule → Prop} (h : Takes read language) :
    Takes (chain k read) (Chained k language) := by
  intro ts rs rest hrs
  induction rs generalizing ts with
  | nil =>
    obtain ⟨r, mid, -, ⟨-, hrs, -⟩ | ⟨t, mid', rs', -, -, -, hrs⟩⟩ := yields_chain_iff.1 hrs <;>
      cases hrs
  | cons r rs ih =>
    obtain ⟨r', mid, hr, hmore⟩ := yields_chain_iff.1 hrs
    obtain ⟨us, rfl, hus⟩ := h ts r' mid hr
    obtain ⟨-, heq, rfl⟩ | ⟨t, mid', rs', rfl, ht, hrs', heq⟩ := hmore
    · obtain ⟨rfl, rfl⟩ := List.cons.inj heq
      exact ⟨us, rfl, us.map lexeme, r, [], by simp, rfl, hus, by simp, by simp⟩
    · cases heq
      obtain ⟨vs, rfl, ms, q, links, hvs, rfl, hq, hwords, hlinks⟩ := ih mid' hrs'
      refine ⟨us ++ t :: vs, by simp, us.map lexeme, r, ⟨t.lexeme, ms, q⟩ :: links, ?_, rfl, hus,
        List.forall_mem_cons.2 ⟨isKeyword_iff.1 ht, hwords⟩, List.forall_mem_cons.2 ⟨hq, hlinks⟩⟩
      simp [hvs, Link.text]

/-- What the grammar derives as a phrase with parentheses no deeper than `n`. -/
def DerivesWithin (n : Nat) (ph : Phrase) (ls : List Lexeme) (r : Rule) : Prop :=
  Derives ph ls r ∧ nesting 0 ls ≤ n

theorem derivesWithin_comparison {n : Nat} {ls : List Lexeme} {c : Comparison}
    (h : IsComparison ls c) : DerivesWithin n .term ls (.leaf c) := by
  refine ⟨.comparison h, ?_⟩
  rw [(balanced_of_plain (isParen_of_isComparison h)).2]
  exact Nat.zero_le n

theorem derivesWithin_paren {n : Nat} {ls : List Lexeme} {r : Rule}
    (h : DerivesWithin n (.chain .or) ls r) :
    DerivesWithin (n + 1) .term (.openParen :: (ls ++ [.closeParen])) r := by
  refine ⟨.paren h.1, ?_⟩
  rw [nesting_paren (balanced_of_derives h.1)]
  exact Nat.succ_le_succ h.2

theorem derives_join {k : Combinator} {ls : List Lexeme} {r : Rule} {links : List Link}
    (h : Derives (members k) ls r) (hwords : ∀ x ∈ links, IsWord (joining k) x.word)
    (hlinks : ∀ x ∈ links, Derives (members k) x.lexemes x.rule) :
    Derives (.chain k) (ls ++ links.flatMap Link.text) (join k (r :: links.map Link.rule)) := by
  cases links with
  | nil => simpa [join] using Derives.single k h
  | cons x links => exact .group k (by simp) h hwords hlinks

theorem derivesWithin_join {n : Nat} {k : Combinator} {ls : List Lexeme} {r : Rule}
    {links : List Link} (h : DerivesWithin n (members k) ls r)
    (hwords : ∀ x ∈ links, IsWord (joining k) x.word)
    (hlinks : ∀ x ∈ links, DerivesWithin n (members k) x.lexemes x.rule) :
    DerivesWithin n (.chain k) (ls ++ links.flatMap Link.text)
      (join k (r :: links.map Link.rule)) := by
  constructor
  · exact derives_join h.1 hwords fun x hx => (hlinks x hx).1
  · rw [nesting_members_le_iff h.1 hwords fun x hx => (hlinks x hx).1]
    exact ⟨h.2, fun x hx => (hlinks x hx).2⟩

theorem takes_phrase_chain {n : Nat} {k : Combinator}
    (h : Takes (phrase n (members k)) (DerivesWithin n (members k))) :
    Takes (phrase n (.chain k)) (DerivesWithin n (.chain k)) := by
  intro ts r rest hr
  rw [phrase_chain] at hr
  obtain ⟨rs, hrs, rfl⟩ := yields_map_iff.1 hr
  obtain ⟨us, rfl, ms, q, links, hus, rfl, hq, hwords, hlinks⟩ := takes_chain h ts rs rest hrs
  exact ⟨us, rfl, hus ▸ derivesWithin_join hq hwords hlinks⟩

theorem takes_phrase_term {n : Nat}
    (h : ∀ m, n = m + 1 → Takes (phrase m (.chain .or)) (DerivesWithin m (.chain .or))) :
    Takes (phrase n .term) (DerivesWithin n .term) := by
  have hleaf {ts rest : List Token} {r : Rule} (h : ((comparison ts).map .leaf).Yields r rest) :
      ∃ us, ts = us ++ rest ∧ DerivesWithin n .term (us.map lexeme) r := by
    obtain ⟨c, hc, rfl⟩ := yields_map_iff.1 h
    obtain ⟨us, rfl, hus⟩ := takes_comparison ts c rest hc
    exact ⟨us, rfl, derivesWithin_comparison hus⟩
  intro ts r rest hr
  cases ts with
  | nil => exact hleaf hr
  | cons t ts =>
    simp only [phrase, member] at hr
    split at hr
    · next ht =>
      cases n with
      | zero => exact absurd hr not_yields_error
      | succ m =>
        obtain ⟨q, mid, hq, hclose⟩ := yields_next_iff.1 (yields_after_iff.1 hr)
        obtain ⟨_, hmark, rfl⟩ := yields_map_iff.1 hclose
        obtain ⟨u, rfl, hu⟩ := yields_mark_iff.1 hmark
        obtain ⟨us, rfl, hus⟩ := h m rfl ts q _ (rule_eq_phrase m ▸ hq)
        refine ⟨t :: (us ++ [u]), by simp, ?_⟩
        rw [List.map_cons, List.map_append, List.map_singleton, ht, hu]
        exact derivesWithin_paren hus
    · exact hleaf hr

theorem takes_phrase (n : Nat) (ph : Phrase) : Takes (phrase n ph) (DerivesWithin n ph) :=
  phrase_induct (fun _ => takes_phrase_term) (fun _ _ => takes_phrase_chain) n ph

end Phrases

end RuleFilter.Reading
