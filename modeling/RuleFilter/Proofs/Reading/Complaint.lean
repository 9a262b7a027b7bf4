import RuleFilter.Proofs.Reading.Fault

/-!
What each reader complains about. Every reader of the grammar complains about the first token that
nothing in its language goes on with, from the values of a list up to a whole text.
-/

namespace RuleFilter.Reading

open Token Grammar

variable {α : Type} {n : Nat}

section Parts

/-- The bracket ends a list after any of its values, and the comma goes on with it. -/
theorem complains_items :
    Complains n items fun ls vs => ∃ ms, ls = ms ++ [.closeBracket] ∧ IsValues ms vs := by
  intro ts e he
  have hclose {l : Lexeme} {v : Value} (hl : IsValue l v) :
      Completable (fun ls vs => ∃ ms, ls = ms ++ [.closeBracket] ∧ IsValues ms vs) [l] :=
    ⟨[.closeBracket], [v], @spellable_mark ']' _ rfl, [l], rfl, .one hl⟩
  obtain hvalue | ⟨v, mid, hv, ⟨t, mid', rfl, ht, hmore⟩ | ⟨hmid, rfl⟩⟩ := items_eq_error_iff.1 he
  · refine (complains_value ts e hvalue).imp
      (fun _ _ _ he => items_eq_error_iff.2 (.inl he)) ?_
    rintro ls v ⟨l, rfl, hl⟩
    exact hclose hl
  · have hsep : (closed (.mark .comma) value ts).Yields v mid' :=
      yields_closed_iff.2 ⟨t, hv, by simp [Expected.admits, ht]⟩
    have hshorter : mid'.length < ts.length := hsep.1
    refine (complains_items mid' e hmore).append (steady_closed _ steady_value) hsep ?_ ?_
    · intro ts mid e hmid _ he
      obtain ⟨t, hv, ht⟩ := yields_closed_iff.1 hmid
      have ht' : .comma = t.lexeme := by simpa [Expected.admits] using ht
      exact items_eq_error_iff.2 (.inr ⟨_, _, hv, .inl ⟨t, mid, rfl, ht'.symm, he⟩⟩)
    · rintro _ _ vs ⟨_, l, rfl, ⟨u, rfl, hu⟩, hl⟩ ⟨ms, rfl, hms⟩
      obtain rfl : .comma = l := by simpa [Expected.admits] using hl
      exact .of_language ⟨u :: .comma :: ms, by simp, .more hu hms⟩
  · obtain ⟨vs, rfl, ⟨l, hvs, hl⟩, hsame⟩ := steady_value ts v mid hv
    refine .inr ⟨vs, mid, _, rfl, rfl, hvs ▸ hclose hl, fun vs' rest' hvs' => ?_⟩
    exact items_eq_error_iff.2
      (.inr ⟨v, rest', hsame _ _ hvs', .inr ⟨hvs'.next ▸ hmid, rfl⟩⟩)
termination_by ts => ts.length

theorem list_eq_error_iff {ts : List Token} {e : Failure} : list ts = .error e ↔
    expect (.mark .openBracket) ts = .error e ∨
      ∃ t mid, ts = t :: mid ∧ t.lexeme = .openBracket ∧
        mid.head?.map lexeme ≠ some .closeBracket ∧ items mid = .error e := by
  rw [list, next_eq_error_iff]
  refine or_congr_right ?_
  constructor
  · intro h
    rcases h with ⟨u, mid, hopen, hmid⟩
    obtain ⟨t, rfl, ht⟩ := yields_mark_iff.1 hopen
    refine ⟨t, mid, rfl, ht, ?_⟩
    cases mid with
    | nil => simpa using hmid
    | cons t mid =>
      by_cases ht : t.lexeme = .closeBracket
      · simp [ht] at hmid
      · simpa [ht] using hmid
  · intro h
    rcases h with ⟨t, mid, rfl, ht, hclose, hmid⟩
    refine ⟨(), mid, yields_mark_iff.2 ⟨t, rfl, ht⟩, ?_⟩
    cases mid with
    | nil => exact hmid
    | cons t mid =>
      have ht : t.lexeme ≠ .closeBracket := by simpa using hclose
      simpa [ht] using hmid

theorem complains_list : Complains n list IsList := by
  intro ts e he
  have hopening := @complains_expect n (.mark .openBracket) _ (@spellable_mark '[' _ rfl) rfl
  obtain hopen | ⟨t, mid, rfl, ht, hmid, hmore⟩ := list_eq_error_iff.1 he
  · refine (hopening ts e hopen).imp (fun _ _ _ he => list_eq_error_iff.2 (.inl he)) ?_
    rintro ls _ ⟨l, rfl, hl⟩
    obtain rfl : .openBracket = l := by simpa [Expected.admits] using hl
    exact ⟨[.closeBracket], [], @spellable_mark ']' _ rfl, .empty⟩
  · refine (complains_items mid e hmore).cons (fun t' mid' e ht' hhead he => ?_) ?_
    · exact list_eq_error_iff.2 (.inr ⟨t', mid', rfl, ht'.trans ht, hhead ▸ hmid, he⟩)
    · rintro _ vs ⟨ms, rfl, hms⟩
      rw [ht]
      exact .of_language (.values hms)

theorem complains_single (op : Operator) : Complains n (single op)
    fun ls x => ∃ l v, ls = [l] ∧ IsValue l v ∧ x = (op, .single v) :=
  complains_value.map _ fun _ v ⟨l, hls, hl⟩ => ⟨l, v, hls, hl, rfl⟩

theorem complains_listed (op : Operator) : Complains n (listed op)
    fun ls x => ∃ vs, IsList ls vs ∧ x = (op, .list vs) :=
  complains_list.map _ fun _ vs hls => ⟨vs, hls, rfl⟩

/-- The reader of what follows a word, where that word comes in front. -/
theorem Complains.after_word {k : Keyword} {read : (ts : List Token) → Outcome α ts}
    {language : List Lexeme → α → Prop} (h : Complains n read language)
    (hlanguage : Completable language []) :
    Complains n (fun ts => (expect (.keyword k) ts).next fun _ ts => read ts)
      fun ls x => ∃ w ms, ls = w :: ms ∧ IsWord k w ∧ language ms x := by
  have hword : Complains n (expect (.keyword k)) _ :=
    complains_expect (spellable_keyword k) (isKeyword_iff.2 (isWord_text k))
  refine hword.next (steady_expect _) (fun _ => h) (fun _ => hlanguage) ?_
  rintro _ ms _ x ⟨w, rfl, hw⟩ hms
  exact ⟨w, ms, rfl, isKeyword_iff.1 hw, hms⟩

theorem Completable.after_word {k : Keyword} {language : List Lexeme → α → Prop}
    (h : Completable language []) :
    Completable (fun ls x => ∃ w ms, ls = w :: ms ∧ IsWord k w ∧ language ms x) [] := by
  obtain ⟨ms, a, hms, ha⟩ := h
  exact ⟨.word k.text :: ms, a, (spellable_keyword k).append hms, _, ms, rfl, isWord_text k, ha⟩

theorem completable_single (op : Operator) :
    Completable (fun ls x => ∃ l v, ls = [l] ∧ IsValue l v ∧ x = (op, Operand.single v)) [] :=
  completable_value.imp [] fun _ v ⟨l, hls, hl⟩ => .of_language ⟨l, v, hls, hl, rfl⟩

theorem completable_listed (op : Operator) :
    Completable (fun ls x => ∃ vs, IsList ls vs ∧ x = (op, Operand.list vs)) [] :=
  ⟨[.openBracket, .closeBracket], _,
    (@spellable_mark '[' _ rfl).append (@spellable_mark ']' _ rfl), [], .empty, rfl⟩

theorem complains_range : Complains n range fun ls x => ∃ l a h low high, ls = [l, a, h] ∧
    IsValue l low ∧ IsWord .and a ∧ IsValue h high ∧ x = (.between, .range low high) := by
  have hhigh (low : Value) : Complains n
      (fun ts => (value ts).map fun high => (Operator.between, Operand.range low high))
      fun ls x => ∃ h high, ls = [h] ∧ IsValue h high ∧ x = (.between, .range low high) :=
    complains_value.map _ fun _ high ⟨h, hls, hh⟩ => ⟨h, high, hls, hh, rfl⟩
  have hcompletable (low : Value) : Completable (fun ls x => ∃ h high, ls = [h] ∧
      IsValue h high ∧ x = (Operator.between, Operand.range low high)) [] :=
    completable_value.imp [] fun _ high ⟨h, hls, hh⟩ => .of_language ⟨h, high, hls, hh, rfl⟩
  refine complains_value.next steady_value (fun low => (hhigh low).after_word (hcompletable low))
    (fun low => (hcompletable low).after_word) ?_
  rintro _ _ low x ⟨l, rfl, hl⟩ ⟨a, _, rfl, ha, h, high, rfl, hh, rfl⟩
  exact ⟨l, a, h, low, high, rfl, hl, ha, hh, rfl⟩

theorem nullTest_eq_error_iff {ts : List Token} {e : Failure} : nullTest ts = .error e ↔
    (∃ t mid, ts = t :: mid ∧ t.lexeme.isKeyword .not ∧ expect (.keyword .null) mid = .error e) ∨
      ¬ Begins .not ts ∧ expect (.keyword .null) ts = .error e := by
  cases ts with
  | nil => simp [nullTest, map_eq_error_iff]
  | cons t ts =>
    rw [nullTest]
    split
    · next ht => simp [ht, after_eq_error_iff, map_eq_error_iff]
    · next ht => simp [ht, map_eq_error_iff]

theorem complains_nullTest : Complains n nullTest fun ls x =>
    (∃ n, ls = [n] ∧ IsWord .null n ∧ x = (.isNull, .none)) ∨
      ∃ t n, ls = [t, n] ∧ IsWord .not t ∧ IsWord .null n ∧ x = (.isNotNull, .none) := by
  have hnull : Complains n (expect (.keyword .null)) _ :=
    complains_expect (spellable_keyword .null) (isKeyword_iff.2 (isWord_text .null))
  intro ts e he
  obtain ⟨t, mid, rfl, ht, hmid⟩ | ⟨hbegins, he⟩ := nullTest_eq_error_iff.1 he
  · refine (hnull mid e hmid).cons (fun t' mid' e ht' _ he => ?_) ?_
    · exact nullTest_eq_error_iff.2 (.inl ⟨t', mid', rfl, ht' ▸ ht, he⟩)
    · rintro _ _ ⟨m, rfl, hm⟩
      exact .of_language (.inr ⟨t.lexeme, m, rfl, isKeyword_iff.1 ht, isKeyword_iff.1 hm, rfl⟩)
  · refine (hnull ts e he).imp (fun ts' e hhead he => ?_) ?_
    · rw [begins_iff, ← hhead, ← begins_iff] at hbegins
      exact nullTest_eq_error_iff.2 (.inr ⟨hbegins, he⟩)
    · rintro _ _ ⟨m, rfl, hm⟩
      exact .of_language (.inl ⟨m, rfl, isKeyword_iff.1 hm, rfl⟩)

end Parts

section Comparisons

/-- The reader after a word complains where no test goes on that begins with the word. -/
theorem complains_afterWord {k : Keyword} {w : Lexeme} (hw : IsWord k w)
    {read : (ts : List Token) → Outcome (Operator × Operand) ts} (h : afterWord k = some read) :
    Complains n read fun ls x => IsTest (w :: ls) x.1 x.2 := by
  cases k with
  | among =>
    cases h
    refine (complains_listed _).mono ?_
    rintro ls _ ⟨vs, hvs, rfl⟩
    exact .oneOf hw hvs
  | not =>
    cases h
    refine ((complains_listed _).after_word (completable_listed _)).mono ?_
    rintro _ _ ⟨i, ls, rfl, hi, vs, hvs, rfl⟩
    exact .noneOf hw hi hvs
  | contains =>
    cases h
    refine (complains_single _).mono ?_
    rintro _ _ ⟨l, v, rfl, hl, rfl⟩
    exact .contains hw hl
  | startsWith =>
    cases h
    refine (complains_single _).mono ?_
    rintro _ _ ⟨l, v, rfl, hl, rfl⟩
    exact .startsWith hw hl
  | endsWith =>
    cases h
    refine (complains_single _).mono ?_
    rintro _ _ ⟨l, v, rfl, hl, rfl⟩
    exact .endsWith hw hl
  | starts =>
    cases h
    refine ((complains_single _).after_word (completable_single _)).mono ?_
    rintro _ _ ⟨i, _, rfl, hi, l, v, rfl, hl, rfl⟩
    exact .startsThenWith hw hi hl
  | ends =>
    cases h
    refine ((complains_single _).after_word (completable_single _)).mono ?_
    rintro _ _ ⟨i, _, rfl, hi, l, v, rfl, hl, rfl⟩
    exact .endsThenWith hw hi hl
  | between =>
    cases h
    refine complains_range.mono ?_
    rintro _ _ ⟨l, a, u, low, high, rfl, hlow, ha, hhigh, rfl⟩
    exact .between hw hlow ha hhigh
  | is =>
    cases h
    refine complains_nullTest.mono ?_
    rintro _ _ (⟨m, rfl, hm, rfl⟩ | ⟨t, m, rfl, ht, hm, rfl⟩)
    · exact .isNull hw hm
    · exact .isNotNull hw ht hm
  | and | or | null | true | false | «with» => cases h

/-- The reader of a test after its first lexeme. -/
def afterLexeme : Lexeme → Option ((ts : List Token) → Outcome (Operator × Operand) ts)
  | .compare op => some (single op)
  | .word s => (Keyword.ofWord? s).bind afterWord
  | _ => none

theorem complains_afterLexeme {l : Lexeme}
    {read : (ts : List Token) → Outcome (Operator × Operand) ts} (h : afterLexeme l = some read) :
    Complains n read fun ls x => IsTest (l :: ls) x.1 x.2 := by
  cases l with
  | compare op =>
    cases h
    refine (complains_single op).mono ?_
    rintro _ _ ⟨l, v, rfl, hl, rfl⟩
    exact .compare op hl
  | word s =>
    obtain ⟨k, hk, hread⟩ := Option.bind_eq_some_iff.1 h
    exact complains_afterWord (isWord_word_iff.2 hk) hread
  | _ => cases h

theorem test_eq_error_iff {field : String} {ts : List Token} {e : Failure} :
    test field ts = .error e ↔
      (∃ t mid read, ts = t :: mid ∧ afterLexeme t.lexeme = some read ∧ read mid = .error e) ∨
        (∀ l ∈ ts.head?.map lexeme, afterLexeme l = none) ∧
          e = .unexpected (.operator field) ts.head? := by
  cases ts with
  | nil => simp [test, @eq_comm _ e]
  | cons t ts =>
    have htest : test field (t :: ts) = (afterLexeme t.lexeme).elim
        (.error (.unexpected (.operator field) (some t))) fun read => (read ts).after t := by
      rw [test]
      cases t.lexeme with
      | word s =>
        dsimp only [afterLexeme]
        cases (Keyword.ofWord? s).bind afterWord <;> rfl
      | _ => rfl
    rw [htest]
    cases hread : afterLexeme t.lexeme with
    | none => simp [hread, @eq_comm _ e]
    | some read => simp [hread, after_eq_error_iff]

theorem completable_test : Completable (fun ls (x : Operator × Operand) => IsTest ls x.1 x.2) [] :=
  ⟨_, (.isNull, .none), (spellable_keyword .is).append (spellable_keyword .null),
    .isNull (isWord_text .is) (isWord_text .null)⟩

theorem complains_test (field : String) :
    Complains n (test field) fun ls x => IsTest ls x.1 x.2 := by
  intro ts e he
  obtain ⟨t, mid, read, rfl, hread, hmid⟩ | ⟨hhead, rfl⟩ := test_eq_error_iff.1 he
  · refine (complains_afterLexeme hread mid e hmid).cons (fun t' mid' e ht' _ he => ?_)
      fun ms x hms => .of_language hms
    exact test_eq_error_iff.2 (.inl ⟨t', mid', read, rfl, ht' ▸ hread, he⟩)
  · obtain ⟨ls, x, hls, hx⟩ := completable_test
    refine .inr ⟨[], ts, _, rfl, rfl, stopsAt_nil hls hx fun rest' hrest' => ?_⟩
    exact test_eq_error_iff.2 (.inr ⟨hrest' ▸ hhead, rfl⟩)

theorem comparison_cons_of_isField {t : Token} {s : String} (h : IsField t.lexeme s)
    (ts : List Token) :
    comparison (t :: ts) = ((test s ts).map fun x => (⟨s, x.1, x.2⟩ : Comparison)).after t := by
  obtain ⟨l, cs⟩ := t
  cases h with
  | word hs => simp [comparison, Keyword.ofWord?_eq_none_iff.2 hs]

theorem comparison_cons_of_not_isField {t : Token} (h : ∀ s, ¬ IsField t.lexeme s)
    (ts : List Token) : comparison (t :: ts) = .error (.unexpected .fieldName (some t)) := by
  rw [comparison]
  split
  · next s hs =>
    split
    · rfl
    · next hk =>
      have hfield : IsField t.lexeme s := hs ▸ isField_word_iff.2 ⟨rfl, by simpa using hk⟩
      exact absurd hfield (h s)
  · rfl

theorem comparison_eq_error_iff {ts : List Token} {e : Failure} : comparison ts = .error e ↔
    (∃ t mid s, ts = t :: mid ∧ IsField t.lexeme s ∧ test s mid = .error e) ∨
      (∀ l ∈ ts.head?.map lexeme, ∀ s, ¬ IsField l s) ∧
        e = .unexpected .fieldName ts.head? := by
  cases ts with
  | nil => simp [comparison, @eq_comm _ e]
  | cons t ts =>
    by_cases h : ∃ s, IsField t.lexeme s
    · obtain ⟨s, hs⟩ := h
      have hfield {s' : String} : IsField t.lexeme s' ↔ s' = s := by
        refine ⟨fun hs' => ?_, fun h => h ▸ hs⟩
        generalize t.lexeme = l at hs hs'
        cases hs
        cases hs'
        rfl
      simp [comparison_cons_of_isField hs, after_eq_error_iff, map_eq_error_iff, hfield]
    · rw [not_exists] at h
      simp [comparison_cons_of_not_isField h, h, @eq_comm _ e]

theorem complains_comparison : Complains n comparison IsComparison := by
  intro ts e he
  obtain ⟨t, mid, s, rfl, hs, hmid⟩ | ⟨hhead, rfl⟩ := comparison_eq_error_iff.1 he
  · refine (complains_test s mid e hmid).cons (fun t' mid' e ht' _ he => ?_)
      fun ms x hms => .of_language (.test hs hms)
    exact comparison_eq_error_iff.2 (.inl ⟨t', mid', s, rfl, ht' ▸ hs, he⟩)
  · obtain ⟨ls, x, hls, hx⟩ := completable_test
    have hfield : IsField (.word "a") "a" := isField_word_iff.2 ⟨rfl, by decide⟩
    refine .inr ⟨[], ts, _, rfl, rfl, stopsAt_nil ((@spellable_word "a" rfl).append hls)
      (.test hfield hx) fun rest' hrest' => ?_⟩
    exact comparison_eq_error_iff.2 (.inr ⟨hrest' ▸ hhead, rfl⟩)

end Comparisons

section Phrases

theorem ends_congr {ph : Phrase} {ts ts' : List Token}
    (h : ts'.head?.map lexeme = ts.head?.map lexeme) : Ends ph ts' ↔ Ends ph ts := by
  have hbegins (k : Keyword) : Begins k ts' ↔ Begins k ts := by rw [begins_iff, h, begins_iff]
  match ph with
  | .term => exact Iff.rfl
  | .chain .and => exact not_congr (hbegins .and)
  | .chain .or => exact and_congr (not_congr (hbegins .and)) (not_congr (hbegins .or))

theorem ends_of_chain {k : Combinator} {read : (ts : List Token) → Outcome Rule ts}
    (h : ∀ ts r rest, (read ts).Yields r rest → Ends (members k) rest) {ts rest : List Token}
    {rs : List Rule} (hrs : (chain (joining k) read ts).Yields rs rest) :
    Ends (.chain k) rest := by
  induction rs generalizing ts with
  | nil =>
    obtain ⟨r, mid, -, ⟨-, hrs, -⟩ | ⟨t, mid', rs', -, -, -, hrs⟩⟩ := yields_chain_iff.1 hrs <;>
      cases hrs
  | cons r rs ih =>
    obtain ⟨r', mid, hr, ⟨hend, -, rfl⟩ | ⟨t, mid', rs', -, -, hmore, heq⟩⟩ :=
      yields_chain_iff.1 hrs
    · exact ends_chain_iff.2 ⟨h ts r' mid hr, hend⟩
    · cases heq
      exact ih hmore

theorem ends_of_phrase {n : Nat} {ph : Phrase} {ts rest : List Token} {r : Rule}
    (h : (phrase n ph ts).Yields r rest) : Ends ph rest := by
  induction ph using Phrase.induct generalizing ts rest r with
  | term => trivial
  | chain k hk =>
    rw [phrase_chain] at h
    obtain ⟨rs, hrs, -⟩ := yields_map_iff.1 h
    exact ends_of_chain (fun _ _ _ => hk) hrs

theorem steady_phrase (n : Nat) (ph : Phrase) : Steady (phrase n ph) (Derives ph) := by
  intro ts r rest hr
  obtain ⟨us, rfl, hus, hn⟩ := takes_phrase n ph ts r rest hr
  refine ⟨us, rfl, hus, fun us' rest' hus' => ?_⟩
  exact reads_phrase hus hn us' rest' hus'.front.symm
    ((ends_congr hus'.next.symm).2 (ends_of_phrase hr))

theorem complains_chain {k : Combinator} {read : (ts : List Token) → Outcome Rule ts}
    (hsteady : Steady read (Derives (members k))) (h : Complains n read (Derives (members k))) :
    Complains n (chain (joining k) read) (Chained (joining k) (Derives (members k))) := by
  intro ts e he
  obtain hfirst | ⟨r, t, mid, hr, ht, hmore⟩ := chain_eq_error_iff.1 he
  · refine (h ts e hfirst).imp (fun _ _ _ he => chain_eq_error_iff.2 (.inl he)) fun ls r hls => ?_
    exact .of_language ⟨ls, r, [], by simp, rfl, hls, by simp, by simp⟩
  · have hsep : (closed (.keyword (joining k)) read ts).Yields r mid :=
      yields_closed_iff.2 ⟨t, hr, ht⟩
    have hshorter : mid.length < ts.length := hsep.1
    refine (complains_chain hsteady h mid e hmore).append (steady_closed _ hsteady) hsep ?_ ?_
    · intro ts mid e hmid _ he
      obtain ⟨t, hr, ht⟩ := yields_closed_iff.1 hmid
      exact chain_eq_error_iff.2 (.inr ⟨_, t, mid, hr, ht, he⟩)
    · rintro _ _ _ ⟨ls, w, rfl, hls, hw⟩ ⟨ms, q, links, rfl, rfl, hq, hwords, hlinks⟩
      exact .of_language ⟨ls, _, ⟨w, ms, q⟩ :: links, by simp [Link.text], rfl, hls,
        List.forall_mem_cons.2 ⟨isKeyword_iff.1 hw, hwords⟩, List.forall_mem_cons.2 ⟨hq, hlinks⟩⟩
termination_by ts => ts.length

theorem complains_phrase_chain {k : Combinator}
    (h : Complains n (phrase n (members k)) (Derives (members k))) :
    Complains n (phrase n (.chain k)) (Derives (.chain k)) := by
  rw [phrase_chain]
  refine (complains_chain (steady_phrase n _) h).map _ ?_
  rintro _ _ ⟨ms, r, links, rfl, rfl, hr, hwords, hlinks⟩
  exact derives_join hr hwords hlinks

theorem phrase_term_eq_error_iff {ts : List Token} {e : Failure} :
    phrase n .term ts = .error e ↔
      (∃ t mid, ts = t :: mid ∧ t.lexeme = .openParen ∧ (n = 0 ∧ e = .tooDeep ∨
        ∃ m, n = m + 1 ∧ closed (.mark .closeParen) (rule m) mid = .error e)) ∨
      ts.head?.map lexeme ≠ some .openParen ∧ comparison ts = .error e := by
  cases ts with
  | nil => simp [phrase, member, map_eq_error_iff]
  | cons t ts =>
    by_cases ht : t.lexeme = .openParen
    · cases n with
      | zero => simp [phrase, member, inside, ht, @eq_comm _ e]
      | succ n => simp [phrase, member, inside, ht, after_eq_error_iff, closed]
    · simp [phrase, member, ht, map_eq_error_iff]

theorem complains_phrase_term
    (h : ∀ m, n = m + 1 → Complains m (phrase m (.chain .or)) (Derives (.chain .or))) :
    Complains n (phrase n .term) (Derives .term) := by
  intro ts e he
  obtain ⟨t, mid, rfl, ht, ⟨rfl, rfl⟩ | ⟨m, rfl, hmid⟩⟩ | ⟨hopen, he⟩ :=
    phrase_term_eq_error_iff.1 he
  · exact .inl ⟨rfl, Nat.succ_pos _⟩
  · have hinside : Complains m (closed (.mark .closeParen) (rule m)) _ := rule_eq_phrase m ▸
      complains_closed (@spellable_mark ')' _ rfl) rfl (h m rfl) (steady_phrase m _)
    obtain ⟨rfl, hm⟩ | hstop := hinside mid e hmid
    · exact .inl ⟨rfl, Nat.succ_lt_succ hm⟩
    · refine Blames.cons (.inr hstop) (fun t' mid' e ht' _ he => ?_) ?_
      · exact phrase_term_eq_error_iff.2
          (.inl ⟨t', mid', rfl, ht'.trans ht, .inr ⟨m, rfl, he⟩⟩)
      · rintro _ r ⟨ms, l, rfl, hms, hl⟩
        obtain rfl : .closeParen = l := by simpa [Expected.admits] using hl
        rw [ht]
        exact .of_language (.paren hms)
  · refine (complains_comparison ts e he).imp (fun ts' e hhead he => ?_) fun ls c hls =>
      .of_language (.comparison hls)
    exact phrase_term_eq_error_iff.2 (.inr ⟨hhead ▸ hopen, he⟩)

theorem complains_phrase (n : Nat) (ph : Phrase) : Complains n (phrase n ph) (Derives ph) :=
  phrase_induct (fun _ => complains_phrase_term) (fun _ _ => complains_phrase_chain) n ph

theorem wholeRule_eq_error_iff {ts : List Token} {e : Failure} : wholeRule n ts = .error e ↔
    phrase n (.chain .or) ts = .error e ∨
      ∃ r t mid, (phrase n (.chain .or) ts).Yields r (t :: mid) ∧
        e = .unexpected .continuation (some t) := by
  rw [wholeRule, ← rule_eq_phrase]
  split
  · next he => simp [he]
  · next he => simp [he]
  · next r t mid h he => simp [he, @eq_comm _ e]

/-- A text that is no rule is complained about at the first token that no rule goes on with, unless
its parentheses are too deep. -/
theorem complains_wholeRule {ts : List Token} {e : Failure} (h : wholeRule n ts = .error e) :
    e = .tooDeep ∧ n < ts.length ∨ ∃ us rest expected, ts = us ++ rest ∧
      e = .unexpected expected rest.head? ∧ Completable (Derives (.chain .or)) (us.map lexeme) ∧
      ∀ us' rest', Alike us rest us' rest' →
        wholeRule n (us' ++ rest') = .error (.unexpected expected rest'.head?) := by
  obtain hphrase | ⟨r, t, mid, hr, rfl⟩ := wholeRule_eq_error_iff.1 h
  · obtain h | ⟨us, rest, e, rfl, rfl, hstop⟩ := complains_phrase n _ ts e hphrase
    · exact .inl h
    · exact .inr ⟨us, rest, e, rfl, rfl, hstop.completable, fun us' rest' hus' =>
        wholeRule_eq_error_iff.2 (.inl (hstop.same us' rest' hus'))⟩
  · obtain ⟨us, rfl, hus, hsame⟩ := steady_phrase n _ ts r _ hr
    refine .inr ⟨us, t :: mid, _, rfl, rfl, .of_language hus, fun us' rest' hus' => ?_⟩
    obtain ⟨t', mid', rfl⟩ : ∃ t' mid', rest' = t' :: mid' := by
      have hnext := hus'.next
      cases rest' with
      | nil => simp at hnext
      | cons t' mid' => exact ⟨t', mid', rfl⟩
    exact wholeRule_eq_error_iff.2 (.inr ⟨r, t', mid', hsame us' _ hus', rfl⟩)

end Phrases

end RuleFilter.Reading
