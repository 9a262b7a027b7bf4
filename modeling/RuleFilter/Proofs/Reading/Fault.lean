import RuleFilter.Proofs.Reading.Depth
import RuleFilter.Proofs.Token.Spelling

/-!
Where reading fails. A reader complains about the first token that nothing in its language goes on
with: the lexemes before it are the beginning of something that the reader reads, and whatever
stands after it, the complaint is the same. Only parentheses nested too deep are refused earlier,
which takes more tokens than they may be deep.
-/

namespace RuleFilter.Reading

open Token Grammar

section Completion

/-- Some text spells the lexemes. -/
def Spellable (ls : List Lexeme) : Prop := ∃ cs, Spells cs ls

theorem spellable_nil : Spellable [] := ⟨[], spells_nil⟩

theorem Spellable.append {ls ms : List Lexeme} (h : Spellable ls) (h' : Spellable ms) :
    Spellable (ls ++ ms) := by
  obtain ⟨cs, hcs⟩ := h
  obtain ⟨ds, hds⟩ := h'
  exact ⟨cs ++ ' ' :: ds, hcs.blank_append hds⟩

theorem spellable_word {s : String} (h : Text.isWord s.toList) : Spellable [.word s] :=
  ⟨_, spells_word h⟩

theorem spellable_keyword (k : Keyword) : Spellable [.word k.text] :=
  spellable_word (by cases k <;> rfl)

theorem spellable_mark {c : Char} {l : Lexeme} (h : mark? c = some l) : Spellable [l] :=
  ⟨[c], .mark h spells_nil⟩

theorem isWord_text (k : Keyword) : IsWord k (.word k.text) :=
  isWord_word_iff.2 (Keyword.ofWord?_text k)

variable {α β : Type} {language : List Lexeme → α → Prop} {language' : List Lexeme → β → Prop}

/-- Some text goes on with the lexemes to what the language has. -/
def Completable (language : List Lexeme → α → Prop) (ls : List Lexeme) : Prop :=
  ∃ ms a, Spellable ms ∧ language (ls ++ ms) a

theorem Completable.of_language {ls : List Lexeme} {a : α} (h : language ls a) :
    Completable language ls := ⟨[], a, spellable_nil, by rwa [List.append_nil]⟩

theorem Completable.imp {ls : List Lexeme} (h : Completable language ls) (pre : List Lexeme)
    (himp : ∀ ms a, language ms a → Completable language' (pre ++ ms)) :
    Completable language' (pre ++ ls) := by
  obtain ⟨ms, a, hms, ha⟩ := h
  obtain ⟨ms', b, hms', hb⟩ := himp _ a ha
  exact ⟨ms ++ ms', b, hms.append hms', by simpa using hb⟩

end Completion

section Alike

/-- Up to a place the tokens have the same lexemes, and there they have the same one or both end. -/
structure Alike (us rest us' rest' : List Token) : Prop where
  front : us.map lexeme = us'.map lexeme
  next : rest.head?.map lexeme = rest'.head?.map lexeme

variable {us vs ws rest rest' : List Token} {t : Token}

theorem Alike.head (h : Alike us rest ws rest') :
    (ws ++ rest').head?.map lexeme = (us ++ rest).head?.map lexeme := by
  have hfront := h.front
  cases us with
  | nil =>
    obtain rfl := List.map_eq_nil_iff.1 hfront.symm
    exact h.next.symm
  | cons u us =>
    obtain ⟨w, ws, rfl, hw, -⟩ := List.map_eq_cons_iff.1 hfront.symm
    simp [hw]

theorem Alike.of_cons (h : Alike (t :: us) rest ws rest') :
    ∃ t' us', ws = t' :: us' ∧ t'.lexeme = t.lexeme ∧ Alike us rest us' rest' := by
  obtain ⟨t', us', rfl, ht', hus'⟩ := List.map_eq_cons_iff.1 h.front.symm
  exact ⟨t', us', rfl, ht', hus'.symm, h.next⟩

theorem Alike.of_append (h : Alike (vs ++ us) rest ws rest') : ∃ vs' us', ws = vs' ++ us' ∧
    Alike vs (us ++ rest) vs' (us' ++ rest') ∧ Alike us rest us' rest' := by
  have hfront := h.front
  rw [List.map_append] at hfront
  obtain ⟨vs', us', rfl, hvs, hus⟩ := List.map_eq_append_iff.1 hfront.symm
  have hus' : Alike us rest us' rest' := ⟨hus.symm, h.next⟩
  exact ⟨vs', us', rfl, ⟨hvs.symm, hus'.head.symm⟩, hus'⟩

theorem begins_iff {k : Keyword} {ts : List Token} :
    Begins k ts ↔ ∃ l ∈ ts.head?.map lexeme, l.isKeyword k := by
  cases ts <;> simp

end Alike

variable {α β γ : Type} {n : Nat}

section Definitions

/-- What is read is of the language, and depends on the lexemes up to the place where reading ends
and on the next one. -/
def Steady (read : (ts : List Token) → Outcome α ts) (language : List Lexeme → α → Prop) : Prop :=
  ∀ ts a rest, (read ts).Yields a rest → ∃ us, ts = us ++ rest ∧ language (us.map lexeme) a ∧
    ∀ us' rest', Alike us rest us' rest' → (read (us' ++ rest')).Yields a rest'

/-- The tokens are the beginning of something in the language, and wherever their lexemes stand in
front of the same next one, reading ends there with the same complaint. -/
structure StopsAt (read : (ts : List Token) → Outcome α ts) (language : List Lexeme → α → Prop)
    (e : Expected) (us rest : List Token) : Prop where
  completable : Completable language (us.map lexeme)
  same : ∀ us' rest', Alike us rest us' rest' →
    read (us' ++ rest') = .error (.unexpected e rest'.head?)

/-- The complaint about the tokens is parentheses, which takes more than `n` tokens, or the first
token with which nothing in the language goes on. -/
def Blames (n : Nat) (read : (ts : List Token) → Outcome α ts) (language : List Lexeme → α → Prop)
    (ts : List Token) (e : Failure) : Prop :=
  e = .tooDeep ∧ n < ts.length ∨ ∃ us rest expected, ts = us ++ rest ∧
    e = .unexpected expected rest.head? ∧ StopsAt read language expected us rest

/-- Where the reader fails, it complains about the right place. -/
def Complains (n : Nat) (read : (ts : List Token) → Outcome α ts)
    (language : List Lexeme → α → Prop) : Prop :=
  ∀ ts e, read ts = .error e → Blames n read language ts e

end Definitions

section Combinators

variable {read : (ts : List Token) → Outcome α ts} {language : List Lexeme → α → Prop}
  {read' : (ts : List Token) → Outcome β ts} {language' : List Lexeme → β → Prop}
  {read'' : (ts : List Token) → Outcome γ ts} {language'' : List Lexeme → γ → Prop}
  {e : Expected} {us rest : List Token}

theorem Steady.next {f : α → (ts : List Token) → Outcome β ts}
    {more : α → List Lexeme → β → Prop} (h : Steady read language) (hf : ∀ a, Steady (f a) (more a))
    (hlanguage : ∀ ls ms a b, language ls a → more a ms b → language' (ls ++ ms) b) :
    Steady (fun ts => (read ts).next f) language' := by
  intro ts b rest hb
  obtain ⟨a, mid, ha, hmore⟩ := yields_next_iff.1 hb
  obtain ⟨vs, rfl, hvs, hsame⟩ := h ts a mid ha
  obtain ⟨us, rfl, hus, hsame'⟩ := hf a mid b rest hmore
  refine ⟨vs ++ us, by simp, ?_, fun ws rest' hws => ?_⟩
  · rw [List.map_append]
    exact hlanguage _ _ a b hvs hus
  · obtain ⟨vs', us', rfl, hvs', hus'⟩ := hws.of_append
    rw [List.append_assoc]
    exact yields_next_iff.2 ⟨a, us' ++ rest', hsame _ _ hvs', hsame' us' rest' hus'⟩

theorem Steady.map (h : Steady read language) (f : α → β)
    (hlanguage : ∀ ls a, language ls a → language' ls (f a)) :
    Steady (fun ts => (read ts).map f) language' := by
  intro ts b rest hb
  obtain ⟨a, ha, rfl⟩ := yields_map_iff.1 hb
  obtain ⟨us, rfl, hus, hsame⟩ := h ts a rest ha
  exact ⟨us, rfl, hlanguage _ a hus, fun us' rest' hus' =>
    yields_map_iff.2 ⟨a, hsame us' rest' hus', rfl⟩⟩

/-- A reader that fails at its first token fails at every one with the same lexeme. -/
theorem stopsAt_nil {ms : List Lexeme} {a : α} (hms : Spellable ms) (ha : language ms a)
    (h : ∀ rest', rest'.head?.map lexeme = rest.head?.map lexeme →
      read rest' = .error (.unexpected e rest'.head?)) : StopsAt read language e [] rest where
  completable := ⟨ms, a, hms, ha⟩
  same us' rest' hus' := by
    obtain rfl := List.map_eq_nil_iff.1 hus'.front.symm
    exact h rest' hus'.next.symm

theorem Blames.imp {ts : List Token} {f : Failure} (h : Blames n read language ts f)
    (hread : ∀ ts' f, ts'.head?.map lexeme = ts.head?.map lexeme →
      read ts' = .error f → read' ts' = .error f)
    (hlanguage : ∀ ls a, language ls a → Completable language' ls) :
    Blames n read' language' ts f := by
  obtain h | ⟨us, rest, e, rfl, rfl, hstop⟩ := h
  · exact .inl h
  · exact .inr ⟨us, rest, e, rfl, rfl, hstop.completable.imp [] hlanguage, fun us' rest' hus' =>
      hread _ _ hus'.head (hstop.same us' rest' hus')⟩

/-- A reader that goes on with another one after a part complains where the other one does. -/
theorem Blames.append {ts mid : List Token} {a : α} {f : Failure}
    (h : Blames n read' language' mid f) (hsteady : Steady read language)
    (ha : (read ts).Yields a mid)
    (hread : ∀ ts' mid' f, (read ts').Yields a mid' →
      mid'.head?.map lexeme = mid.head?.map lexeme → read' mid' = .error f → read'' ts' = .error f)
    (hlanguage : ∀ ls ms b, language ls a → language' ms b → Completable language'' (ls ++ ms)) :
    Blames n read'' language'' ts f := by
  obtain ⟨vs, rfl, hvs, hsame⟩ := hsteady ts a mid ha
  obtain ⟨rfl, hn⟩ | ⟨us, rest, e, rfl, rfl, hstop⟩ := h
  · exact .inl ⟨rfl, by rw [List.length_append]; omega⟩
  · refine .inr ⟨vs ++ us, rest, e, by simp, rfl, ?_, fun us' rest' hus' => ?_⟩
    · rw [List.map_append]
      exact hstop.completable.imp _ fun ls b => hlanguage _ ls b hvs
    · obtain ⟨vs', us', rfl, hvs', hus'⟩ := hus'.of_append
      rw [List.append_assoc]
      exact hread _ _ _ (hsame _ _ hvs') hus'.head (hstop.same us' rest' hus')

theorem Complains.map (h : Complains n read language) (f : α → β)
    (hlanguage : ∀ ls a, language ls a → language' ls (f a)) :
    Complains n (fun ts => (read ts).map f) language' := fun ts e he =>
  (h ts e (map_eq_error_iff.1 he)).imp (fun _ _ _ he => map_eq_error_iff.2 he)
    fun ls a ha => .of_language (hlanguage ls a ha)

theorem Complains.mono {more : List Lexeme → α → Prop} (h : Complains n read language)
    (hlanguage : ∀ ls a, language ls a → more ls a) : Complains n read more :=
  fun ts e he => (h ts e he).imp (fun _ _ _ he => he) fun ls a ha =>
    .of_language (hlanguage ls a ha)

theorem Complains.next {f : α → (ts : List Token) → Outcome β ts}
    {more : α → List Lexeme → β → Prop} (h : Complains n read language)
    (hsteady : Steady read language) (hf : ∀ a, Complains n (f a) (more a))
    (hmore : ∀ a, Completable (more a) [])
    (hlanguage : ∀ ls ms a b, language ls a → more a ms b → language' (ls ++ ms) b) :
    Complains n (fun ts => (read ts).next f) language' := by
  intro ts e he
  obtain hfirst | ⟨a, mid, ha, hrest⟩ := next_eq_error_iff.1 he
  · refine (h ts e hfirst).imp (fun _ _ _ he => next_eq_error_iff.2 (.inl he)) fun ls a ha => ?_
    obtain ⟨ms, b, hms, hb⟩ := hmore a
    exact ⟨ms, b, hms, hlanguage ls ms a b ha hb⟩
  · refine (hf a mid e hrest).append hsteady ha ?_ ?_
    · exact fun ts' mid' e hmid _ he => next_eq_error_iff.2 (.inr ⟨a, mid', hmid, he⟩)
    · exact fun ls ms b ha hb => .of_language (hlanguage ls ms a b ha hb)

theorem steady_head {p : Lexeme → α → Prop}
    (h : ∀ ts a rest, (read ts).Yields a rest ↔ ∃ t, ts = t :: rest ∧ p t.lexeme a) :
    Steady read fun ls a => ∃ l, ls = [l] ∧ p l a := by
  intro ts a rest ha
  obtain ⟨t, rfl, ht⟩ := (h ts a rest).1 ha
  refine ⟨[t], rfl, ⟨t.lexeme, rfl, ht⟩, fun us' rest' hus' => ?_⟩
  obtain ⟨t', us', rfl, ht', hus'⟩ := hus'.of_cons
  obtain rfl := List.map_eq_nil_iff.1 hus'.front.symm
  exact (h _ a rest').2 ⟨t', rfl, ht' ▸ ht⟩

theorem complains_head (p : Lexeme → Prop)
    (h : ∀ ts f, read ts = .error f ↔
      f = .unexpected e ts.head? ∧ ∀ l ∈ ts.head?.map lexeme, p l)
    (hlanguage : Completable language []) : Complains n read language := by
  intro ts f hf
  obtain ⟨rfl, hp⟩ := (h ts f).1 hf
  obtain ⟨ms, a, hms, ha⟩ := hlanguage
  refine .inr ⟨[], ts, e, rfl, rfl, stopsAt_nil hms ha fun rest' hrest' => ?_⟩
  exact (h rest' _).2 ⟨rfl, hrest' ▸ hp⟩

end Combinators

section Parts

theorem expect_eq_error_iff {e : Expected} {ts : List Token} {f : Failure} :
    expect e ts = .error f ↔
      f = .unexpected e ts.head? ∧ ∀ l ∈ ts.head?.map lexeme, ¬ e.admits l := by
  cases ts with
  | nil => simp [expect, @eq_comm _ f]
  | cons t ts =>
    rw [expect]
    split
    · next h => simp [h]
    · next h => simp [h, @eq_comm _ f]

theorem value_eq_error_iff {ts : List Token} {f : Failure} : value ts = .error f ↔
    f = .unexpected .value ts.head? ∧ ∀ l ∈ ts.head?.map lexeme, l.value? = none := by
  cases ts with
  | nil => simp [value, @eq_comm _ f]
  | cons t ts =>
    rw [value]
    split
    · next h => simp [h]
    · next h => simp [h, @eq_comm _ f]

theorem steady_expect (e : Expected) :
    Steady (expect e) fun ls _ => ∃ l, ls = [l] ∧ e.admits l :=
  steady_head fun _ _ _ => yields_expect_iff

/-- A reader that goes on with another one after a token complains where the other one does. -/
theorem Blames.cons {read : (ts : List Token) → Outcome α ts} {language : List Lexeme → α → Prop}
    {read' : (ts : List Token) → Outcome β ts} {language' : List Lexeme → β → Prop} {t : Token}
    {ts : List Token} {f : Failure} (h : Blames n read language ts f)
    (hread : ∀ t' ts' f, t'.lexeme = t.lexeme → ts'.head?.map lexeme = ts.head?.map lexeme →
      read ts' = .error f → read' (t' :: ts') = .error f)
    (hlanguage : ∀ ls a, language ls a → Completable language' (t.lexeme :: ls)) :
    Blames n read' language' (t :: ts) f := by
  have hfirst : (expect (.mark t.lexeme) (t :: ts)).Yields () ts := yields_mark_iff.2 ⟨t, rfl, rfl⟩
  refine h.append (steady_expect _) hfirst ?_ ?_
  · intro ts' mid f hyields hhead hf
    obtain ⟨t', rfl, ht'⟩ := yields_mark_iff.1 hyields
    exact hread t' mid f ht' hhead hf
  · rintro _ ls a ⟨l, rfl, hl⟩ hls
    obtain rfl : t.lexeme = l := by simpa [Expected.admits] using hl
    exact hlanguage ls a hls

theorem complains_expect {e : Expected} {l : Lexeme} (hl : Spellable [l]) (h : e.admits l) :
    Complains n (expect e) fun ls _ => ∃ l, ls = [l] ∧ e.admits l :=
  complains_head _ (fun _ _ => expect_eq_error_iff) ⟨_, (), hl, l, rfl, h⟩

theorem steady_value : Steady value fun ls v => ∃ l, ls = [l] ∧ IsValue l v :=
  steady_head fun _ _ _ => yields_isValue_iff

theorem completable_value : Completable (fun ls v => ∃ l, ls = [l] ∧ IsValue l v) [] :=
  ⟨_, .null, spellable_keyword .null, _, rfl, .null (isWord_text .null)⟩

theorem complains_value : Complains n value fun ls v => ∃ l, ls = [l] ∧ IsValue l v :=
  complains_head _ (fun _ _ => value_eq_error_iff) completable_value

/-- A reader that goes on with a single lexeme and yields what it has read before. -/
def closed (e : Expected) (read : (ts : List Token) → Outcome α ts) (ts : List Token) :
    Outcome α ts := (read ts).next fun a ts => (expect e ts).map fun _ => a

theorem yields_closed_iff {e : Expected} {read : (ts : List Token) → Outcome α ts}
    {ts rest : List Token} {a : α} : (closed e read ts).Yields a rest ↔
      ∃ t, (read ts).Yields a (t :: rest) ∧ e.admits t.lexeme := by
  simp only [closed, yields_next_iff, yields_map_iff, yields_expect_iff]
  constructor
  · rintro ⟨_, _, ha, _, ⟨t, rfl, ht⟩, rfl⟩
    exact ⟨t, ha, ht⟩
  · rintro ⟨t, ha, ht⟩
    exact ⟨a, _, ha, (), ⟨t, rfl, ht⟩, rfl⟩

section Closed

variable {read : (ts : List Token) → Outcome α ts} {language : List Lexeme → α → Prop}

/-- What a reader has read with a lexeme after it. -/
def Closed (e : Expected) (language : List Lexeme → α → Prop) (ls : List Lexeme) (a : α) : Prop :=
  ∃ ms l, ls = ms ++ [l] ∧ language ms a ∧ e.admits l

theorem steady_closed (e : Expected) (h : Steady read language) :
    Steady (closed e read) (Closed e language) := by
  have hend (a : α) : Steady (fun ts => (expect e ts).map fun _ => a)
      fun ls b => (∃ l, ls = [l] ∧ e.admits l) ∧ a = b :=
    (steady_expect e).map (fun _ => a) fun ls _ hls => ⟨hls, rfl⟩
  refine h.next hend ?_
  rintro ls _ a _ hls ⟨⟨l, rfl, hl⟩, rfl⟩
  exact ⟨ls, l, rfl, hls, hl⟩

theorem complains_closed {e : Expected} {l : Lexeme} (hl : Spellable [l]) (hadmits : e.admits l)
    (h : Complains n read language) (hsteady : Steady read language) :
    Complains n (closed e read) (Closed e language) := by
  have hend (a : α) : Complains n (fun ts => (expect e ts).map fun _ => a)
      fun ls b => (∃ l, ls = [l] ∧ e.admits l) ∧ a = b :=
    (complains_expect hl hadmits).map (fun _ => a) fun ls _ hls => ⟨hls, rfl⟩
  refine h.next hsteady hend (fun a => ⟨[l], a, hl, ⟨l, rfl, hadmits⟩, rfl⟩) ?_
  rintro ls _ a _ hls ⟨⟨l, rfl, hl⟩, rfl⟩
  exact ⟨ls, l, rfl, hls, hl⟩

end Closed

end Parts

end RuleFilter.Reading
