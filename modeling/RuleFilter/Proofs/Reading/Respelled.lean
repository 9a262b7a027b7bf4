import RuleFilter.Proofs.Reading.Grammar

/-!
Other spellings of lexemes. Words that are the same keyword stand for one another, and an operator
of two words for that of one word; what the grammar derives it derives in all of these spellings.
-/

namespace RuleFilter.Grammar

/-- The first word of an operator of two words, the other one being `with`, and its single word. -/
inductive Fuses : Keyword → Keyword → Prop
  | startsWith : Fuses .starts .startsWith
  | endsWith : Fuses .ends .endsWith

/-- The lexemes are the same but for the case of keywords and for operators written as one word or
as two. -/
inductive Respelled : List Lexeme → List Lexeme → Prop
  | nil : Respelled [] []
  | same (l : Lexeme) {ls ls' : List Lexeme} : Respelled ls ls' → Respelled (l :: ls) (l :: ls')
  | word {k : Keyword} {l l' : Lexeme} {ls ls' : List Lexeme} : IsWord k l → IsWord k l' →
      Respelled ls ls' → Respelled (l :: ls) (l' :: ls')
  | fuse {k j : Keyword} {l w f : Lexeme} {ls ls' : List Lexeme} : Fuses k j → IsWord k l →
      IsWord .with w → IsWord j f → Respelled ls ls' → Respelled (l :: w :: ls) (f :: ls')
  | split {k j : Keyword} {l w f : Lexeme} {ls ls' : List Lexeme} : Fuses k j → IsWord k l →
      IsWord .with w → IsWord j f → Respelled ls ls' → Respelled (f :: ls) (l :: w :: ls')

variable {k j : Keyword} {l w f : Lexeme} {ls ms ns : List Lexeme}

section Lists

theorem Respelled.refl (ls : List Lexeme) : Respelled ls ls := by
  induction ls with
  | nil => exact .nil
  | cons l ls ih => exact .same l ih

theorem Respelled.append {ls' ms' : List Lexeme} (h : Respelled ls ls') (h' : Respelled ms ms') :
    Respelled (ls ++ ms) (ls' ++ ms') := by
  induction h with
  | nil => exact h'
  | same l _ ih => exact .same l ih
  | word hl hl' _ ih => exact .word hl hl' ih
  | fuse hk hl hw hf _ ih => exact .fuse hk hl hw hf ih
  | split hk hl hw hf _ ih => exact .split hk hl hw hf ih

theorem Respelled.nil_inv (h : Respelled [] ns) : ns = [] := by
  cases h
  rfl

/-- A word that no operator of two words can begin with or be. -/
def Apart (k : Keyword) : Prop := ∀ i j, Fuses i j → k ≠ i ∧ k ≠ j

theorem apart_of_ne (h : k ≠ .starts ∧ k ≠ .ends ∧ k ≠ .startsWith ∧ k ≠ .endsWith) :
    Apart k := by
  intro i j hij
  cases hij with
  | startsWith => exact ⟨h.1, h.2.2.1⟩
  | endsWith => exact ⟨h.2.1, h.2.2.2⟩

theorem Respelled.word_inv (hl : IsWord k l) (hk : Apart k) (h : Respelled (l :: ls) ns) :
    ∃ l' ns', ns = l' :: ns' ∧ IsWord k l' ∧ Respelled ls ns' := by
  cases h with
  | same _ h => exact ⟨l, _, rfl, hl, h⟩
  | word hi hl' h =>
    obtain rfl := eq_of_isWord hl hi
    exact ⟨_, _, rfl, hl', h⟩
  | fuse hij hi _ _ _ => exact absurd (eq_of_isWord hl hi) (hk _ _ hij).1
  | split hij _ _ hj _ => exact absurd (eq_of_isWord hl hj) (hk _ _ hij).2

theorem Respelled.other_inv (hl : ∀ k, ¬ IsWord k l) (h : Respelled (l :: ls) ns) :
    ∃ ns', ns = l :: ns' ∧ Respelled ls ns' := by
  cases h with
  | same _ h => exact ⟨_, rfl, h⟩
  | word hl' _ _ | fuse _ hl' _ _ _ | split _ _ _ hl' _ => exact absurd hl' (hl _)

theorem Respelled.value_inv {v : Value} (hl : IsValue l v) (h : Respelled (l :: ls) ns) :
    ∃ l' ns', ns = l' :: ns' ∧ IsValue l' v ∧ Respelled ls ns' := by
  have hother (hl' : ∀ k, ¬ IsWord k l) :
      ∃ l' ns', ns = l' :: ns' ∧ IsValue l' v ∧ Respelled ls ns' := by
    obtain ⟨ns', rfl, hrest⟩ := h.other_inv hl'
    exact ⟨l, ns', rfl, hl, hrest⟩
  cases hl with
  | string s =>
    apply hother
    intro k hk
    cases hk
  | number x =>
    apply hother
    intro k hk
    cases hk
  | true hw =>
    obtain ⟨l', ns', rfl, hw', hrest⟩ := h.word_inv hw (apart_of_ne (by decide))
    exact ⟨l', ns', rfl, .true hw', hrest⟩
  | false hw =>
    obtain ⟨l', ns', rfl, hw', hrest⟩ := h.word_inv hw (apart_of_ne (by decide))
    exact ⟨l', ns', rfl, .false hw', hrest⟩
  | null hw =>
    obtain ⟨l', ns', rfl, hw', hrest⟩ := h.word_inv hw (apart_of_ne (by decide))
    exact ⟨l', ns', rfl, .null hw', hrest⟩

theorem not_isWord_of_isField {s : String} (h : IsField l s) (k : Keyword) : ¬ IsWord k l := by
  cases h with
  | word hs =>
    intro hk
    cases hk with
    | word hk => exact hs k hk

theorem Respelled.single_inv (hl : ∀ k, ¬ IsWord k l) (h : Respelled [l] ns) : ns = [l] := by
  obtain ⟨ns', rfl, hrest⟩ := h.other_inv hl
  rw [hrest.nil_inv]

/-- Respelled lexemes are cut where no operator of two words is cut. -/
theorem Respelled.append_inv (hms : ∀ w ∈ ms.head?, ¬ IsWord .with w)
    (h : Respelled (ls ++ ms) ns) :
    ∃ ls' ms', ns = ls' ++ ms' ∧ Respelled ls ls' ∧ Respelled ms ms' := by
  generalize hfull : ls ++ ms = full at h
  induction h generalizing ls with
  | nil =>
    obtain ⟨rfl, rfl⟩ := List.append_eq_nil_iff.1 hfull
    exact ⟨[], [], rfl, .nil, .nil⟩
  | same l h ih =>
    obtain ⟨rfl, rfl⟩ | ⟨ls, rfl, rfl⟩ := List.append_eq_cons_iff.1 hfull
    · exact ⟨[], _, rfl, .nil, .same l h⟩
    · obtain ⟨ls', ms', rfl, hls, hms'⟩ := ih rfl
      exact ⟨l :: ls', ms', rfl, .same l hls, hms'⟩
  | word hl hl' h ih =>
    obtain ⟨rfl, rfl⟩ | ⟨ls, rfl, rfl⟩ := List.append_eq_cons_iff.1 hfull
    · exact ⟨[], _, rfl, .nil, .word hl hl' h⟩
    · obtain ⟨ls', ms', rfl, hls, hms'⟩ := ih rfl
      exact ⟨_ :: ls', ms', rfl, .word hl hl' hls, hms'⟩
  | fuse hk hl hw hf h ih =>
    obtain ⟨rfl, rfl⟩ | ⟨ls, rfl, hmore⟩ := List.append_eq_cons_iff.1 hfull
    · exact ⟨[], _, rfl, .nil, .fuse hk hl hw hf h⟩
    · obtain ⟨rfl, rfl⟩ | ⟨ls, rfl, rfl⟩ := List.append_eq_cons_iff.1 hmore.symm
      · exact absurd hw (hms _ rfl)
      · obtain ⟨ls', ms', rfl, hls, hms'⟩ := ih rfl
        exact ⟨_ :: ls', ms', rfl, .fuse hk hl hw hf hls, hms'⟩
  | split hk hl hw hf h ih =>
    obtain ⟨rfl, rfl⟩ | ⟨ls, rfl, rfl⟩ := List.append_eq_cons_iff.1 hfull
    · exact ⟨[], _, rfl, .nil, .split hk hl hw hf h⟩
    · obtain ⟨ls', ms', rfl, hls, hms'⟩ := ih rfl
      exact ⟨_ :: _ :: ls', ms', rfl, .split hk hl hw hf hls, hms'⟩

end Lists

section Tests

theorem not_isWord_mark (hl : ∀ s, l ≠ .word s) (k : Keyword) : ¬ IsWord k l := by
  rintro ⟨hs⟩
  exact hl _ rfl

theorem Respelled.values {vs : List Value} (hls : IsValues ls vs) (h : Respelled ls ns) :
    IsValues ns vs := by
  induction hls generalizing ns with
  | one hl =>
    obtain ⟨l', ns', rfl, hl', hrest⟩ := h.value_inv hl
    rw [hrest.nil_inv]
    exact .one hl'
  | more hl _ ih =>
    obtain ⟨l', ns', rfl, hl', hrest⟩ := h.value_inv hl
    obtain ⟨ms, rfl, hms⟩ := hrest.other_inv (not_isWord_mark (by simp))
    exact .more hl' (ih hms)

theorem Respelled.list {vs : List Value} (hls : IsList ls vs) (h : Respelled ls ns) :
    IsList ns vs := by
  cases hls with
  | empty =>
    obtain ⟨ns', rfl, hrest⟩ := h.other_inv (not_isWord_mark (by simp))
    rw [hrest.single_inv (not_isWord_mark (by simp))]
    exact .empty
  | values hvs =>
    obtain ⟨ns', rfl, hrest⟩ := h.other_inv (not_isWord_mark (by simp))
    obtain ⟨ls', ms', rfl, hls', hms'⟩ := hrest.append_inv (by
      simpa using not_isWord_mark (by simp) _)
    rw [hms'.single_inv (not_isWord_mark (by simp))]
    exact .values (hls'.values hvs)

/-- The spellings of an operator that is written as one word or as two. -/
inductive Names (k j : Keyword) : List Lexeme → Prop
  | one {f : Lexeme} : IsWord j f → Names k j [f]
  | two {l w : Lexeme} : IsWord k l → IsWord .with w → Names k j [l, w]

theorem Respelled.names_inv (hk : Fuses k j) (hms : Names k j ms) (h : Respelled (ms ++ ls) ns) :
    ∃ ms' ns', ns = ms' ++ ns' ∧ Names k j ms' ∧ Respelled ls ns' := by
  have hapart {i i' : Keyword} (hi : Fuses i i') : j ≠ i ∧ k ≠ i' := by
    cases hk <;> cases hi <;> decide
  cases hms with
  | @one f hf =>
    cases h with
    | same _ h => exact ⟨[f], _, rfl, .one hf, h⟩
    | word hi hl' h =>
      obtain rfl := eq_of_isWord hf hi
      exact ⟨[_], _, rfl, .one hl', h⟩
    | fuse hi hl _ _ _ => exact absurd (eq_of_isWord hf hl) (hapart hi).1
    | split hi hl hw hf' h =>
      obtain rfl := eq_of_isWord hf hf'
      cases hk <;> cases hi <;> exact ⟨[_, _], _, rfl, .two hl hw, h⟩
  | @two l w hl hw =>
    have hword {l' : Lexeme} {ns' : List Lexeme} (hl' : IsWord k l')
        (h : Respelled (w :: ls) ns') :
        ∃ ms' ns'', l' :: ns' = ms' ++ ns'' ∧ Names k j ms' ∧ Respelled ls ns'' := by
      obtain ⟨w', ns', rfl, hw', hrest⟩ := h.word_inv hw (apart_of_ne (by decide))
      exact ⟨[l', w'], ns', rfl, .two hl' hw', hrest⟩
    cases h with
    | same _ h => exact hword hl h
    | word hi hl' h =>
      obtain rfl := eq_of_isWord hl hi
      exact hword hl' h
    | fuse hi hl' _ hf h =>
      obtain rfl := eq_of_isWord hl hl'
      cases hk <;> cases hi <;> exact ⟨[_], _, rfl, .one hf, h⟩
    | split hi _ _ hf _ => exact absurd (eq_of_isWord hl hf) (hapart hi).2

theorem Respelled.names_value_inv {v : Value} (hk : Fuses k j) (hms : Names k j ms)
    (hl : IsValue l v) (h : Respelled (ms ++ [l]) ns) :
    ∃ ms' l', ns = ms' ++ [l'] ∧ Names k j ms' ∧ IsValue l' v := by
  obtain ⟨ms', ns', rfl, hms', hrest⟩ := h.names_inv hk hms
  obtain ⟨l', ns'', rfl, hl', hend⟩ := hrest.value_inv hl
  rw [hend.nil_inv]
  exact ⟨ms', l', rfl, hms', hl'⟩

theorem isTest_startsWith {v : Value} (h : Names .starts .startsWith ms) (hl : IsValue l v) :
    IsTest (ms ++ [l]) .startsWith (.single v) := by
  cases h with
  | one hf => exact .startsWith hf hl
  | two hs hw => exact .startsThenWith hs hw hl

theorem isTest_endsWith {v : Value} (h : Names .ends .endsWith ms) (hl : IsValue l v) :
    IsTest (ms ++ [l]) .endsWith (.single v) := by
  cases h with
  | one hf => exact .endsWith hf hl
  | two hs hw => exact .endsThenWith hs hw hl

/-- A word with a value after it. -/
theorem Respelled.word_value_inv {v : Value} (hk : Apart k) (hw : IsWord k w) (hl : IsValue l v)
    (h : Respelled [w, l] ns) : ∃ w' l', ns = [w', l'] ∧ IsWord k w' ∧ IsValue l' v := by
  obtain ⟨w', ns', rfl, hw', hrest⟩ := h.word_inv hw hk
  obtain ⟨l', ms, rfl, hl', hms⟩ := hrest.value_inv hl
  rw [hms.nil_inv]
  exact ⟨w', l', rfl, hw', hl'⟩

theorem Respelled.test {op : Operator} {v : Operand} (hls : IsTest ls op v)
    (h : Respelled ls ns) : IsTest ns op v := by
  cases hls with
  | compare op hv =>
    obtain ⟨ns', rfl, hrest⟩ := h.other_inv (not_isWord_mark (by simp))
    obtain ⟨l', ms, rfl, hl', hms⟩ := hrest.value_inv hv
    rw [hms.nil_inv]
    exact .compare op hl'
  | oneOf hw hvs =>
    obtain ⟨w', ns', rfl, hw', hrest⟩ := h.word_inv hw (apart_of_ne (by decide))
    exact .oneOf hw' (hrest.list hvs)
  | noneOf hn hw hvs =>
    obtain ⟨n', ns', rfl, hn', hrest⟩ := h.word_inv hn (apart_of_ne (by decide))
    obtain ⟨w', ms, rfl, hw', hms⟩ := hrest.word_inv hw (apart_of_ne (by decide))
    exact .noneOf hn' hw' (hms.list hvs)
  | contains hw hl =>
    obtain ⟨w', l', rfl, hw', hl'⟩ := h.word_value_inv (apart_of_ne (by decide)) hw hl
    exact .contains hw' hl'
  | startsWith hw hl =>
    obtain ⟨ms, l', rfl, hms, hl'⟩ := h.names_value_inv .startsWith (.one hw) hl
    exact isTest_startsWith hms hl'
  | startsThenWith hs hw hl =>
    obtain ⟨ms, l', rfl, hms, hl'⟩ := h.names_value_inv .startsWith (.two hs hw) hl
    exact isTest_startsWith hms hl'
  | endsWith hw hl =>
    obtain ⟨ms, l', rfl, hms, hl'⟩ := h.names_value_inv .endsWith (.one hw) hl
    exact isTest_endsWith hms hl'
  | endsThenWith hs hw hl =>
    obtain ⟨ms, l', rfl, hms, hl'⟩ := h.names_value_inv .endsWith (.two hs hw) hl
    exact isTest_endsWith hms hl'
  | between hb hlow ha hhigh =>
    obtain ⟨b', ns', rfl, hb', hrest⟩ := h.word_inv hb (apart_of_ne (by decide))
    obtain ⟨l', ms, rfl, hlow', hms⟩ := hrest.value_inv hlow
    obtain ⟨a', h', rfl, ha', hhigh'⟩ := hms.word_value_inv (apart_of_ne (by decide)) ha hhigh
    exact .between hb' hlow' ha' hhigh'
  | isNull hi hn =>
    obtain ⟨i', ns', rfl, hi', hrest⟩ := h.word_inv hi (apart_of_ne (by decide))
    obtain ⟨n', ms, rfl, hn', hms⟩ := hrest.word_inv hn (apart_of_ne (by decide))
    rw [hms.nil_inv]
    exact .isNull hi' hn'
  | isNotNull hi ht hn =>
    obtain ⟨i', ns', rfl, hi', hrest⟩ := h.word_inv hi (apart_of_ne (by decide))
    obtain ⟨t', ms, rfl, ht', hms⟩ := hrest.word_inv ht (apart_of_ne (by decide))
    obtain ⟨n', ms', rfl, hn', hms'⟩ := hms.word_inv hn (apart_of_ne (by decide))
    rw [hms'.nil_inv]
    exact .isNotNull hi' ht' hn'

theorem Respelled.comparison {c : Comparison} (hls : IsComparison ls c) (h : Respelled ls ns) :
    IsComparison ns c := by
  cases hls with
  | test hfield htest =>
    obtain ⟨ns', rfl, hrest⟩ := h.other_inv (not_isWord_of_isField hfield)
    exact .test hfield (hrest.test htest)

end Tests

section Phrases

theorem joining_apart (c : Combinator) : Apart (joining c) := by
  cases c <;> exact apart_of_ne (by decide)

/-- Where a chain goes on, it does so with its word. -/
theorem not_with_of_links {c : Combinator} {links : List Link}
    (hwords : ∀ x ∈ links, IsWord (joining c) x.word) :
    ∀ w ∈ (links.flatMap Link.text).head?, ¬ IsWord .with w := by
  cases links with
  | nil => simp
  | cons x links =>
    have hx := hwords x (by simp)
    simp only [List.flatMap_cons, Link.text, List.cons_append, List.head?_cons,
      Option.mem_some_iff, forall_eq']
    intro hw
    have := eq_of_isWord hx hw
    cases c <;> cases this

theorem Respelled.links_inv {c : Combinator} {links : List Link}
    (hwords : ∀ x ∈ links, IsWord (joining c) x.word)
    (hlinks : ∀ x ∈ links, ∀ ns, Respelled x.lexemes ns → Derives (members c) ns x.rule)
    (h : Respelled (links.flatMap Link.text) ns) :
    ∃ links' : List Link, ns = links'.flatMap Link.text ∧
      links'.map Link.rule = links.map Link.rule ∧
      (∀ x ∈ links', IsWord (joining c) x.word) ∧
      ∀ x ∈ links', Derives (members c) x.lexemes x.rule := by
  induction links generalizing ns with
  | nil => exact ⟨[], by simpa using h.nil_inv, rfl, by simp, by simp⟩
  | cons x links ih =>
    rw [List.forall_mem_cons] at hwords hlinks
    obtain ⟨w, ns', rfl, hw, hrest⟩ := h.word_inv hwords.1 (joining_apart c)
    obtain ⟨ls', ms', rfl, hls', hms'⟩ := hrest.append_inv (not_with_of_links hwords.2)
    obtain ⟨links', rfl, hrules, hwords', hlinks'⟩ := ih hwords.2 hlinks.2 hms'
    refine ⟨⟨w, ls', x.rule⟩ :: links', by simp [Link.text], by simp [hrules],
      List.forall_mem_cons.2 ⟨hw, hwords'⟩,
      List.forall_mem_cons.2 ⟨hlinks.1 ls' hls', hlinks'⟩⟩

/-- What the grammar derives it derives in every other spelling. -/
theorem Respelled.derives {ph : Phrase} {r : Rule} (hls : Derives ph ls r)
    (h : Respelled ls ns) : Derives ph ns r := by
  induction hls generalizing ns with
  | comparison hc => exact .comparison (h.comparison hc)
  | paren _ ih =>
    obtain ⟨ns', rfl, hrest⟩ := h.other_inv (not_isWord_mark (by simp))
    obtain ⟨ls', ms', rfl, hls', hms'⟩ := hrest.append_inv (by
      simpa using not_isWord_mark (by simp) _)
    rw [hms'.single_inv (not_isWord_mark (by simp))]
    exact .paren (ih hls')
  | single c _ ih => exact .single c (ih h)
  | @group c ls r links hne _ hwords _ ih ihs =>
    obtain ⟨ls', ms', rfl, hls', hms'⟩ := h.append_inv (not_with_of_links hwords)
    obtain ⟨links', rfl, hrules, hwords', hlinks'⟩ :=
      hms'.links_inv hwords fun x hx ns => @ihs x hx ns
    have hne' : links' ≠ [] := by
      rintro rfl
      exact hne (List.map_eq_nil_iff.1 hrules.symm)
    rw [← hrules]
    exact .group c hne' (ih hls') hwords' hlinks'

end Phrases

section Signs

/-- After each comparison sign stands a value. -/
def Followed (ls : List Lexeme) : Prop :=
  ∀ us op vs, ls = us ++ .compare op :: vs → ∃ l v ms, vs = l :: ms ∧ IsValue l v

theorem followed_nil : Followed [] := by
  intro us op vs h
  simp at h

theorem Followed.right (h : Followed (ls ++ ms)) : Followed ms := by
  rintro us op vs rfl
  exact h (ls ++ us) op vs (by simp)

theorem Followed.append (hls : Followed ls) (hms : Followed ms) : Followed (ls ++ ms) := by
  intro us op vs hfull
  obtain ⟨as, rfl, hcut⟩ | ⟨as, rfl, hcut⟩ := List.append_eq_append_iff.1 hfull
  · exact hms as op vs hcut
  · cases as with
    | nil => exact hms [] op vs hcut.symm
    | cons a as =>
      obtain ⟨rfl, rfl⟩ := List.cons.inj hcut
      obtain ⟨l, v, ns, rfl, hl⟩ := hls us op as rfl
      exact ⟨l, v, ns ++ ms, rfl, hl⟩

theorem Followed.cons (hl : ∀ op, l ≠ .compare op) (h : Followed ls) : Followed (l :: ls) := by
  intro us op vs hfull
  obtain ⟨-, hvs⟩ | ⟨us, rfl, hvs⟩ := List.append_eq_cons_iff.1 hfull.symm
  · exact absurd (List.cons.inj hvs).1.symm (hl op)
  · exact h us op vs hvs

theorem IsWord.ne_compare (h : IsWord k l) (op : Operator) : l ≠ .compare op := by
  cases h
  simp

theorem IsValue.ne_compare {v : Value} (h : IsValue l v) (op : Operator) : l ≠ .compare op := by
  cases h with
  | string s | number x => simp
  | true hw | false hw | null hw => exact hw.ne_compare op

theorem IsValue.followed {v : Value} (h : IsValue l v) : Followed [l] :=
  followed_nil.cons h.ne_compare

theorem followed_of_isList {vs : List Value} (h : IsList ls vs) : Followed ls := by
  have hclose : Followed [.closeBracket] := followed_nil.cons (by simp)
  cases h with
  | empty => exact hclose.cons (by simp)
  | values hvs =>
    refine .cons (by simp) (.append ?_ hclose)
    induction hvs with
    | one hl => exact hl.followed
    | more hl _ ih => exact (ih.cons (by simp)).cons hl.ne_compare

theorem followed_of_isTest {op : Operator} {v : Operand} (h : IsTest ls op v) : Followed ls := by
  cases h with
  | @compare op l v hl =>
    intro us op' vs hfull
    obtain ⟨rfl, hvs⟩ | ⟨us, rfl, hvs⟩ := List.append_eq_cons_iff.1 hfull.symm
    · obtain ⟨-, rfl⟩ := List.cons.inj hvs
      exact ⟨l, v, [], rfl, hl⟩
    · obtain ⟨l', v', ms, rfl, hl'⟩ := hl.followed us op' vs hvs
      exact ⟨l', v', ms, rfl, hl'⟩
  | oneOf hw hvs => exact (followed_of_isList hvs).cons hw.ne_compare
  | noneOf hn hw hvs => exact ((followed_of_isList hvs).cons hw.ne_compare).cons hn.ne_compare
  | contains hw hl | startsWith hw hl | endsWith hw hl => exact hl.followed.cons hw.ne_compare
  | startsThenWith hs hw hl | endsThenWith hs hw hl =>
    exact (hl.followed.cons hw.ne_compare).cons hs.ne_compare
  | between hb hlow ha hhigh =>
    exact ((hhigh.followed.cons ha.ne_compare).cons hlow.ne_compare).cons hb.ne_compare
  | isNull hi hn => exact (followed_nil.cons hn.ne_compare).cons hi.ne_compare
  | isNotNull hi ht hn =>
    exact ((followed_nil.cons hn.ne_compare).cons ht.ne_compare).cons hi.ne_compare

theorem followed_of_links {c : Combinator} {links : List Link}
    (hwords : ∀ x ∈ links, IsWord (joining c) x.word) (h : ∀ x ∈ links, Followed x.lexemes) :
    Followed (links.flatMap Link.text) := by
  induction links with
  | nil => exact followed_nil
  | cons x links ih =>
    rw [List.forall_mem_cons] at hwords h
    exact (h.1.cons hwords.1.ne_compare).append (ih hwords.2 h.2)

theorem followed_of_derives {ph : Phrase} {r : Rule} (h : Derives ph ls r) : Followed ls := by
  induction h with
  | comparison hc =>
    cases hc with
    | test hfield htest =>
      refine (followed_of_isTest htest).cons ?_
      cases hfield
      simp
  | paren _ ih => exact (ih.append (followed_nil.cons (by simp))).cons (by simp)
  | single _ _ ih => exact ih
  | group _ _ _ hwords _ ih ihs => exact ih.append (followed_of_links hwords ihs)

end Signs

end RuleFilter.Grammar
