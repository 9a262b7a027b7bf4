import RuleFilter.Proofs.Text.Markup

/-!
Entities. Escaping can be undone: every ampersand of an escaped text begins an entity, and where
entities are replaced from left to right the text that was escaped comes back, whatever entities it
held of its own.
-/

namespace RuleFilter.Text

/-- The entities that escaped text is written with. -/
def entities : List String := ["&amp;", "&lt;", "&gt;", "&quot;", "&#x27;"]

/-- Replaces entities with what they stand for, from left to right. -/
def replaceEntities : List Char → List Char
  | '&' :: 'a' :: 'm' :: 'p' :: ';' :: cs => '&' :: replaceEntities cs
  | '&' :: 'l' :: 't' :: ';' :: cs => '<' :: replaceEntities cs
  | '&' :: 'g' :: 't' :: ';' :: cs => '>' :: replaceEntities cs
  | '&' :: 'q' :: 'u' :: 'o' :: 't' :: ';' :: cs => '"' :: replaceEntities cs
  | '&' :: '#' :: 'x' :: '2' :: '7' :: ';' :: cs => '\'' :: replaceEntities cs
  | c :: cs => c :: replaceEntities cs
  | [] => []

/-- A text is safe in markup and in quoted attributes, and tells the text that it was made from. -/
structure Encodes (t s : String) : Prop where
  isMarkupFree : IsMarkupFree t
  ampersand : ∀ rest, '&' :: rest <:+ t.toList → ∃ e ∈ entities, e.toList <+: '&' :: rest
  replaced : String.ofList (replaceEntities t.toList) = s

theorem replaceEntities_cons {c : Char} (h : c ≠ '&') (cs : List Char) :
    replaceEntities (c :: cs) = c :: replaceEntities cs := by
  rw [replaceEntities.eq_def]
  split <;> simp_all

theorem ne_ampersand_of_entity? {c : Char} (h : entity? c = none) : c ≠ '&' := by
  rintro rfl
  cases h

theorem replaceEntities_escapeChar (c : Char) (cs : List Char) :
    replaceEntities (escapeChar c ++ cs) = c :: replaceEntities cs := by
  by_cases h : entity? c = none
  · rw [escapeChar_of_entity? h, List.singleton_append,
      replaceEntities_cons (ne_ampersand_of_entity? h)]
  · unfold escapeChar
    unfold entity? at h ⊢
    split at h
    case h_6 => exact absurd rfl h
    all_goals rfl

theorem replaceEntities_escape (cs : List Char) :
    replaceEntities (cs.flatMap escapeChar) = cs := by
  induction cs with
  | nil => rfl
  | cons c cs ih => rw [List.flatMap_cons, replaceEntities_escapeChar, ih]

theorem mem_entities {c : Char} {e : String} (h : entity? c = some e) : e ∈ entities := by
  unfold entity? at h
  split at h <;> simp_all [entities]

theorem exists_tail_of_mem_entities :
    ∀ e ∈ entities, ∃ tail, e.toList = '&' :: tail ∧ '&' ∉ tail := by
  simp [entities]

theorem cons_suffix_of_append {c : Char} {rest tail cs : List Char} (hc : c ∉ tail)
    (h : c :: rest <:+ tail ++ cs) : c :: rest <:+ cs := by
  induction tail with
  | nil => exact h
  | cons d tail ih =>
    obtain ⟨hd, htail⟩ := not_or.1 (List.mem_cons.not.1 hc)
    obtain heq | hlater := List.suffix_cons_iff.1 h
    · exact absurd (List.cons.inj heq).1 hd
    · exact ih htail hlater

/-- An ampersand in an escaped character is the first of its entity. -/
theorem ampersand_escapeChar {c : Char} {cs rest : List Char}
    (h : '&' :: rest <:+ escapeChar c ++ cs) :
    (∃ e ∈ entities, e.toList <+: '&' :: rest) ∨ '&' :: rest <:+ cs := by
  cases hc : entity? c with
  | none =>
    rw [escapeChar_of_entity? hc] at h
    refine .inr (cons_suffix_of_append ?_ h)
    exact List.mem_singleton.not.2 (ne_ampersand_of_entity? hc).symm
  | some e =>
    have hmem := mem_entities hc
    obtain ⟨tail, he, htail⟩ := exists_tail_of_mem_entities e hmem
    have hescape : escapeChar c = e.toList := by rw [escapeChar, hc, Option.elim_some]
    rw [hescape] at h
    rw [he, List.cons_append, List.suffix_cons_iff, ← List.cons_append, ← he] at h
    obtain heq | hlater := h
    · exact .inl ⟨e, hmem, heq ▸ List.prefix_append _ _⟩
    · exact .inr (cons_suffix_of_append htail hlater)

theorem ampersand_escape {cs rest : List Char} (h : '&' :: rest <:+ cs.flatMap escapeChar) :
    ∃ e ∈ entities, e.toList <+: '&' :: rest := by
  induction cs with
  | nil => simp at h
  | cons c cs ih =>
    rw [List.flatMap_cons] at h
    obtain hentity | hlater := ampersand_escapeChar h
    · exact hentity
    · exact ih hlater

theorem encodes_escapeHtml (s : String) : Encodes (escapeHtml s) s where
  isMarkupFree := isMarkupFree_escapeHtml s
  ampersand := fun rest h => by
    rw [toList_escapeHtml] at h
    exact ampersand_escape h
  replaced := by rw [toList_escapeHtml, replaceEntities_escape, String.ofList_toList]

end RuleFilter.Text
