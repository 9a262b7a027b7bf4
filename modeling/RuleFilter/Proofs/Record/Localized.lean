import RuleFilter.Proofs.Record.Chain

/-!
Records that are read after they were inserted. Escaping makes fields free of markup when a record
is inserted; translations, which are looked up when it is read, are put as they stand. A field that
was escaped holds markup only where a translation of it does.
-/

namespace RuleFilter

namespace Hook

variable {r : Record} {s : Supply} {name t : String}

/-- The value that a hook finds for a field of a record that is read. -/
def translation? (hook : Hook) (r : Record) (name : String) : Option Json :=
  match hook with
  | .localize fields locale fallback =>
    (Entries.value? r Record.localesKey).bind fun values =>
      if name ∈ fields then (locale :: fallback.toList).findSome? (localized? values name) else none
  | _ => none

theorem value?_putLocalized (fields locales : List String) (values : Json) (r : Record)
    (name : String) : Entries.value? (putLocalized fields locales values r) name =
      (if name ∈ fields then locales.findSome? (localized? values name) else none).or
        (Entries.value? r name) := by
  rw [putLocalized]
  induction fields generalizing r with
  | nil => rfl
  | cons field fields ih =>
    rw [List.filterMap_cons]
    by_cases hname : name = field
    · subst hname
      rw [if_pos List.mem_cons_self]
      cases hvalue : locales.findSome? (localized? values name) with
      | none =>
        simp only [Option.map_none]
        rw [ih, hvalue, ite_self]
      | some v =>
        simp only [Option.map_some, Entries.putAll_cons]
        rw [ih, hvalue, Entries.value?_put_self]
        split <;> rfl
    · simp only [List.mem_cons, hname, false_or]
      cases locales.findSome? (localized? values field) with
      | none => exact ih r
      | some v =>
        simp only [Option.map_some, Entries.putAll_cons]
        rw [ih, Entries.value?_put_of_ne r v hname]

/-- A hook on a record that is read puts the values that it finds, and nothing else. -/
theorem value?_run_onRead {hook : Hook} (h : (hook.run .onRead r s).error = none) (name : String) :
    Entries.value? (hook.run .onRead r s).record name =
      (hook.translation? r name).or (Entries.value? r name) := by
  cases hook with
  | localize fields locale fallback =>
    change (localizeFields fields (locale :: fallback.toList) r).2 = none at h
    change Entries.value? (localizeFields fields (locale :: fallback.toList) r).1 name = _
    rw [localizeFields] at h ⊢
    rw [translation?]
    cases hvalues : Entries.value? r Record.localesKey with
    | none => rfl
    | some values =>
      cases values with
      | object members => exact value?_putLocalized fields _ (.object members) r name
      | _ => simp [hvalues] at h
  | _ => rfl

namespace Chain

variable {earlier later : Chain} {fields : List String}

theorem exists_translation_of_onRead {chain : Chain} {v : Json}
    (h : (Chain.run .onRead chain r s).error = none)
    (hvalue : Entries.value? (Chain.run .onRead chain r s).record name = some v) :
    Entries.value? r name = some v ∨ ∃ earlier hook later, chain = earlier ++ hook :: later ∧
      hook.translation? (Chain.run .onRead earlier r s).record name = some v := by
  induction chain generalizing r s with
  | nil => exact .inl hvalue
  | cons hook hooks ih =>
    have hhook := error_of_run_cons h
    rw [run_cons_of_ok hhook] at h hvalue
    obtain hfound | ⟨earlier, translating, later, rfl, hfound⟩ := ih h hvalue
    · rw [value?_run_onRead hhook, Option.or_eq_some_iff] at hfound
      obtain hfound | ⟨-, hfound⟩ := hfound
      · exact .inr ⟨[], hook, hooks, rfl, hfound⟩
      · exact .inl hfound
    · refine .inr ⟨hook :: earlier, translating, later, rfl, ?_⟩
      rwa [run_cons_of_ok hhook]

/-- Translations are looked up only when a record is read. -/
theorem run_beforeInsert_of_localize
    (h : ∀ hook ∈ later, ∃ listed locale fallback, hook = .localize listed locale fallback) :
    Chain.run .beforeInsert later r s = ⟨r, s, none⟩ := by
  induction later with
  | nil => rfl
  | cons hook hooks ih =>
    rw [List.forall_mem_cons] at h
    obtain ⟨⟨listed, locale, fallback, rfl⟩, hhooks⟩ := h
    exact ih hhooks

theorem isMarkupFree_of_beforeInsert
    (hlater : ∀ hook ∈ later, ∃ listed locale fallback, hook = .localize listed locale fallback)
    (h : (Chain.run .beforeInsert (earlier ++ .htmlSafe fields :: later) r s).error = none)
    (hname : name ∈ fields)
    (hvalue : Entries.value?
      (Chain.run .beforeInsert (earlier ++ .htmlSafe fields :: later) r s).record name =
        some (.string t)) : Text.IsMarkupFree t := by
  have happend := (run_append_of_ok h).2
  rw [happend] at h hvalue
  generalize Chain.run .beforeInsert earlier r s = found at h hvalue
  have hrun := run_htmlSafe (by decide : Point.beforeInsert ≠ .onRead) fields found.record
    found.supply
  have hhook := error_of_run_cons h
  rw [run_cons_of_ok hhook, run_beforeInsert_of_localize hlater, hrun] at hvalue
  rw [hrun] at hhook
  rw [escapeFields_of_ok hhook, value?_foldl_escapeField, Option.map_eq_some_iff] at hvalue
  obtain ⟨v, -, hv⟩ := hvalue
  exact isMarkupFree_of_escaped_iterate (Nat.pos_iff_ne_zero.1 (List.count_pos_iff.2 hname)) hv

/-- Where the last hook that acts on insertion escapes a field, the field is free of markup when the
record is read back, unless it holds a translation, which is put as it stands in the record. -/
theorem isMarkupFree_or_translation
    (hlater : ∀ hook ∈ later, ∃ listed locale fallback, hook = .localize listed locale fallback) :
    let chain := earlier ++ .htmlSafe fields :: later
    let inserted := Chain.run .beforeInsert chain r s
    let read := Chain.run .onRead chain inserted.record inserted.supply
    inserted.error = none → read.error = none → ∀ name ∈ fields, ∀ t,
      Entries.value? read.record name = some (.string t) →
        Text.IsMarkupFree t ∨ ∃ before hook after, chain = before ++ hook :: after ∧
          hook.translation? (Chain.run .onRead before inserted.record inserted.supply).record name =
            some (.string t) := by
  intro chain inserted read hinserted hread name hname t hvalue
  obtain hfound | htranslation := exists_translation_of_onRead hread hvalue
  · exact .inl (isMarkupFree_of_beforeInsert hlater hinserted hname hfound)
  · exact .inr htranslation

/-- An article whose title has markup in another locale. -/
def article : Record :=
  [("title", "<i>"), ("summary", "a < b"),
    (Record.localesKey, .object [("fr", .object [("title", "<b>")])])]

def articleSupply : Supply := { identifier := fun _ => "a1" }

theorem isMarkupFree_or_translation_article :
    let chain : Chain :=
      [.identifier "id", .htmlSafe ["title", "summary"], .localize ["title", "summary"] "fr" none]
    let inserted := Chain.run .beforeInsert chain article articleSupply
    let read := Chain.run .onRead chain inserted.record inserted.supply
    (Entries.value? read.record "title" = some (.string "<b>") ∧
      Entries.value? read.record "summary" = some (.string "a &lt; b")) ∧
    ∀ name ∈ ["title", "summary"], ∀ t, Entries.value? read.record name = some (.string t) →
      Text.IsMarkupFree t ∨ ∃ before hook after, chain = before ++ hook :: after ∧
        hook.translation? (Chain.run .onRead before inserted.record inserted.supply).record name =
          some (.string t) :=
  ⟨⟨rfl, rfl⟩, @isMarkupFree_or_translation article articleSupply [.identifier "id"]
    [.localize ["title", "summary"] "fr" none] ["title", "summary"] (by simp) rfl rfl⟩

/-- A field that was escaped can hold markup when it is read back. -/
theorem not_isMarkupFree_of_onRead : ¬ ∀ (earlier later : Chain) (fields : List String) (r : Record)
    (s : Supply), fields.Nodup →
    (∀ hook ∈ later, ∃ listed locale fallback, hook = .localize listed locale fallback) →
    let chain := earlier ++ .htmlSafe fields :: later
    let inserted := Chain.run .beforeInsert chain r s
    let read := Chain.run .onRead chain inserted.record inserted.supply
    inserted.error = none → read.error = none → ∀ name ∈ fields, ∀ t,
      Entries.value? read.record name = some (.string t) → Text.IsMarkupFree t := by
  intro h
  have htitle := h [] [.localize ["title"] "fr" none] ["title"] article articleSupply (by simp)
    (by simp) rfl rfl "title" (by simp) "<b>" rfl
  exact htitle '<' (by simp) (by simp)

end Chain

end Hook

end RuleFilter
