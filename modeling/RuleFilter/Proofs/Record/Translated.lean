import RuleFilter.Proofs.Entries
import RuleFilter.Proofs.Record.Localized

/-!
Records that are read with their translations. What a listed field holds afterwards is found in the
object of translations as it was when the record was read: an entry in the locale, else one in the
fallback, else what the field held. Where that object is not itself a listed field it is still there
afterwards, and the same entries are found again.
-/

namespace RuleFilter

namespace Hook

variable {r : Record} {translations : Json.Members} {locale field : String}
  {fallback : Option String} {fields locales : List String}

/-- An object of translations holds something other than null for a field, in the object that it
has for a locale. -/
def HasEntry (translations : Json.Members) (locale field : String) (v : Json) : Prop :=
  ∃ entries, Entries.value? translations locale = some (.object entries) ∧
    Entries.value? entries field = some v ∧ v ≠ .null

/-- What a field that held a value, or none, holds once it is translated. -/
inductive Resolves (translations : Json.Members) (locale : String) (fallback : Option String)
    (field : String) (stored : Option Json) : Option Json → Prop where
  | locale {v : Json} (h : HasEntry translations locale field v) :
    Resolves translations locale fallback field stored (some v)
  | fallback {other : String} {v : Json} (hlocale : ∀ w, ¬ HasEntry translations locale field w)
    (hfallback : fallback = some other) (h : HasEntry translations other field v) :
    Resolves translations locale fallback field stored (some v)
  | stored (hlocale : ∀ w, ¬ HasEntry translations locale field w)
    (hfallback : ∀ other, fallback = some other → ∀ w, ¬ HasEntry translations other field w) :
    Resolves translations locale fallback field stored stored

theorem localized?_eq_some_iff {v : Json} :
    localized? (.object translations) field locale = some v ↔
      HasEntry translations locale field v := by
  constructor
  · intro h
    rw [localized?] at h
    split at h
    · cases h
    · next hnull =>
      obtain ⟨w, hw, hv⟩ := Option.bind_eq_some_iff.1 h
      cases w with
      | object entries =>
        refine ⟨entries, hw, hv, ?_⟩
        rintro rfl
        exact hnull h
      | _ => cases hv
  · rintro ⟨entries, hentries, hv, hnull⟩
    rw [localized?, Json.member?, hentries, Option.bind_some, Json.member?, hv]
    cases v with
    | null => exact absurd rfl hnull
    | _ => rfl

theorem localized?_eq_none_iff : localized? (.object translations) field locale = none ↔
    ∀ v, ¬ HasEntry translations locale field v := by
  rw [Option.eq_none_iff_forall_ne_some]
  exact forall_congr' fun v => not_congr localized?_eq_some_iff

/-- A locale that has no entry leaves the search to the fallback, whatever it has instead. -/
theorem resolves_findSome? (translations : Json.Members) (locale : String)
    (fallback : Option String) (field : String) (stored : Option Json) :
    Resolves translations locale fallback field stored
      (((locale :: fallback.toList).findSome? (localized? (.object translations) field)).or
        stored) := by
  rw [List.findSome?_cons]
  cases hlocale : localized? (.object translations) field locale with
  | some v => exact .locale (localized?_eq_some_iff.1 hlocale)
  | none =>
    rw [localized?_eq_none_iff] at hlocale
    cases fallback with
    | none => exact .stored hlocale fun other hother => nomatch hother
    | some other =>
      rw [Option.toList_some, List.findSome?_cons]
      cases hother : localized? (.object translations) field other with
      | some v => exact .fallback hlocale rfl (localized?_eq_some_iff.1 hother)
      | none =>
        rw [localized?_eq_none_iff] at hother
        refine .stored hlocale fun name hname => ?_
        rw [← Option.some.inj hname]
        exact hother

/-- Values that are found where they already are change nothing when they are put. -/
theorem putLocalized_of_value? {values : Json}
    (h : ∀ field ∈ fields, ∀ v, locales.findSome? (localized? values field) = some v →
      Entries.value? r field = some v) : putLocalized fields locales values r = r := by
  refine Entries.putAll_of_value? fun entry hentry => ?_
  obtain ⟨field, hfield, hentry⟩ := List.mem_filterMap.1 hentry
  obtain ⟨v, hv, rfl⟩ := Option.map_eq_some_iff.1 hentry
  exact h field hfield v hv

theorem run_localize (h : Entries.value? r Record.localesKey = some (.object translations))
    (fields : List String) (locale : String) (fallback : Option String) (s : Supply) :
    (Hook.localize fields locale fallback).run .onRead r s =
      ⟨putLocalized fields (locale :: fallback.toList) (.object translations) r, s, none⟩ := by
  simp [run, localizeFields, h]

/-- A record that has an object of translations is read with each listed field resolved from that
object as it was, and the others as they were; fields that were there stay in their order. Unless
the translations themselves are listed, the record is the same when it is read once more. -/
theorem resolves_of_translations
    (h : Entries.value? r Record.localesKey = some (.object translations))
    (fields : List String) (locale : String) (fallback : Option String) (s : Supply) :
    let hook := Hook.localize fields locale fallback
    let o := hook.run .onRead r s
    o.error = none ∧
      (∀ name ∈ fields, Resolves translations locale fallback name (Entries.value? r name)
        (Entries.value? o.record name)) ∧
      (∀ name, name ∉ fields → Entries.value? o.record name = Entries.value? r name) ∧
      Entries.names r <+: Entries.names o.record ∧
      (Record.localesKey ∉ fields → ∀ s', hook.run .onRead o.record s' = ⟨o.record, s', none⟩) := by
  intro hook o
  have ho : o = ⟨putLocalized fields (locale :: fallback.toList) (.object translations) r, s,
    none⟩ := run_localize h fields locale fallback s
  have hvalue := value?_putLocalized fields (locale :: fallback.toList) (.object translations) r
  rw [ho]
  refine ⟨rfl, fun name hname => ?_, fun name hname => ?_, Entries.names_prefix_putAll r _,
    fun hkey s' => ?_⟩
  · rw [hvalue, if_pos hname]
    exact resolves_findSome? translations locale fallback name (Entries.value? r name)
  · rw [hvalue, if_neg hname, Option.none_or]
  · have hkept : Entries.value? (putLocalized fields (locale :: fallback.toList)
        (.object translations) r) Record.localesKey = some (.object translations) := by
      rw [hvalue, if_neg hkey, Option.none_or, h]
    rw [run_localize hkept, putLocalized_of_value?]
    intro name hname v hv
    rw [hvalue, if_pos hname, hv, Option.some_or]

/-- A notice with a whole translation, one that is missing a part and one that is no object. -/
def notice : Record :=
  [("title", "Broken login"), ("body", "Cannot sign in"),
    (Record.localesKey, .object [("fr", .object [("title", "Connexion en panne"), ("body", .null)]),
      ("de", .object [("title", "Anmeldung defekt"), ("body", "Keine Anmeldung")]), ("it", "-")])]

def noticeSupply : Supply := { identifier := fun _ => "n1" }

theorem resolves_of_translations_notice :
    let hook := Hook.localize ["body", "title", "summary"] "fr" (some "de")
    let o := hook.run .onRead notice noticeSupply
    (Entries.value? o.record "title" = some (.string "Connexion en panne") ∧
        Entries.value? o.record "body" = some (.string "Keine Anmeldung") ∧
        Entries.value? o.record "summary" = none) ∧
      hook.run .onRead o.record o.supply = ⟨o.record, o.supply, none⟩ ∧
      Entries.value? ((Hook.localize ["title"] "it" none).run .onRead notice
        noticeSupply).record "title" = some (.string "Broken login") := by
  intro hook o
  obtain ⟨-, -, -, -, hagain⟩ := resolves_of_translations (r := notice) rfl
    ["body", "title", "summary"] "fr" (some "de") noticeSupply
  exact ⟨⟨rfl, rfl, rfl⟩, hagain (by decide) o.supply, rfl⟩

end Hook

end RuleFilter
