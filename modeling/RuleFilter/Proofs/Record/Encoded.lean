import RuleFilter.Proofs.Entries
import RuleFilter.Proofs.Record.Chain
import RuleFilter.Proofs.Text.Entity

/-!
Records whose listed fields are escaped. A record is refused just where one of the fields holds
something else than text, by the first that does. Where none does, each text among the fields is
replaced with a safe one that tells it, and nothing else about the record changes.
-/

namespace RuleFilter

/-- A field holds a value that is neither null nor text. -/
def Record.HoldsOther (r : Record) (field : String) (v : Json) : Prop :=
  Entries.value? r field = some v ∧ v ≠ .null ∧ ∀ t, v ≠ .string t

namespace Hook

variable {point : Point} {r r' : Record} {s : Supply} {e : HookError} {field : String}
  {fields : List String}

theorem refusal?_eq_some_iff :
    refusal? r field = some e ↔ ∃ v, r.HoldsOther field v ∧ e = .notText field v.kind := by
  rw [refusal?, Option.bind_eq_some_iff]
  constructor
  · rintro ⟨v, hv, he⟩
    cases v with
    | null | string t => cases he
    | _ => exact ⟨_, ⟨hv, by simp, by simp⟩, (Option.some.inj he).symm⟩
  · rintro ⟨v, ⟨hv, hnull, htext⟩, rfl⟩
    refine ⟨v, hv, ?_⟩
    cases v with
    | null => exact absurd rfl hnull
    | string t => exact absurd rfl (htext t)
    | _ => rfl

theorem refusal?_eq_none_iff : refusal? r field = none ↔ ∀ v, ¬ r.HoldsOther field v := by
  constructor
  · intro h v hv
    have hsome := refusal?_eq_some_iff.2 ⟨v, hv, rfl⟩
    rw [h] at hsome
    cases hsome
  · intro h
    cases hrefusal : refusal? r field with
    | none => rfl
    | some e =>
      obtain ⟨v, hv, -⟩ := refusal?_eq_some_iff.1 hrefusal
      exact absurd hv (h v)

theorem names_escapeField (r : Record) (field : String) :
    Entries.names (escapeField r field) = Entries.names r := by
  rw [escapeField]
  split
  · next h => exact Entries.names_put_of_mem (Entries.mem_names_of_value? h) _
  · rfl

theorem names_foldl_escapeField (fields : List String) (r : Record) :
    Entries.names (fields.foldl escapeField r) = Entries.names r := by
  induction fields generalizing r with
  | nil => rfl
  | cons field fields ih => rw [List.foldl_cons, ih, names_escapeField]

/-- The second record is the first with its texts under some of the fields escaped: the names are
the same and in the same order, and so are all other values. -/
structure EncodesFields (fields : List String) (r r' : Record) : Prop where
  names : Entries.names r' = Entries.names r
  listed : ∀ field ∈ fields, ∀ t, Entries.value? r field = some (.string t) →
    Entries.value? r' field = some (.string (Text.escapeHtml t)) ∧
      Text.Encodes (Text.escapeHtml t) t
  other : ∀ name, (name ∈ fields → ∀ t, Entries.value? r name ≠ some (.string t)) →
    Entries.value? r' name = Entries.value? r name

theorem escaped_of_ne {v : Json} (h : ∀ t, v ≠ .string t) : escaped v = v := by
  cases v with
  | string t => exact absurd rfl (h t)
  | _ => rfl

theorem encodesFields_foldl (hfields : fields.Nodup) (r : Record) :
    EncodesFields fields r (fields.foldl escapeField r) where
  names := names_foldl_escapeField fields r
  listed := fun field hfield t ht => by
    rw [value?_foldl_escapeField, List.count_eq_one_of_mem hfields hfield, ht]
    exact ⟨rfl, Text.encodes_escapeHtml t⟩
  other := fun name hname => by
    rw [value?_foldl_escapeField]
    by_cases hmem : name ∈ fields
    · rw [List.count_eq_one_of_mem hfields hmem, Function.iterate_one]
      cases hv : Entries.value? r name with
      | none => rfl
      | some v =>
        rw [Option.map_some, escaped_of_ne]
        rintro t rfl
        exact hname hmem t hv
    · rw [List.count_eq_zero_of_not_mem hmem]
      exact Option.map_id_apply

/-- The error is the refusal of the first field, in the order in which they are listed, that holds
something else than text. -/
theorem findSome?_refusal?_eq_some_iff : fields.findSome? (refusal? r) = some e ↔
    ∃ done field rest v, fields = done ++ field :: rest ∧
      (∀ name ∈ done, ∀ w, ¬ r.HoldsOther name w) ∧ r.HoldsOther field v ∧
      e = .notText field v.kind := by
  rw [List.findSome?_eq_some_iff]
  constructor
  · rintro ⟨done, field, rest, hsplit, hrefusal, hdone⟩
    obtain ⟨v, hv, he⟩ := refusal?_eq_some_iff.1 hrefusal
    exact ⟨done, field, rest, v, hsplit,
      fun name hname => refusal?_eq_none_iff.1 (hdone name hname), hv, he⟩
  · rintro ⟨done, field, rest, v, hsplit, hdone, hv, he⟩
    exact ⟨done, field, rest, hsplit, refusal?_eq_some_iff.2 ⟨v, hv, he⟩,
      fun name hname => refusal?_eq_none_iff.2 (hdone name hname)⟩

theorem exists_findSome?_refusal?_iff : (∃ e, fields.findSome? (refusal? r) = some e) ↔
    ∃ field ∈ fields, ∃ v, r.HoldsOther field v := by
  rw [← Option.isSome_iff_exists, List.findSome?_isSome_iff]
  refine exists_congr fun field => and_congr_right fun _ => ?_
  rw [Option.isSome_iff_exists]
  constructor
  · rintro ⟨e, he⟩
    obtain ⟨v, hv, -⟩ := refusal?_eq_some_iff.1 he
    exact ⟨v, hv⟩
  · rintro ⟨v, hv⟩
    exact ⟨_, refusal?_eq_some_iff.2 ⟨v, hv, rfl⟩⟩

/-- Before a record is inserted or updated, it is refused just where a listed field holds something
else than text, by the name of the first such field and the kind of its value. Elsewhere the texts
under the listed fields are escaped, so that they are safe and still tell what they were, and the
rest stays as it is. -/
theorem encodesFields_or_refuses (hpoint : point ≠ .onRead) (hfields : fields.Nodup) (r : Record)
    (s : Supply) :
    let o := (Hook.htmlSafe fields).run point r s
    ((∃ e, o.error = some e) ↔ ∃ field ∈ fields, ∃ v, r.HoldsOther field v) ∧
      (∀ e, o.error = some e ↔ ∃ done field rest v, fields = done ++ field :: rest ∧
        (∀ name ∈ done, ∀ w, ¬ r.HoldsOther name w) ∧ r.HoldsOther field v ∧
        e = .notText field v.kind) ∧
      (o.error = none → EncodesFields fields r o.record) ∧ o.supply = s := by
  intro o
  have ho : o = ⟨(escapeFields fields r).1, s, (escapeFields fields r).2⟩ :=
    run_htmlSafe hpoint fields r s
  have herror : o.error = fields.findSome? (refusal? r) := by rw [ho, escapeFields_eq]
  rw [herror]
  refine ⟨exists_findSome?_refusal?_iff, fun e => findSome?_refusal?_eq_some_iff, ?_, ?_⟩
  · intro hnone
    have hrecord : o.record = fields.foldl escapeField r := by
      rw [ho]
      exact escapeFields_of_ok (by rw [escapeFields_eq, hnone])
    rw [hrecord]
    exact encodesFields_foldl hfields r
  · rw [ho]

/-- A page whose title holds markup and an entity. -/
def page : Record := [("id", .integer 7), ("title", "<b>Q&amp;A</b>"), ("body", .null)]

def pageSupply : Supply := { identifier := fun _ => "p1" }

theorem encodesFields_or_refuses_page :
    let o := (Hook.htmlSafe ["title", "body"]).run .beforeUpdate page pageSupply
    let refused := (Hook.htmlSafe ["title", "id"]).run .beforeUpdate page pageSupply
    (o.record = ([("id", .integer 7), ("title", "&lt;b&gt;Q&amp;amp;A&lt;/b&gt;"),
        ("body", .null)] : Record) ∧ EncodesFields ["title", "body"] page o.record) ∧
      refused.error = some (.notText "id" "number") ∧
      ∃ field ∈ ["title", "id"], ∃ v, page.HoldsOther field v := by
  intro o refused
  have hpoint : Point.beforeUpdate ≠ .onRead := by decide
  have htexts : ["title", "body"].Nodup := by decide
  have hother : ["title", "id"].Nodup := by decide
  obtain ⟨-, -, hencodes, -⟩ := encodesFields_or_refuses hpoint htexts page pageSupply
  obtain ⟨hrefuses, -⟩ := encodesFields_or_refuses hpoint hother page pageSupply
  have herror : refused.error = some (.notText "id" "number") := rfl
  exact ⟨⟨rfl, hencodes rfl⟩, herror, hrefuses.1 ⟨_, herror⟩⟩

end Hook

end RuleFilter
