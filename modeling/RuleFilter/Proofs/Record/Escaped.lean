import Mathlib.Data.List.TakeWhile
import RuleFilter.Proofs.Text.Markup
import RuleFilter.Record.Hook

/-!
Records with escaped fields. Escaping goes from field to field and looks at one at a time, so what
it leaves is known field by field: a text is escaped as often as its field is listed before the
first field that is refused.
-/

namespace RuleFilter

namespace Hook

/-- Why a field of a record cannot be escaped: it holds something else than text. -/
def refusal? (r : Record) (field : String) : Option HookError :=
  (Entries.value? r field).bind fun
    | .null | .string _ => none
    | v => some (.notText field v.kind)

def escaped : Json → Json
  | .string s => .string (Text.escapeHtml s)
  | v => v

def escapeField (r : Record) (field : String) : Record :=
  match Entries.value? r field with
  | some (.string s) => Entries.put r field (.string (Text.escapeHtml s))
  | _ => r

variable {r : Record} {field name : String} {fields : List String}

theorem escapeFields_cons (field : String) (fields : List String) (r : Record) :
    escapeFields (field :: fields) r =
      match refusal? r field with
      | none => escapeFields fields (escapeField r field)
      | some e => (r, some e) := by
  rw [escapeFields, refusal?, escapeField]
  cases Entries.value? r field with
  | none => rfl
  | some v => cases v <;> rfl

theorem value?_escapeField_self (r : Record) (field : String) :
    Entries.value? (escapeField r field) field = (Entries.value? r field).map escaped := by
  rw [escapeField]
  cases h : Entries.value? r field with
  | none => exact h
  | some v => cases v <;> simp [h, escaped]

theorem value?_escapeField_of_ne (r : Record) (h : name ≠ field) :
    Entries.value? (escapeField r field) name = Entries.value? r name := by
  rw [escapeField]
  split
  · exact Entries.value?_put_of_ne r _ h
  · rfl

/-- Escaping keeps text text, and all else as it is. -/
theorem refusal?_escapeField (r : Record) (field name : String) :
    refusal? (escapeField r field) name = refusal? r name := by
  rw [refusal?, refusal?]
  by_cases h : name = field
  · subst h
    rw [value?_escapeField_self]
    cases Entries.value? r name with
    | none => rfl
    | some v => cases v <;> rfl
  · rw [value?_escapeField_of_ne r h]

/-- Fields are escaped up to the first that is refused, whose refusal is the error. -/
theorem escapeFields_eq (fields : List String) (r : Record) : escapeFields fields r =
    ((fields.takeWhile fun field => (refusal? r field).isNone).foldl escapeField r,
      fields.findSome? (refusal? r)) := by
  induction fields generalizing r with
  | nil => rfl
  | cons field fields ih =>
    rw [escapeFields_cons, List.takeWhile_cons, List.findSome?_cons]
    cases h : refusal? r field with
    | none =>
      have hrefusal : refusal? (escapeField r field) = refusal? r :=
        funext (refusal?_escapeField r field)
      rw [ih, hrefusal]
      rfl
    | some e => rfl

theorem escapeFields_of_ok (h : (escapeFields fields r).2 = none) :
    (escapeFields fields r).1 = fields.foldl escapeField r := by
  rw [escapeFields_eq] at h ⊢
  have hfields := List.findSome?_eq_none_iff.1 h
  rw [List.takeWhile_eq_self_iff.2 (by simpa using hfields)]

theorem value?_foldl_escapeField (fields : List String) (r : Record) (name : String) :
    Entries.value? (fields.foldl escapeField r) name =
      (Entries.value? r name).map escaped^[fields.count name] := by
  induction fields generalizing r with
  | nil => simp
  | cons field fields ih =>
    rw [List.foldl_cons, ih]
    by_cases h : name = field
    · subst h
      rw [value?_escapeField_self, List.count_cons_self, Option.map_map,
        Function.iterate_succ]
    · rw [value?_escapeField_of_ne r h, List.count_cons_of_ne (Ne.symm h)]

theorem escaped_iterate_string (n : Nat) (s : String) :
    escaped^[n] (.string s) = .string (Text.escapeHtml^[n] s) := by
  induction n with
  | zero => rfl
  | succ n ih => rw [Function.iterate_succ_apply', ih, Function.iterate_succ_apply', escaped]

/-- Only text comes from escaping as text, and it is free of markup. -/
theorem isMarkupFree_of_escaped_iterate {n : Nat} (hn : n ≠ 0) {v : Json} {t : String}
    (h : escaped^[n] v = .string t) : Text.IsMarkupFree t := by
  obtain ⟨m, rfl⟩ := Nat.exists_eq_succ_of_ne_zero hn
  rw [Function.iterate_succ_apply'] at h
  cases hv : escaped^[m] v with
  | string s =>
    rw [hv, escaped, Json.string.injEq] at h
    exact h ▸ Text.isMarkupFree_escapeHtml s
  | _ => simp [hv, escaped] at h

/-- Escaping leaves a trace in a record just where one of the fields has something to escape. -/
theorem foldl_escapeField_eq_self_iff : fields.foldl escapeField r = r ↔
    ∀ field ∈ fields, ∀ s, Entries.value? r field = some (.string s) →
      ∀ c ∈ s.toList, Text.entity? c = none := by
  constructor
  · intro h field hfield s hs
    have hvalue := value?_foldl_escapeField fields r field
    rw [h, hs, Option.map_some, escaped_iterate_string, Option.some.injEq, Json.string.injEq]
      at hvalue
    have hcount : fields.count field ≠ 0 := Nat.pos_iff_ne_zero.1 (List.count_pos_iff.2 hfield)
    exact (Text.escapeHtml_iterate_eq_self_iff hcount).1 hvalue.symm
  · intro h
    induction fields with
    | nil => rfl
    | cons field fields ih =>
      rw [List.forall_mem_cons] at h
      have hfield : escapeField r field = r := by
        rw [escapeField]
        split
        · next s hs => rw [Text.escapeHtml_eq_self (h.1 s hs), Entries.put_of_value? hs]
        · rfl
      rw [List.foldl_cons, hfield]
      exact ih h.2

end Hook

end RuleFilter
