import RuleFilter.Proofs.Record.Escaped

/-!
Chains that fail. The hooks before one that fails have done their work and those after it do not
run. A hook looks at all that it needs before it changes the record, so that it leaves no trace
where it fails; only escaping goes field by field, and what it has escaped stays escaped.
-/

namespace RuleFilter

namespace Hook

variable {point : Point} {r : Record} {s : Supply} {e : HookError}

theorem record_assignNumber_of_error {field lead : String} {width : Nat} {source : NumberSource}
    (h : (assignNumber field lead width source r s).error = some e) :
    (assignNumber field lead width source r s).record = r := by
  revert h
  unfold assignNumber
  split
  · split
    · exact fun _ => rfl
    · exact fun h => nomatch h
  · exact fun _ => rfl

theorem record_assignDefaults_of_error {entity : String} {source : DefaultSource}
    (h : (assignDefaults entity source r s).error = some e) :
    (assignDefaults entity source r s).record = r := by
  revert h
  unfold assignDefaults
  split
  · exact fun h => nomatch h
  · split
    · exact fun _ => rfl
    · exact fun h => nomatch h

theorem localizeFields_of_error {fields locales : List String}
    (h : (localizeFields fields locales r).2 = some e) :
    (localizeFields fields locales r).1 = r := by
  revert h
  unfold localizeFields
  split
  · exact fun _ => rfl
  · exact fun h => nomatch h
  · exact fun _ => rfl

theorem error_drawIdentifier (field : String) (r : Record) (s : Supply) :
    (drawIdentifier field r s).error = none := by
  unfold drawIdentifier
  split <;> rfl

/-- A hook that does not escape leaves a record as it found it where it fails. -/
theorem record_run_of_error {hook : Hook} (hhook : ∀ fields, hook ≠ .htmlSafe fields)
    (h : (hook.run point r s).error = some e) : (hook.run point r s).record = r := by
  cases hook with
  | identifier field =>
    cases point with
    | beforeInsert =>
      rw [run, error_drawIdentifier] at h
      cases h
    | beforeUpdate | onRead => cases h
  | number field lead width source =>
    cases point with
    | beforeInsert => exact record_assignNumber_of_error h
    | beforeUpdate | onRead => cases h
  | defaults entity source =>
    cases point with
    | beforeInsert => exact record_assignDefaults_of_error h
    | beforeUpdate | onRead => cases h
  | htmlSafe fields => exact absurd rfl (hhook fields)
  | localize fields locale fallback =>
    cases point with
    | onRead => exact localizeFields_of_error h
    | beforeInsert | beforeUpdate => cases h

theorem run_htmlSafe (hpoint : point ≠ .onRead) (fields : List String) (r : Record) (s : Supply) :
    (Hook.htmlSafe fields).run point r s =
      ⟨(escapeFields fields r).1, s, (escapeFields fields r).2⟩ := by
  cases point with
  | beforeInsert | beforeUpdate => rfl
  | onRead => exact absurd rfl hpoint

theorem exists_refusal_of_error {fields : List String}
    (h : ((Hook.htmlSafe fields).run point r s).error = some e) :
    ∃ done field rest, fields = done ++ field :: rest ∧ refusal? r field = some e ∧
      ((Hook.htmlSafe fields).run point r s).record = done.foldl escapeField r := by
  have hpoint : point ≠ .onRead := by
    rintro rfl
    cases h
  rw [run_htmlSafe hpoint, escapeFields_eq] at h ⊢
  obtain ⟨done, field, rest, rfl, hfield, hdone⟩ := List.findSome?_eq_some_iff.1 h
  have htake : (done ++ field :: rest).takeWhile (fun name => (refusal? r name).isNone) = done := by
    rw [List.takeWhile_append_of_pos (by simpa using hdone), List.takeWhile_cons, hfield]
    exact List.append_nil done
  exact ⟨done, field, rest, rfl, hfield, by rw [htake]⟩

/-- How a hook that fails turns the outcome that it found into the one that it leaves. Only escaping
can leave another record: the fields listed before the one that it refuses are escaped, which shows
just where one of them has something to escape. -/
structure Fails (hook : Hook) (point : Point) (found left : Outcome) (e : HookError) : Prop where
  found_error : found.error = none
  left_eq : left = hook.run point found.record found.supply
  left_error : left.error = some e
  record_eq : (∀ fields, hook ≠ .htmlSafe fields) → left.record = found.record
  escaped : ∀ fields, hook = .htmlSafe fields → ∃ done field rest, fields = done ++ field :: rest ∧
    refusal? found.record field = some e ∧ left.record = done.foldl escapeField found.record ∧
    (left.record = found.record ↔
      ∀ name ∈ done, ∀ t, Entries.value? found.record name = some (.string t) →
        ∀ c ∈ t.toList, Text.entity? c = none)

theorem fails_of_error {hook : Hook} {found : Outcome} (hfound : found.error = none)
    (h : (hook.run point found.record found.supply).error = some e) :
    hook.Fails point found (hook.run point found.record found.supply) e where
  found_error := hfound
  left_eq := rfl
  left_error := h
  record_eq := fun hhook => record_run_of_error hhook h
  escaped := by
    rintro fields rfl
    obtain ⟨done, field, rest, hfields, hfield, hrecord⟩ := exists_refusal_of_error h
    refine ⟨done, field, rest, hfields, hfield, hrecord, ?_⟩
    rw [hrecord, foldl_escapeField_eq_self_iff]

namespace Chain

variable {hook : Hook} {chain : Chain}

theorem run_cons_of_error (h : (hook.run point r s).error = some e) (hooks : Chain) :
    Chain.run point (hook :: hooks) r s = hook.run point r s := by
  simp [Chain.run, h]

theorem run_cons_of_ok (h : (hook.run point r s).error = none) (hooks : Chain) :
    Chain.run point (hook :: hooks) r s =
      Chain.run point hooks (hook.run point r s).record (hook.run point r s).supply := by
  simp [Chain.run, h]

theorem error_of_run_cons {hooks : Chain}
    (h : (Chain.run point (hook :: hooks) r s).error = none) :
    (hook.run point r s).error = none := by
  cases hhook : (hook.run point r s).error with
  | none => rfl
  | some e =>
    rw [run_cons_of_error hhook, hhook] at h
    cases h

/-- A run that does not fail is a run of its first hooks that does not, and then one of the rest. -/
theorem run_append_of_ok {later : Chain}
    (h : (Chain.run point (chain ++ later) r s).error = none) :
    (Chain.run point chain r s).error = none ∧ Chain.run point (chain ++ later) r s =
      Chain.run point later (Chain.run point chain r s).record
        (Chain.run point chain r s).supply := by
  induction chain generalizing r s with
  | nil => exact ⟨rfl, rfl⟩
  | cons hook hooks ih =>
    rw [List.cons_append] at h ⊢
    have hhook := error_of_run_cons h
    rw [run_cons_of_ok hhook] at h
    rw [run_cons_of_ok hhook, run_cons_of_ok hhook]
    exact ih h

/-- A run ends with the first hook that fails, where the hooks before it have brought it. -/
theorem exists_hook_of_error (h : (Chain.run point chain r s).error = some e) :
    ∃ earlier hook later, chain = earlier ++ hook :: later ∧
      (Chain.run point earlier r s).error = none ∧
      Chain.run point chain r s = hook.run point (Chain.run point earlier r s).record
        (Chain.run point earlier r s).supply := by
  induction chain generalizing r s with
  | nil => cases h
  | cons hook hooks ih =>
    cases hhook : (hook.run point r s).error with
    | some e' => exact ⟨[], hook, hooks, rfl, rfl, run_cons_of_error hhook hooks⟩
    | none =>
      rw [run_cons_of_ok hhook] at h
      obtain ⟨earlier, failing, later, rfl, hearlier, hrun⟩ := ih h
      refine ⟨hook :: earlier, failing, later, rfl, ?_, ?_⟩
      · rw [run_cons_of_ok hhook, hearlier]
      · rw [run_cons_of_ok hhook, run_cons_of_ok hhook, hrun]

/-- Whenever a run fails, one hook fails on what the hooks before it have made of the record, and
leaves that record unless it escapes; no hook runs after it. -/
theorem exists_fails_of_error (h : (Chain.run point chain r s).error = some e) :
    ∃ earlier hook later, chain = earlier ++ hook :: later ∧
      hook.Fails point (Chain.run point earlier r s) (Chain.run point chain r s) e := by
  obtain ⟨earlier, hook, later, hchain, hearlier, hrun⟩ := exists_hook_of_error h
  refine ⟨earlier, hook, later, hchain, ?_⟩
  rw [hrun] at h ⊢
  exact fails_of_error hearlier h

/-- A post with text in one field and a number in the next. -/
def post : Record := [("title", "<b>"), ("body", .integer 1)]

def postHooks : Chain :=
  [.identifier "id", .htmlSafe ["title", "body"], .defaults "post" (.fixed [("state", "new")])]

def postSupply : Supply := { identifier := fun _ => "p1" }

theorem exists_fails_post :
    let left := Chain.run .beforeInsert postHooks post postSupply
    left.record = ([("title", "&lt;b&gt;"), ("body", .integer 1), ("id", "p1")] : Record) ∧
      ∃ earlier hook later, postHooks = earlier ++ hook :: later ∧
        hook.Fails .beforeInsert (Chain.run .beforeInsert earlier post postSupply) left
          (.notText "body" "number") := by
  intro left
  have herror : left.error = some (.notText "body" "number") := rfl
  exact ⟨rfl, exists_fails_of_error herror⟩

/-- A hook can fail and leave another record than it found. -/
theorem not_record_eq_of_error : ¬ ∀ (point : Point) (earlier : Chain) (hook : Hook) (later : Chain)
    (r : Record) (s : Supply) (e : HookError),
    (Chain.run point earlier r s).error = none →
    (hook.run point (Chain.run point earlier r s).record
      (Chain.run point earlier r s).supply).error = some e →
    (Chain.run point (earlier ++ hook :: later) r s).record =
      (Chain.run point earlier r s).record := by
  intro h
  have hrecord := h .beforeInsert [] (.htmlSafe ["title", "body"]) [] post postSupply _ rfl rfl
  have htitle : some (Json.string "&lt;b&gt;") = some (Json.string "<b>") :=
    congrArg (fun r => Entries.value? r "title") hrecord
  simp at htitle

end Chain

end Hook

end RuleFilter
