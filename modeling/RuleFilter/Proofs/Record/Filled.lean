import RuleFilter.Proofs.Entries
import RuleFilter.Proofs.Record.Chain

/-!
Chains that fill. Identifiers, numbers and default values go only where a record has no value, so
that whatever it had stays in its place. A hook that has run without an error is settled: it finds
nothing to do in the record that it leaves, nor in any record that other hooks fill further. Where
all hooks of a chain have run, all are settled, and the chain does nothing when it runs again.
-/

namespace RuleFilter

namespace Record

variable {r r' r'' : Record} {field name : String}

theorem lacks_eq_false_iff :
    r.lacks name = false ↔ ∃ v, Entries.value? r name = some v ∧ v ≠ .null := by
  rw [lacks]
  cases h : Entries.value? r name with
  | none => simp
  | some v => cases v <;> simp

theorem lacks_eq_true_iff : r.lacks name = true ↔
    Entries.value? r name = none ∨ Entries.value? r name = some .null := by
  rw [lacks]
  cases h : Entries.value? r name with
  | none => simp
  | some v => cases v <;> simp

/-- The names of the first record come first in the second and in the same order, and each value of
the first other than null is there in the second. -/
structure Kept (r r' : Record) : Prop where
  names : Entries.names r <+: Entries.names r'
  value : ∀ name v, Entries.value? r name = some v → v ≠ .null → Entries.value? r' name = some v

namespace Kept

theorem refl (r : Record) : Kept r r := ⟨List.prefix_rfl, fun _ _ h _ => h⟩

theorem trans (h : Kept r r') (h' : Kept r' r'') : Kept r r'' where
  names := h.names.trans h'.names
  value := fun name v hv hnull => h'.value name v (h.value name v hv hnull) hnull

theorem lacks (h : Kept r r') (hname : r.lacks name = false) : r'.lacks name = false := by
  obtain ⟨v, hv, hnull⟩ := lacks_eq_false_iff.1 hname
  exact lacks_eq_false_iff.2 ⟨v, h.value name v hv hnull, hnull⟩

theorem put (h : r.lacks field = true) (v : Json) : Kept r (Entries.put r field v) where
  names := Entries.names_prefix_put r field v
  value := fun name w hw hnull => by
    have hne : name ≠ field := by
      rintro rfl
      rw [lacks_eq_false_iff.2 ⟨w, hw, hnull⟩] at h
      cases h
    rw [Entries.value?_put_of_ne r v hne, hw]

end Kept

/-- A value put where a record has none. -/
def fill (r : Record) (field : String) (v : Json) : Record :=
  if r.lacks field then Entries.put r field v else r

/-- A field has a value, or it is null and null is all that there is to put. -/
def Filled (r : Record) (field : String) (v : Json) : Prop :=
  r.lacks field = false ∨ v = .null ∧ field ∈ Entries.names r

theorem Filled.mono {v : Json} (h : r.Filled field v) (hr : Kept r r') : r'.Filled field v :=
  h.imp hr.lacks fun ⟨hv, hfield⟩ => ⟨hv, hr.names.subset hfield⟩

theorem kept_fill (r : Record) (field : String) (v : Json) : Kept r (r.fill field v) := by
  rw [fill]
  split
  · next h => exact Kept.put h v
  · exact Kept.refl r

theorem filled_fill (r : Record) (field : String) (v : Json) : (r.fill field v).Filled field v := by
  rw [fill]
  split
  · next h =>
    by_cases hnull : v = .null
    · refine .inr ⟨hnull, ?_⟩
      rw [Entries.names_put]
      split <;> simp_all
    · exact .inl (lacks_eq_false_iff.2 ⟨v, Entries.value?_put_self r field v, hnull⟩)
  · next h => exact .inl (by simpa using h)

theorem lacks_fill_string (r : Record) (field t : String) :
    (r.fill field (.string t)).lacks field = false :=
  (r.filled_fill field (.string t)).resolve_right fun h => nomatch h.1

theorem fill_of_filled {v : Json} (h : r.Filled field v) : r.fill field v = r := by
  rw [fill]
  split
  · next hlacks =>
    obtain hvalue | ⟨rfl, hfield⟩ := h
    · rw [hvalue] at hlacks
      cases hlacks
    · obtain hnone | hnull := lacks_eq_true_iff.1 hlacks
      · exact absurd hfield (Entries.value?_eq_none_iff.1 hnone)
      · exact Entries.put_of_value? hnull
  · rfl

end Record

namespace Hook

variable {hook : Hook} {values r r' : Record} {s s' : Supply}

theorem putDefaults_cons (field : String) (v : Json) (values r : Record) :
    putDefaults ((field, v) :: values) r = putDefaults values (r.fill field v) := rfl

theorem kept_putDefaults (values r : Record) : r.Kept (putDefaults values r) := by
  induction values generalizing r with
  | nil => exact Record.Kept.refl r
  | cons value values ih => exact (r.kept_fill value.1 value.2).trans (ih _)

theorem filled_putDefaults (values r : Record) :
    ∀ value ∈ values, (putDefaults values r).Filled value.1 value.2 := by
  induction values generalizing r with
  | nil => exact fun _ h => nomatch h
  | cons value values ih =>
    obtain ⟨field, v⟩ := value
    rw [putDefaults_cons, List.forall_mem_cons]
    exact ⟨(r.filled_fill field v).mono (kept_putDefaults values _), ih _⟩

theorem putDefaults_of_filled (h : ∀ value ∈ values, r.Filled value.1 value.2) :
    putDefaults values r = r := by
  induction values with
  | nil => rfl
  | cons value values ih =>
    obtain ⟨field, v⟩ := value
    rw [List.forall_mem_cons] at h
    rw [putDefaults_cons, Record.fill_of_filled h.1, ih h.2]

/-- The hooks that fill, and those that have nothing to do on insertion. -/
inductive IsFilling : Hook → Prop where
  | identifier (field : String) : IsFilling (.identifier field)
  | number (field lead : String) (width i : Nat) : IsFilling (.number field lead width (.store i))
  | defaults (entity : String) (values : Record) : IsFilling (.defaults entity (.fixed values))
  | localize (fields : List String) (locale : String) (fallback : Option String) :
    IsFilling (.localize fields locale fallback)

/-- Nothing is left for a hook to fill in a record. -/
inductive Settled (r : Record) : Hook → Prop where
  | identifier {field : String} (h : r.lacks field = false) : Settled r (.identifier field)
  | number {field lead : String} {width i : Nat} (h : r.lacks field = false) :
    Settled r (.number field lead width (.store i))
  | defaults {entity : String} {values : Record}
    (h : ∀ value ∈ values, r.Filled value.1 value.2) : Settled r (.defaults entity (.fixed values))
  | localize (fields : List String) (locale : String) (fallback : Option String) :
    Settled r (.localize fields locale fallback)

theorem Settled.mono (h : Settled r hook) (hr : r.Kept r') : Settled r' hook := by
  cases h with
  | identifier h => exact .identifier (hr.lacks h)
  | number h => exact .number (hr.lacks h)
  | defaults h => exact .defaults fun value hvalue => (h value hvalue).mono hr
  | localize => exact .localize _ _ _

theorem run_of_settled (h : Settled r hook) : hook.run .beforeInsert r s = ⟨r, s, none⟩ := by
  cases h with
  | identifier h => simp [run, drawIdentifier, h]
  | number h => simp [run, assignNumber, h]
  | defaults h => simp [run, assignDefaults, putDefaults_of_filled h]
  | localize => rfl

theorem record_drawIdentifier (field : String) (r : Record) (s : Supply) :
    (drawIdentifier field r s).record = r.fill field (.string (s.identifier s.drawn)) := by
  rw [drawIdentifier, Record.fill]
  split <;> rfl

theorem exists_fill_of_assignNumber {field lead : String} {width : Nat} {source : NumberSource}
    (h : (assignNumber field lead width source r s).error = none) :
    ∃ t, (assignNumber field lead width source r s).record = r.fill field (.string t) := by
  rw [assignNumber] at h ⊢
  by_cases hr : r.lacks field = true
  · rw [if_pos hr] at h ⊢
    split at h
    · cases h
    · next n s' _ => exact ⟨formatNumber lead width n, (if_pos hr).symm⟩
  · rw [if_neg hr]
    exact ⟨"", (if_neg hr).symm⟩

theorem kept_run (h : hook.IsFilling) : r.Kept (hook.run .beforeInsert r s).record := by
  cases hrun : (hook.run .beforeInsert r s).error with
  | some e =>
    rw [record_run_of_error (by rintro fields rfl; cases h) hrun]
    exact Record.Kept.refl r
  | none =>
    cases h with
    | identifier field =>
      rw [run, record_drawIdentifier]
      exact r.kept_fill field _
    | number field lead width i =>
      obtain ⟨t, ht⟩ := exists_fill_of_assignNumber hrun
      rw [run, ht]
      exact r.kept_fill field _
    | defaults entity values => exact kept_putDefaults values r
    | localize => exact Record.Kept.refl r

theorem settled_run (h : hook.IsFilling) (hrun : (hook.run .beforeInsert r s).error = none) :
    Settled (hook.run .beforeInsert r s).record hook := by
  cases h with
  | identifier field =>
    rw [run, record_drawIdentifier]
    exact .identifier (r.lacks_fill_string field _)
  | number field lead width i =>
    obtain ⟨t, ht⟩ := exists_fill_of_assignNumber hrun
    rw [run, ht]
    exact .number (r.lacks_fill_string field t)
  | defaults entity values => exact .defaults (filled_putDefaults values r)
  | localize => exact .localize _ _ _

namespace Chain

variable {chain : Chain}

theorem kept_run_of_isFilling (h : ∀ hook ∈ chain, hook.IsFilling) :
    r.Kept (Chain.run .beforeInsert chain r s).record := by
  induction chain generalizing r s with
  | nil => exact Record.Kept.refl r
  | cons hook hooks ih =>
    rw [List.forall_mem_cons] at h
    cases hhook : (hook.run .beforeInsert r s).error with
    | none =>
      rw [run_cons_of_ok hhook]
      exact (kept_run h.1).trans (ih h.2)
    | some e =>
      rw [run_cons_of_error hhook]
      exact kept_run h.1

theorem settled_run_of_isFilling (h : ∀ hook ∈ chain, hook.IsFilling)
    (hrun : (Chain.run .beforeInsert chain r s).error = none) :
    ∀ hook ∈ chain, Settled (Chain.run .beforeInsert chain r s).record hook := by
  induction chain generalizing r s with
  | nil => exact fun _ h => nomatch h
  | cons hook hooks ih =>
    have hhook := error_of_run_cons hrun
    rw [run_cons_of_ok hhook] at hrun ⊢
    rw [List.forall_mem_cons] at h ⊢
    exact ⟨(settled_run h.1 hhook).mono (kept_run_of_isFilling h.2), ih h.2 hrun⟩

theorem run_of_settled (h : ∀ hook ∈ chain, Settled r hook) :
    Chain.run .beforeInsert chain r s = ⟨r, s, none⟩ := by
  induction chain with
  | nil => rfl
  | cons hook hooks ih =>
    rw [List.forall_mem_cons] at h
    have hhook := Hook.run_of_settled (s := s) h.1
    rw [run_cons_of_ok (by rw [hhook]), hhook]
    exact ih h.2

/-- A chain of hooks that fill keeps what it finds, also where it fails. Once it has run without an
error it does nothing more, whatever it can draw from: the record stays as it is, and nothing is
drawn. -/
theorem kept_and_run_again_of_isFilling (h : ∀ hook ∈ chain, hook.IsFilling) :
    let first := Chain.run .beforeInsert chain r s
    r.Kept first.record ∧ (first.error = none →
      ∀ s', Chain.run .beforeInsert chain first.record s' = ⟨first.record, s', none⟩) := by
  intro first
  refine ⟨kept_run_of_isFilling h, fun hfirst s' => ?_⟩
  exact run_of_settled (settled_run_of_isFilling h hfirst)

/-- A ticket without a state, whose chain first puts null there and then a value. -/
def ticket : Record := [("title", "Broken login"), ("state", .null)]

def ticketHooks : Chain :=
  [.defaults "ticket" (.fixed [("owner", .null), ("state", .null)]), .localize ["title"] "fr" none,
    .number "number" "TCK-" 6 (.store 0), .defaults "ticket" (.fixed [("state", "open")]),
    .identifier "id"]

def ticketSupply : Supply := { identifier := fun _ => "t1" }

theorem kept_and_run_again_ticket :
    let first := Chain.run .beforeInsert ticketHooks ticket ticketSupply
    first.record = ([("title", "Broken login"), ("state", "open"), ("owner", .null),
        ("number", "TCK-000001"), ("id", "t1")] : Record) ∧
      ticket.Kept first.record ∧
      Chain.run .beforeInsert ticketHooks first.record first.supply =
        ⟨first.record, first.supply, none⟩ := by
  intro first
  have hhooks : ∀ hook ∈ ticketHooks, hook.IsFilling := by
    simp [ticketHooks, IsFilling.identifier, IsFilling.number, IsFilling.defaults,
      IsFilling.localize]
  have hfirst : first.error = none := rfl
  obtain ⟨hkept, hagain⟩ := kept_and_run_again_of_isFilling (r := ticket) (s := ticketSupply) hhooks
  exact ⟨rfl, hkept, hagain hfirst first.supply⟩

end Chain

end Hook

end RuleFilter
