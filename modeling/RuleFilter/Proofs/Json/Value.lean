import RuleFilter.Proofs.Entries
import RuleFilter.Proofs.Json.Structure
import RuleFilter.Proofs.Json.Written

/-!
Values read back. A value is what its own text means just when its containers nest no deeper than
the reader follows them and each of its numbers with a fraction is the one that its digits are read
as, which the roundings of the reader can miss.
-/

namespace RuleFilter

namespace Json

/-- A value as libraries hold it: integers have 64 bits and the keys of an object differ. -/
inductive IsValue : Json → Prop
  | null : IsValue .null
  | bool (b : Bool) : IsValue (.bool b)
  | integer {i : Int} : -(2 ^ 63) ≤ i → i < 2 ^ 64 → IsValue (.integer i)
  | real (x : Binary64.Finite) : IsValue (.real x)
  | string (s : String) : IsValue (.string s)
  | array {items : List Json} : (∀ v ∈ items, IsValue v) → IsValue (.array items)
  | object {members : Members} : members.names.Nodup → (∀ m ∈ members, IsValue m.2) →
      IsValue (.object members)

/-- How deep containers nest. -/
def nesting : Json → Nat
  | .array items => 1 + (items.map fun v => nesting v).foldr max 0
  | .object members => 1 + (members.map fun m => nesting m.2).foldr max 0
  | _ => 0
decreasing_by
  · have := List.sizeOf_lt_of_mem ‹_›; simp; omega
  · have := sizeOf_member_lt ‹_›; simp; omega

/-- The numbers that are not written as integers, in reading order. -/
def reals : Json → List Binary64.Finite
  | .real x => [x]
  | .array items => items.flatMap fun v => reals v
  | .object members => members.flatMap fun m => reals m.2
  | _ => []
decreasing_by
  · have := List.sizeOf_lt_of_mem ‹_›; simp; omega
  · have := sizeOf_member_lt ‹_›; simp; omega

/-- The text of the number is read as the number. -/
def Rereads (x : Binary64.Finite) : Prop := read? (real x).compact = some (.real x)

theorem rereads_iff {x : Binary64.Finite} : Rereads x ↔ (numeralOf x).toJson? = some (.real x) := by
  rw [Rereads, read?, read?_compact, written, Option.bind_some, Written.value?]

def real? : Json → Option Binary64.Finite
  | .real x => some x
  | _ => none

theorem real?_eq_some_iff {v : Json} {x : Binary64.Finite} : v.real? = some x ↔ v = .real x := by
  cases v <;> simp [real?]

instance (x : Binary64.Finite) : Decidable (Rereads x) :=
  decidable_of_iff ((numeralOf x).toJson?.bind real? = some x) <| by
    rw [rereads_iff, Option.bind_eq_some_iff]
    simp only [real?_eq_some_iff, exists_eq_right]

theorem foldr_max_le_iff {α : Type} {f : α → Nat} {as : List α} {n : Nat} :
    (as.map f).foldr max 0 ≤ n ↔ ∀ a ∈ as, f a ≤ n := by
  induction as with
  | nil => simp
  | cons a as ih => simp [ih]

/-- A container is as deep, and has as many numbers, as its parts make it. -/
theorem forall_parts_iff {α : Type} {part : α → Json} {as : List α} {n : Nat} :
    (∀ a ∈ as, (part a).nesting ≤ n ∧ ∀ x ∈ (part a).reals, Rereads x) ↔
      1 + (as.map fun a => (part a).nesting).foldr max 0 ≤ n + 1 ∧
        ∀ x ∈ as.flatMap fun a => (part a).reals, Rereads x := by
  rw [Nat.add_comm 1, Nat.add_le_add_iff_right, foldr_max_le_iff]
  constructor
  · intro h
    refine ⟨fun a ha => (h a ha).1, fun x hx => ?_⟩
    obtain ⟨a, ha, hx⟩ := List.mem_flatMap.1 hx
    exact (h a ha).2 x hx
  · rintro ⟨hnesting, hreals⟩ a ha
    exact ⟨hnesting a ha, fun x hx => hreals x (List.mem_flatMap.2 ⟨a, ha, hx⟩)⟩

theorem value?_array_written_iff {items : List Json} {n : Nat} :
    (array items).written.value? (n + 1) = some (.array items) ↔
      ∀ v ∈ items, v.written.value? n = some v := by
  rw [written, Written.value?, List.mapM_map]
  exact (Option.map_inj_right fun _ _ => array.inj).trans Written.mapM_eq_some_self_iff

theorem value?_object_written {members : Members} {n : Nat} :
    (object members).written.value? (n + 1) =
      (members.mapM fun m : String × Json => (m.2.written.value? n).map (m.1, ·)).bind fun ms =>
        some (object (Entries.ofList ms)) := by
  rw [written, Written.value?, List.mapM_map]
  refine congrArg (Option.bind · _) (congrArg (List.mapM · members) ?_)
  funext m
  show (textOf (pieces m.1)).bind (fun k => (m.2.written.value? n).bind fun v => some (k, v)) = _
  rw [textOf_pieces, Option.bind_some, Option.map_eq_bind]
  rfl

/-- The keys of an object come back with whatever values. -/
theorem value?_object_written_iff {members : Members} (h : members.names.Nodup) {n : Nat} :
    (object members).written.value? (n + 1) = some (.object members) ↔
      ∀ m ∈ members, m.2.written.value? n = some m.2 := by
  have hmember (m : String × Json) : (m.2.written.value? n).map (m.1, ·) = some m ↔
      m.2.written.value? n = some m.2 := by
    obtain ⟨k, v⟩ := m
    simp
  rw [value?_object_written, Option.bind_eq_some_iff]
  constructor
  · rintro ⟨ms, hms, hlist⟩
    -- The keys differ after reading as they did before, so that no member is put over another.
    have hnames : Entries.names ms = members.names := by
      refine Written.map_eq_map_of_mapM (fun m e he => ?_) hms
      obtain ⟨v, -, rfl⟩ := Option.map_eq_some_iff.1 he
      rfl
    rw [Entries.ofList_of_nodup (hnames ▸ h), Option.some.injEq, object.injEq] at hlist
    rw [hlist, Written.mapM_eq_some_self_iff] at hms
    exact fun m hm => (hmember m).1 (hms m hm)
  · intro hmembers
    have hms := Written.mapM_eq_some_self_iff.2 fun m hm => (hmember m).2 (hmembers m hm)
    exact ⟨members, hms, congrArg _ (congrArg _ (Entries.ofList_of_nodup h))⟩

theorem value?_written_iff {v : Json} (h : v.IsValue) {n : Nat} :
    v.written.value? n = some v ↔ v.nesting ≤ n ∧ ∀ x ∈ v.reals, Rereads x := by
  induction v using induct generalizing n with
  | null => simp [written, Written.value?, nesting, reals]
  | bool b => simp [written, Written.value?, nesting, reals]
  | integer i =>
    obtain ⟨⟩ | ⟨⟩ | ⟨hmin, hmax⟩ := h
    simp [written, Written.value?, nesting, reals, Numeral.toJson?_ofInt i hmin hmax]
  | real x => simp [written, Written.value?, nesting, reals, rereads_iff]
  | string s => simp [written, Written.value?, nesting, reals, textOf_pieces]
  | array items ih =>
    obtain ⟨⟩ | ⟨⟩ | ⟨⟩ | ⟨⟩ | ⟨⟩ | hitems := h
    cases n with
    | zero => simp [written, Written.value?, nesting]
    | succ n =>
      rw [value?_array_written_iff, nesting, reals, ← forall_parts_iff]
      exact forall₂_congr fun v hv => ih v hv (hitems v hv)
  | object members ih =>
    obtain ⟨⟩ | ⟨⟩ | ⟨⟩ | ⟨⟩ | ⟨⟩ | ⟨⟩ | ⟨hnames, hmembers⟩ := h
    cases n with
    | zero => simp [written, Written.value?, nesting]
    | succ n =>
      rw [value?_object_written_iff hnames, nesting, reals, ← forall_parts_iff]
      exact forall₂_congr fun m hm => ih m hm (hmembers m hm)

end Json

end RuleFilter
