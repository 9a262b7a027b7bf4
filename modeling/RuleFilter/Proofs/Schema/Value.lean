import RuleFilter.Proofs.Binary64.Whole

/-!
The values that fields take. A field takes the values of its type, and null under equality if it is
nullable.
-/

namespace RuleFilter

/-- Whether the operator looks for a text in a text. -/
def Operator.isTextual (op : Operator) : Bool :=
  op == .contains || op == .startsWith || op == .endsWith

namespace FieldType

def kind : FieldType → Value.Kind
  | .string | .datetime | .uuid | .choice => .string
  | .integer | .float => .number
  | .boolean => .boolean

/-- Only strings have operators that look for a text. -/
theorem eq_string_of_isTextual {type : FieldType} {op : Operator} (h : op.isTextual)
    (hop : op ∈ type.operators) : type = .string := by
  have hall : ∀ op ∈ type.operators, op.isTextual → type = .string := by cases type <;> decide
  exact hall op hop h

end FieldType

namespace Schema.Field

/-- The values other than null that can be compared with a field. -/
inductive Takes [Formats] (f : Field) : Value → Prop
  | string {s : String} : f.type = .string → Takes f (.string s)
  | integer {x : Binary64} {n : Int} : f.type = .integer → x.IsInteger n →
      n.natAbs ≤ Binary64.Finite.maxExact → Takes f (.number x)
  | float {x : Binary64} : f.type = .float → Takes f (.number x)
  | boolean {b : Bool} : f.type = .boolean → Takes f (.bool b)
  | datetime {s : String} : f.type = .datetime → Formats.isTimestamp s → Takes f (.string s)
  | uuid {s : String} : f.type = .uuid → Formats.isUuid s → Takes f (.string s)
  | choice {s : String} : f.type = .choice → s ∈ f.choices → Takes f (.string s)

variable {f : Field} {op : Operator} {v : Value}

theorem Takes.kind_eq [Formats] (h : f.Takes v) : v.kind = f.type.kind := by
  cases h with
  | string htype | float htype | boolean htype => rw [htype]; rfl
  | integer htype | datetime htype | uuid htype | choice htype => rw [htype]; rfl

theorem checkInteger_eq_ok_iff {x : Binary64} : f.checkInteger x = .ok () ↔
    ∃ n : Int, x.IsInteger n ∧ n.natAbs ≤ Binary64.Finite.maxExact := by
  cases x with
  | infinite _ | nan =>
    refine iff_of_false (by simp [checkInteger, refuse]) ?_
    rintro ⟨n, ⟨y, hy, -⟩, -⟩
    cases hy
  | finite y =>
    have hcheck : f.checkInteger y = .ok () ↔ y.isWhole ∧ y.isExact := by
      rw [checkInteger]
      by_cases hwhole : y.isWhole <;> by_cases hexact : y.isExact <;> simp [refuse, hwhole, hexact]
    rw [hcheck]
    constructor
    · intro h
      obtain ⟨n, hn⟩ := Binary64.Finite.isWhole_iff.1 h.1
      exact ⟨n, ⟨y, rfl, hn⟩, (Binary64.Finite.isExact_iff hn).1 h.2⟩
    · intro h
      obtain ⟨n, ⟨y', hy, hn⟩, hle⟩ := h
      obtain rfl := Binary64.finite.inj hy
      exact ⟨Binary64.Finite.isWhole_iff.2 ⟨n, hn⟩, (Binary64.Finite.isExact_iff hn).2 hle⟩

theorem checkNull_eq_ok_iff : f.checkNull op = .ok () ↔ op.isEquality ∧ f.nullable := by
  rw [checkNull]
  by_cases hop : op.isEquality <;> by_cases hnull : f.nullable <;> simp [refuse, hop, hnull]

/-- A field takes null where it stands for a null test, and the other values whatever the operator
is. -/
theorem checkValue_eq_ok_iff [Formats] : f.checkValue op v = .ok () ↔
    v = .null ∧ op.isEquality ∧ f.nullable ∨ f.Takes v := by
  constructor
  · intro h
    unfold checkValue at h
    split at h
    · exact .inl ⟨rfl, checkNull_eq_ok_iff.1 h⟩
    · next htype => exact .inr (.string htype)
    · next htype =>
      obtain ⟨n, hn, hle⟩ := checkInteger_eq_ok_iff.1 h
      exact .inr (.integer htype hn hle)
    · next htype => exact .inr (.float htype)
    · next htype => exact .inr (.boolean htype)
    · next htype =>
      split at h
      · next hs => exact .inr (.datetime htype hs)
      · cases h
    · next htype =>
      split at h
      · next hs => exact .inr (.uuid htype hs)
      · cases h
    · next htype =>
      split at h
      · next hs => exact .inr (.choice htype hs)
      · cases h
    · cases h
  · intro h
    rcases h with ⟨rfl, hnull⟩ | h
    · have hcheck : f.checkValue op .null = f.checkNull op := by
        cases f.type <;> simp [checkValue]
      rw [hcheck]
      exact checkNull_eq_ok_iff.2 hnull
    · cases h with
      | string htype => simp [checkValue, htype]
      | integer htype hn hle =>
        simpa [checkValue, htype] using checkInteger_eq_ok_iff.2 ⟨_, hn, hle⟩
      | float htype => simp [checkValue, htype]
      | boolean htype => simp [checkValue, htype]
      | datetime htype hs => simp [checkValue, htype, hs]
      | uuid htype hs => simp [checkValue, htype, hs]
      | choice htype hs => simp [checkValue, htype, hs]

end Schema.Field

end RuleFilter
