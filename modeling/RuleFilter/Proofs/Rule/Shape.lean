import RuleFilter.Rule.Basic
import RuleFilter.Rule.Keyword

/-!
The shape of rules that filter text can express, and the shape that text gives them: a group of one
is its only member.
-/

namespace RuleFilter

/-- Whether filter text can write the value, which it cannot where a number is not finite. -/
def Value.IsWritable : Value → Prop
  | .number x => ∃ y : Binary64.Finite, x = y
  | .string _ | .bool _ | .null => True

/-- A field that text can name, and an operand of the shape that the operator takes. -/
structure Comparison.WellFormed (c : Comparison) : Prop where
  field : Text.isFieldName c.field
  shape : c.operand.shape = c.operator.shape
  values : ∀ v ∈ c.operand.values, v.IsWritable

namespace Rule

/-- Comparisons are well formed and groups have members. -/
inductive WellFormed : Rule → Prop
  | leaf {c : Comparison} : c.WellFormed → WellFormed (.leaf c)
  | group {combinator : Combinator} {children : List Rule} : children ≠ [] →
      (∀ r ∈ children, WellFormed r) → WellFormed (.group combinator children)

/-- A test that takes no value. -/
theorem wellFormed_nullTest {field : String} {op : Operator} (h : Text.isFieldName field)
    (hop : op.shape = .none) : (Rule.leaf ⟨field, op, .none⟩).WellFormed :=
  .leaf ⟨h, hop.symm, by simp [Operand.values]⟩

theorem WellFormed.of_mem_leaves {r : Rule} (h : r.WellFormed) {c : Comparison}
    (hc : c ∈ r.leaves) : c.WellFormed := by
  induction h with
  | leaf hwell =>
    rw [leaves, List.mem_singleton] at hc
    rwa [hc]
  | group _ _ ih =>
    rw [leaves, List.mem_flatMap] at hc
    obtain ⟨r, hr, hc⟩ := hc
    exact ih r hr hc

/-- Every group has two members or more. -/
inductive Branching : Rule → Prop
  | leaf (c : Comparison) : Branching (.leaf c)
  | group {combinator : Combinator} {children : List Rule} : 2 ≤ children.length →
      (∀ r ∈ children, Branching r) → Branching (.group combinator children)

/-- The rule in which every group of one has given way to its member, from the innermost groups
on. -/
def collapse : Rule → Rule
  | .leaf c => .leaf c
  | .group combinator children =>
    match children.map fun r => collapse r with
    | [only] => only
    | rs => .group combinator rs

theorem collapse_singleton (combinator : Combinator) (r : Rule) :
    collapse (.group combinator [r]) = r.collapse := by
  simp [collapse]

theorem collapse_group {combinator : Combinator} {children : List Rule}
    (h : children.length ≠ 1) :
    collapse (.group combinator children) = .group combinator (children.map collapse) := by
  rw [collapse]
  split
  · next only he =>
    have := congrArg List.length he
    simp [h] at this
  · rfl

theorem collapse_eq_self {r : Rule} (h : r.Branching) : r.collapse = r := by
  induction h with
  | leaf c => simp [collapse]
  | group hlen _ ih =>
    rw [collapse_group (by omega)]
    congr 1
    exact (List.map_congr_left ih).trans (List.map_id _)

theorem leafCount_collapse (r : Rule) : r.collapse.leafCount = r.leafCount := by
  induction r using induct with
  | leaf c => simp [collapse]
  | group combinator children ih =>
    by_cases hlen : children.length = 1
    · obtain ⟨only, rfl⟩ := List.length_eq_one_iff.1 hlen
      rw [collapse_singleton, ih only (by simp)]
      simp [leafCount]
    · rw [collapse_group hlen]
      simp only [leafCount, List.map_map]
      congr 1
      exact List.map_congr_left ih

theorem depth_lt_of_mem (combinator : Combinator) {children : List Rule} {r : Rule}
    (h : r ∈ children) : r.depth < (Rule.group combinator children).depth := by
  rw [depth, Nat.add_comm, Nat.lt_succ_iff]
  induction children with
  | nil => simp at h
  | cons s children ih =>
    obtain rfl | h := List.mem_cons.1 h
    · exact Nat.le_max_left _ _
    · exact Nat.le_trans (ih h) (Nat.le_max_right _ _)

theorem depth_group_le {combinator : Combinator} {children : List Rule} {n : Nat}
    (h : ∀ r ∈ children, r.depth ≤ n) : (Rule.group combinator children).depth ≤ n + 1 := by
  rw [depth, Nat.add_comm, Nat.succ_le_succ_iff]
  induction children with
  | nil => exact Nat.zero_le n
  | cons s children ih =>
    rw [List.forall_mem_cons] at h
    exact Nat.max_le.2 ⟨h.1, ih h.2⟩

theorem depth_group_le_iff {combinator : Combinator} {children : List Rule} {n : Nat} :
    (Rule.group combinator children).depth ≤ n + 1 ↔ ∀ r ∈ children, r.depth ≤ n := by
  constructor
  · intro h r hr
    exact Nat.le_of_lt_succ (Nat.lt_of_lt_of_le (depth_lt_of_mem combinator hr) h)
  · exact depth_group_le

end Rule

end RuleFilter
