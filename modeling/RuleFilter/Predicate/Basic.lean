import RuleFilter.Form

/-! Predicates: rules whose comparisons know their column, their type and their form. -/

namespace RuleFilter

structure Condition where
  field : String
  column : String
  type : FieldType
  operator : Operator
  operand : Operand
  form : Form

inductive Predicate where
  | all (children : List Predicate)
  | any (children : List Predicate)
  | condition (c : Condition)

namespace Predicate

instance : Inhabited Predicate := ⟨.all []⟩

/-- The conditions in reading order. -/
def conditions : Predicate → List Condition
  | .all ps | .any ps => ps.flatMap fun p => conditions p
  | .condition c => [c]

/-- The predicate of a group. -/
def ofGroup : Combinator → List Predicate → Predicate
  | .and => .all
  | .or => .any

/-- A property of all predicates holds if it holds of conditions and passes from members to
groups. -/
@[elab_as_elim] theorem induct {motive : Predicate → Prop}
    (condition : ∀ c, motive (.condition c))
    (all : ∀ ps, (∀ p ∈ ps, motive p) → motive (.all ps))
    (any : ∀ ps, (∀ p ∈ ps, motive p) → motive (.any ps)) (p : Predicate) : motive p := by
  match p with
  | .condition c => exact condition c
  | .all ps => exact all ps fun p _ => induct condition all any p
  | .any ps => exact any ps fun p _ => induct condition all any p

/-- A property of all predicates holds if it holds of conditions and passes from members to groups
of either kind. -/
theorem induct_ofGroup {motive : Predicate → Prop} (condition : ∀ c, motive (.condition c))
    (group : ∀ k ps, (∀ p ∈ ps, motive p) → motive (ofGroup k ps)) (p : Predicate) : motive p := by
  induction p using induct with
  | condition c => exact condition c
  | all ps ih => exact group .and ps ih
  | any ps ih => exact group .or ps ih

@[simp] theorem conditions_condition (c : Condition) : (condition c).conditions = [c] := by
  rw [conditions]

@[simp] theorem conditions_ofGroup (k : Combinator) (ps : List Predicate) :
    (ofGroup k ps).conditions = ps.flatMap conditions := by
  cases k <;> rw [ofGroup, conditions]

end Predicate

end RuleFilter
