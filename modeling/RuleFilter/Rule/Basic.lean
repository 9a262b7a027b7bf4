import RuleFilter.Binary64.Basic
import RuleFilter.Rule.Operator

/-!
Rules. A comparison tests one field with an operator and an operand; a rule is a comparison or a
group of rules under one combinator. Nothing here asks that an operand has the shape its operator
takes or that a group has members: rules can be built by hand.
-/

namespace RuleFilter

inductive Value where
  | string (s : String)
  | number (x : Binary64)
  | bool (b : Bool)
  | null
  deriving DecidableEq

inductive Value.Kind where
  | string | number | boolean | null
  deriving DecidableEq

namespace Value

def Kind.label : Kind → String
  | .string => "string"
  | .number => "number"
  | .boolean => "boolean"
  | .null => "null"

def kind : Value → Kind
  | .string _ => .string
  | .number _ => .number
  | .bool _ => .boolean
  | .null => .null

end Value

inductive Operand where
  | none
  | single (v : Value)
  | list (vs : List Value)
  | range (low high : Value)
  deriving DecidableEq

namespace Operand

def shape : Operand → Shape
  | .none => .none
  | .single _ => .single
  | .list _ => .list
  | .range _ _ => .range

/-- The values in reading order. -/
def values : Operand → List Value
  | .none => []
  | .single v => [v]
  | .list vs => vs
  | .range low high => [low, high]

end Operand

structure Comparison where
  field : String
  operator : Operator
  operand : Operand
  deriving DecidableEq

inductive Rule where
  | leaf (c : Comparison)
  | group (combinator : Combinator) (children : List Rule)

namespace Rule

instance : Inhabited Rule := ⟨.group .and []⟩

/-- A property of all rules holds if it holds of comparisons and passes from members to groups. -/
@[elab_as_elim] theorem induct {motive : Rule → Prop} (leaf : ∀ c, motive (.leaf c))
    (group : ∀ combinator children, (∀ r ∈ children, motive r) →
      motive (.group combinator children))
    (r : Rule) : motive r := by
  match r with
  | .leaf c => exact leaf c
  | .group combinator children =>
    exact group combinator children fun r _ => induct leaf group r

mutual

def decEq : (r s : Rule) → Decidable (r = s)
  | .leaf c, .leaf d => decidable_of_iff (c = d) (by simp)
  | .leaf _, .group _ _ => isFalse (by simp)
  | .group _ _, .leaf _ => isFalse (by simp)
  | .group c rs, .group d ss =>
    have := decEqList rs ss
    decidable_of_iff (c = d ∧ rs = ss) (by simp)

def decEqList : (rs ss : List Rule) → Decidable (rs = ss)
  | [], [] => isTrue rfl
  | [], _ :: _ => isFalse (by simp)
  | _ :: _, [] => isFalse (by simp)
  | r :: rs, s :: ss =>
    have := decEq r s
    have := decEqList rs ss
    decidable_of_iff (r = s ∧ rs = ss) (by simp)

end

instance : DecidableEq Rule := decEq

/-- How deep groups nest. A comparison alone has depth zero. -/
def depth : Rule → Nat
  | .leaf _ => 0
  | .group _ children => 1 + (children.map fun r => depth r).foldr max 0

/-- The comparisons in reading order. -/
def leaves : Rule → List Comparison
  | .leaf c => [c]
  | .group _ children => children.flatMap fun r => leaves r

def leafCount : Rule → Nat
  | .leaf _ => 1
  | .group _ children => (children.map fun r => leafCount r).foldr (· + ·) 0

theorem length_leaves (r : Rule) : r.leaves.length = r.leafCount := by
  induction r using induct with
  | leaf c => simp [leaves, leafCount]
  | group combinator children ih =>
    rw [leaves, leafCount, List.length_flatMap, List.sum_eq_foldr]
    congr 1
    exact List.map_congr_left ih

end Rule

end RuleFilter
