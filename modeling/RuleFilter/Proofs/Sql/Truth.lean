import RuleFilter.Rule.Operator

/-! The truth values of SQL tests. What is tested on null is unknown. -/

namespace RuleFilter.Sql

inductive Truth where
  | true | false | unknown
  deriving DecidableEq

namespace Truth

def ofBool (b : Bool) : Truth := if b then true else false

def not : Truth → Truth
  | true => false
  | false => true
  | unknown => unknown

def and : Truth → Truth → Truth
  | false, _ | _, false => false
  | true, true => true
  | _, _ => unknown

def or : Truth → Truth → Truth
  | true, _ | _, true => true
  | false, false => false
  | _, _ => unknown

/-- The conjunction or the disjunction of any number of truth values. -/
def combine : Combinator → List Truth → Truth
  | .and, ts => ts.foldr and true
  | .or, ts => ts.foldr or false

@[simp] theorem combine_singleton (k : Combinator) (t : Truth) : combine k [t] = t := by
  cases k <;> cases t <;> rfl

@[simp] theorem not_ofBool (b : Bool) : (ofBool b).not = ofBool !b := by cases b <;> rfl

@[simp] theorem ofBool_and_ofBool (a b : Bool) : (ofBool a).and (ofBool b) = ofBool (a && b) := by
  cases a <;> cases b <;> rfl

theorem combine_or_ofBool {α : Type} (f : α → Bool) (xs : List α) :
    combine .or (xs.map fun x => ofBool (f x)) = ofBool (xs.any f) := by
  have hor : ∀ a b, (ofBool a).or (ofBool b) = ofBool (a || b) := by
    intro a b
    cases a <;> cases b <;> rfl
  induction xs with
  | nil => rfl
  | cons x xs ih =>
    show (ofBool (f x)).or (combine .or (xs.map fun x => ofBool (f x))) = _
    rw [ih, hor, List.any_cons]

theorem combine_or_unknown {α : Type} {xs : List α} (h : xs ≠ []) :
    combine .or (xs.map fun _ => unknown) = unknown := by
  induction xs with
  | nil => exact absurd rfl h
  | cons x xs ih =>
    show unknown.or (combine .or (xs.map fun _ => unknown)) = _
    by_cases hxs : xs = []
    · rw [hxs]
      rfl
    · rw [ih hxs]
      rfl

end Truth

end RuleFilter.Sql
