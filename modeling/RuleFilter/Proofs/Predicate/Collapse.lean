import RuleFilter.Proofs.Predicate.Text

/-!
Groups of one in predicates. Such a group is written as its only member, in the place of the group,
so that no text shows it.
-/

namespace RuleFilter

namespace Predicate

/-- The predicate in which every group of one has given way to its member, from the innermost groups
on. -/
def collapse : Predicate → Predicate
  | .condition c => .condition c
  | .all ps =>
    match ps.map fun p => collapse p with
    | [only] => only
    | qs => .all qs
  | .any ps =>
    match ps.map fun p => collapse p with
    | [only] => only
    | qs => .any qs

theorem collapse_condition (c : Condition) : (condition c).collapse = condition c := by
  rw [collapse]

theorem collapse_ofGroup_singleton (k : Combinator) (p : Predicate) :
    (ofGroup k [p]).collapse = p.collapse := by
  cases k <;> simp [ofGroup, collapse]

theorem collapse_ofGroup (k : Combinator) {ps : List Predicate} (h : ps.length ≠ 1) :
    (ofGroup k ps).collapse = ofGroup k (ps.map collapse) := by
  cases k with
  | and | or =>
    rw [ofGroup, collapse]
    split
    · next only he =>
      have := congrArg List.length he
      simp [h] at this
    · rfl

theorem conditions_collapse (p : Predicate) : p.collapse.conditions = p.conditions := by
  induction p using induct_ofGroup with
  | condition c => rw [collapse_condition]
  | group k ps ih =>
    by_cases hlen : ps.length = 1
    · obtain ⟨only, rfl⟩ := List.length_eq_one_iff.1 hlen
      rw [collapse_ofGroup_singleton, ih only (by simp)]
      simp
    · rw [collapse_ofGroup k hlen, conditions_ofGroup, conditions_ofGroup, List.flatMap_map]
      exact List.flatMap_congr ih

theorem bound_collapse (p : Predicate) : p.collapse.bound = p.bound := by
  rw [bound, bound, conditions_collapse]

theorem text_collapse (d : Dialect) (tableAlias : String) (nested : Bool) (n : Nat)
    (p : Predicate) : p.collapse.text d tableAlias nested n = p.text d tableAlias nested n := by
  induction p using induct_ofGroup generalizing nested n with
  | condition c => rw [collapse_condition]
  | group k ps ih =>
    by_cases hlen : ps.length = 1
    · obtain ⟨only, rfl⟩ := List.length_eq_one_iff.1 hlen
      rw [collapse_ofGroup_singleton, text_singleton, ih only (by simp)]
    · rw [collapse_ofGroup k hlen]
      apply text_ofGroup_congr
      rw [List.forall₂_map_left_iff, List.forall₂_same]
      intro p hp
      rw [bound_collapse]
      exact ⟨rfl, ih p hp⟩

theorem toSql_collapse (d : Dialect) (tableAlias : String) (params : List Value) (p : Predicate) :
    p.collapse.toSql d tableAlias params = p.toSql d tableAlias params := by
  rw [toSql, toSql, text_collapse, bound_collapse]

end Predicate

end RuleFilter
