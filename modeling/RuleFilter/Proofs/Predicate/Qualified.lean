import RuleFilter.Proofs.Predicate.Places

/-!
Table aliases. An alias stands before the columns of a predicate and nowhere else, so that it does
what a change of the columns would.
-/

namespace RuleFilter

namespace Predicate

/-- The predicate with its conditions changed, in groups as they were. -/
def map (f : Condition → Condition) : Predicate → Predicate
  | .condition c => .condition (f c)
  | .all ps => .all (ps.map fun p => map f p)
  | .any ps => .any (ps.map fun p => map f p)

/-- The predicate with the column of each condition changed. -/
def mapColumns (f : String → String) : Predicate → Predicate :=
  map fun c => { c with column := f c.column }

variable {f : Condition → Condition} {d : Dialect} {a b : String}

theorem map_condition (f : Condition → Condition) (c : Condition) :
    (condition c).map f = condition (f c) := by rw [map]

theorem map_ofGroup (f : Condition → Condition) (k : Combinator) (ps : List Predicate) :
    (ofGroup k ps).map f = ofGroup k (ps.map (map f)) := by
  cases k <;> rw [ofGroup, map]

theorem conditions_map (f : Condition → Condition) (p : Predicate) :
    (p.map f).conditions = p.conditions.map f := by
  induction p using induct_ofGroup with
  | condition c =>
    rw [map_condition, conditions_condition, conditions_condition, List.map_singleton]
  | group k ps ih =>
    rw [map_ofGroup, conditions_ofGroup, conditions_ofGroup, List.flatMap_map, List.map_flatMap]
    exact List.flatMap_congr ih

section Clauses

variable (hclause : ∀ c, (f c).clause = c.clause)
include hclause

theorem bound_map (p : Predicate) : (p.map f).bound = p.bound := by
  rw [bound, bound, conditions_map, List.flatMap_map]
  exact List.flatMap_congr fun c _ => by rw [hclause]

variable (hcolumn : ∀ c, Sql.qualify b (f c).column = Sql.qualify a c.column)
include hcolumn

/-- Conditions that test the same of columns with the same names leave the text as it is. -/
theorem text_map (nested : Bool) (n : Nat) (p : Predicate) :
    (p.map f).text d b nested n = p.text d a nested n := by
  induction p using induct_ofGroup generalizing nested n with
  | condition c => rw [map_condition, text_condition, text_condition, hclause, hcolumn]
  | group k ps ih =>
    rw [map_ofGroup]
    apply text_ofGroup_congr
    rw [List.forall₂_map_left_iff, List.forall₂_same]
    intro p hp
    rw [bound_map hclause]
    exact ⟨rfl, fun nested n => ih p hp nested n⟩

theorem toSql_map (params : List Value) (p : Predicate) :
    (p.map f).toSql d b params = p.toSql d a params := by
  rw [toSql, toSql, text_map hclause hcolumn, bound_map hclause]

end Clauses

/-- A fragment with an alias is that of the predicate in which the alias and a point stand before
every column, and a fragment without one that of the predicate itself. -/
theorem toSql_eq_toPlainSql (d : Dialect) (params : List Value) (p : Predicate) :
    (∀ a, a ≠ "" → p.toSql d a params =
      (p.mapColumns fun column => a ++ "." ++ column).toPlainSql d params) ∧
      p.toSql d "" params = p.toPlainSql d params := by
  refine ⟨fun a ha => ?_, rfl⟩
  have hcolumn (c : Condition) :
      Sql.qualify "" (a ++ "." ++ c.column) = Sql.qualify a c.column := by
    rw [Sql.qualify_empty, Sql.qualify, if_neg ha]
  symm
  exact toSql_map (f := fun c => { c with column := a ++ "." ++ c.column }) (fun _ => rfl) hcolumn
    params p

theorem toSql_mixed : mixed.toSql .postgres "t" [.null] =
    (mixed.mapColumns fun column => "t" ++ "." ++ column).toPlainSql .postgres [.null] :=
  (toSql_eq_toPlainSql .postgres [.null] mixed).1 "t" (by decide)

end Predicate

end RuleFilter
