import RuleFilter.Proofs.Predicate.Collapse
import RuleFilter.Proofs.Predicate.Reading

/-!
The structure of predicates in their texts. A text leaves out the parentheses of the outermost group
and those of groups of one, and still shows the structure of its predicate and no other one.
-/

namespace RuleFilter

/-- The test that a condition makes of its column. -/
def Condition.atom (tableAlias : String) (c : Condition) : Sql.Atom :=
  c.clause.atom (Sql.qualify tableAlias c.column)

namespace Predicate

/-- Every group has members. -/
inductive Populated : Predicate → Prop
  | condition (c : Condition) : Populated (.condition c)
  | group (k : Combinator) {ps : List Predicate} : ps ≠ [] → (∀ p ∈ ps, Populated p) →
      Populated (ofGroup k ps)

/-- The tree of a predicate, group for group. -/
def tree {α : Type} (f : Condition → α) : Predicate → Sql.Expr α
  | .condition c => .atom (f c)
  | .all ps => .group .and (ps.map fun p => tree f p)
  | .any ps => .group .or (ps.map fun p => tree f p)

section Tree

variable {α : Type} (f : Condition → α)

theorem tree_condition (c : Condition) : (condition c).tree f = .atom (f c) := by rw [tree]

theorem tree_ofGroup (k : Combinator) (ps : List Predicate) :
    (ofGroup k ps).tree f = .group k (ps.map (tree f)) := by
  cases k <;> rw [ofGroup, tree]

theorem atoms_tree (p : Predicate) : (p.tree f).atoms = p.conditions.map f := by
  induction p using induct_ofGroup with
  | condition c => rw [tree_condition, Sql.Expr.atoms, conditions_condition, List.map_singleton]
  | group k ps ih =>
    rw [tree_ofGroup, Sql.Expr.atoms, conditions_ofGroup, List.flatMap_map, List.map_flatMap]
    exact List.flatMap_congr ih

/-- Where groups have members, the tree that a text stands for is that of the predicate without its
groups of one. -/
theorem tree_collapse (tableAlias : String) {p : Predicate} (h : p.Populated) :
    p.collapse.tree (Condition.atom tableAlias) = p.expr tableAlias := by
  induction h with
  | condition c =>
    rw [collapse_condition, tree_condition, expr_condition]
    rfl
  | @group k ps hne _ ih =>
    match ps with
    | [] => exact absurd rfl hne
    | [p] => rw [collapse_ofGroup_singleton, expr_singleton, ih p (by simp)]
    | p :: q :: ps =>
      rw [collapse_ofGroup k (by simp), tree_ofGroup, expr_ofGroup k (by simp), List.map_map]
      exact congrArg (Sql.Expr.group k) (List.map_congr_left ih)

end Tree

/-- The text of a predicate is read as the predicate without its groups of one, with the tests of
its conditions in document order, and as nothing else. It is written with no parentheses around the
whole, and with one pair around each group that stands inside another one. -/
theorem reads_toSql_iff {tableAlias : String} {p : Predicate} (hp : p.Populated) (d : Dialect)
    (params : List Value) (halias : tableAlias = "" ∨ Sql.isIdentifier tableAlias)
    (hcolumns : ∀ c ∈ p.conditions, Sql.isColumn c.column)
    (hnames : ∀ c ∈ p.conditions, Sql.Keyword.ofWord? c.column = none) :
    let sql := p.toSql d tableAlias params
    let tree := p.collapse.tree (Condition.atom tableAlias)
    (∀ e, Sql.Reads sql.2 params.length sql.1 e ↔ e = tree) ∧
      Sql.readText sql.2 params.length sql.1 = some tree ∧
      tree.atoms = p.conditions.map (Condition.atom tableAlias) ∧
      Sql.scan sql.2 params.length sql.1.toList =
        some ((tree.written false).flatMap Sql.Item.tokens) := by
  intro sql tree
  have hqualified : ∀ c ∈ p.conditions,
      Sql.Keyword.ofWord? (Sql.qualify tableAlias c.column) = none :=
    fun c hc => Sql.Keyword.ofWord?_qualify tableAlias (hnames c hc)
  have htree : tree = p.expr tableAlias := tree_collapse tableAlias hp
  have hreads : Sql.Reads sql.2 params.length sql.1 tree :=
    htree ▸ reads_toSql d params halias hcolumns hqualified
  refine ⟨fun e => ⟨fun he => he.unique hreads, fun he => he ▸ hreads⟩,
    Sql.readText_of_reads hreads, ?_, ?_⟩
  · rw [atoms_tree, conditions_collapse]
  · rw [htree]
    exact scan_toSql d params halias hcolumns hqualified

/-- Groups of one at the top and inside, a nested group, and an operand of the wrong shape. -/
def layered : Predicate :=
  .any [.all [
    .any [.condition ⟨"age", "age", .integer, .between, .range (.bool true) .null, {}⟩,
      .condition ⟨"note", "note", .string, .lt, .list [.null], {}⟩],
    .all [.condition ⟨"name", "u.name", .string, .isNull, .none, {}⟩]]]

theorem populated_layered : layered.Populated := by
  have htests : (Predicate.any
      [.condition ⟨"age", "age", .integer, .between, .range (.bool true) .null, {}⟩,
        .condition ⟨"note", "note", .string, .lt, .list [.null], {}⟩]).Populated :=
    .group .or (by simp) (List.forall_mem_cons.2
      ⟨.condition _, List.forall_mem_singleton.2 (.condition _)⟩)
  have hone : (Predicate.all
      [.condition ⟨"name", "u.name", .string, .isNull, .none, {}⟩]).Populated :=
    .group .and (by simp) (List.forall_mem_singleton.2 (.condition _))
  exact .group .or (by simp) (List.forall_mem_singleton.2
    (.group .and (by simp) (List.forall_mem_cons.2 ⟨htests, List.forall_mem_singleton.2 hone⟩)))

theorem reads_toSql_layered :
    let sql := layered.toSql .postgres "t" [.null]
    let tree : Sql.Expr Sql.Atom := .group .and
      [.group .or [.atom (.test "t.age" (.between (.bool true) .null)), .atom (.equation 1 0)],
        .atom (.test "t.u.name" (.isNull false))]
    sql.1 = "(t.age BETWEEN $2 AND $3 OR 1=0) AND t.u.name IS NULL" ∧
      ∀ e, Sql.Reads sql.2 1 sql.1 e ↔ e = tree := by
  intro sql tree
  have halias : "t" = "" ∨ Sql.isIdentifier "t" := .inr (by decide)
  have hcolumns : ∀ c ∈ layered.conditions, Sql.isColumn c.column := by
    simp [layered, conditions]
    decide
  have hnames : ∀ c ∈ layered.conditions, Sql.Keyword.ofWord? c.column = none := by
    simp [layered, conditions]
    decide
  have hreads := (reads_toSql_iff populated_layered .postgres [.null] halias hcolumns hnames).1
  have htree : layered.collapse.tree (Condition.atom "t") = tree := by
    have hage : Sql.qualify "t" "age" = "t.age" := by decide
    have hname : Sql.qualify "t" "u.name" = "t.u.name" := by decide
    simp only [layered, collapse, List.map, Predicate.tree, Condition.atom, hage, hname]
    rfl
  have htext : sql.1 = "(t.age BETWEEN $2 AND $3 OR 1=0) AND t.u.name IS NULL" := by
    simp [sql, layered, toSql, text, texts, joinParts]
    decide
  exact ⟨htext, htree ▸ hreads⟩

end Predicate

end RuleFilter
