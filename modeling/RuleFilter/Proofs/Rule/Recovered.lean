import RuleFilter.Proofs.Rule.Compile

/-!
What compilation keeps of a rule. Without what it adds to the comparisons a predicate is the rule
that it was compiled from, group for group; what it adds to one comparison depends on the others in
no way.
-/

namespace RuleFilter

/-- The comparison that a condition makes, without what is known of its field. -/
def Condition.comparison (e : Condition) : Comparison := ⟨e.field, e.operator, e.operand⟩

namespace Predicate

/-- The rule of the same groups and comparisons. -/
def rule : Predicate → Rule
  | .condition e => .leaf e.comparison
  | .all ps => .group .and (ps.map fun p => rule p)
  | .any ps => .group .or (ps.map fun p => rule p)

theorem rule_condition (e : Condition) : (condition e).rule = .leaf e.comparison := by rw [rule]

theorem rule_ofGroup (k : Combinator) (ps : List Predicate) :
    (ofGroup k ps).rule = .group k (ps.map rule) := by
  cases k <;> rw [ofGroup, rule]

end Predicate

namespace Rule

variable {source : FieldSource} {chain : Guesser.Chain} {r : Rule} {p : Predicate}

theorem rule_of_compile [Formats] (h : r.compile source chain = .ok p) : p.rule = r := by
  induction r using induct generalizing p with
  | leaf c =>
    obtain ⟨e, he, rfl⟩ := compile_leaf_eq_ok_iff.1 h
    obtain ⟨f, -, -, rfl⟩ := Comparison.compile_eq_ok_iff.1 he
    exact Predicate.rule_condition _
  | group k rs ih =>
    obtain ⟨-, ps, rfl, hps⟩ := compile_group_eq_ok_iff.1 h
    have hrules : ps.map Predicate.rule = rs.map id :=
      map_eq_map_of_compiled hps fun r hr p hp => ih r hr hp
    rw [Predicate.rule_ofGroup, hrules, List.map_id]

theorem getElem?_conditions_of_compile [Formats] (h : r.compile source chain = .ok p) {i : Nat}
    {c : Comparison} (hc : r.leaves[i]? = some c) :
    ∃ f, source c.field = some f ∧ p.conditions[i]? =
      some ⟨c.field, f.column, f.type, c.operator, c.operand, chain.run c f⟩ := by
  obtain ⟨hi, rfl⟩ := List.getElem?_eq_some_iff.1 hc
  have hleaves := compiled_leaves h
  have hi' : i < p.conditions.length := hleaves.length_eq ▸ hi
  obtain ⟨f, hf, -, he⟩ := Comparison.compile_eq_ok_iff.1 (hleaves.get hi hi')
  exact ⟨f, hf, List.getElem?_eq_some_iff.2 ⟨hi', he⟩⟩

/-- A compiled predicate has the groups, the combinators and the comparisons of its rule, all in
their places. Its conditions are as many as the comparisons, and each one is the comparison in the
same place with the column and the type of its field and the form that the chain gives it. -/
theorem recovered_of_compile [Formats] (h : r.compile source chain = .ok p) :
    p.rule = r ∧ p.conditions.length = r.leaves.length ∧ r.leaves.length = r.leafCount ∧
      ∀ (i : Nat) c, r.leaves[i]? = some c → ∃ f, source c.field = some f ∧ p.conditions[i]? =
        some ⟨c.field, f.column, f.type, c.operator, c.operand, chain.run c f⟩ :=
  ⟨rule_of_compile h, (compiled_leaves h).length_eq.symm, length_leaves r,
    fun _ _ hc => getElem?_conditions_of_compile h hc⟩

def taskFields : FieldSource
  | "due" => some { name := "due", type := .datetime, column? := some "task.due_at" }
  | "state" => some
    { name := "state", type := .choice, choices := ["open", "done"], formType := some "radio" }
  | _ => none

def taskRule : Rule :=
  .group .or
    [.leaf ⟨"due", .isNull, .none⟩,
      .group .and [.leaf ⟨"state", .oneOf, .list [.string "open", .string "done"]⟩]]

def taskPredicate : Predicate :=
  .any
    [.condition ⟨"due", "task.due_at", .datetime, .isNull, .none, ⟨some "checkbox", []⟩⟩,
      .all
        [.condition ⟨"state", "state", .choice, .oneOf, .list [.string "open", .string "done"],
          ⟨some "radio",
            [("multiple", .bool true), ("choices", .array [.string "open", .string "done"])]⟩⟩]]

theorem compile_taskRule :
    taskRule.compile taskFields Guesser.Chain.standard = .ok taskPredicate := by
  refine compile_group_eq_ok_iff.2 ⟨by simp, _, rfl, .cons ?_ (.cons ?_ .nil)⟩
  · exact compile_leaf_of_check rfl (by decide) rfl
  · refine compile_group_eq_ok_iff.2 ⟨by simp, _, rfl, .cons ?_ .nil⟩
    exact compile_leaf_of_check rfl (by decide) rfl

theorem recovered_task :
    taskRule.compile taskFields Guesser.Chain.standard = .ok taskPredicate ∧
      taskPredicate.rule = taskRule ∧ taskPredicate.conditions.length = 2 ∧
      ∃ f, taskFields "state" = some f ∧ taskPredicate.conditions[1]? =
        some ⟨"state", f.column, f.type, .oneOf, .list [.string "open", .string "done"],
          Guesser.Chain.standard.run
            ⟨"state", .oneOf, .list [.string "open", .string "done"]⟩ f⟩ := by
  obtain ⟨hrule, hlength, -, hconditions⟩ := recovered_of_compile compile_taskRule
  refine ⟨compile_taskRule, hrule, ?_, ?_⟩
  · rw [hlength, taskRule]
    simp [leaves]
  · exact hconditions 1 ⟨"state", .oneOf, .list [.string "open", .string "done"]⟩
      (by simp [taskRule, leaves])

end Rule

end RuleFilter
