import RuleFilter.Proofs.Rule.Canonical
import RuleFilter.Proofs.Rule.Payload

/-!
Filters that go from one form to the other. Payloads show groups of one, which text does not; and
the limit on depth counts parentheses in text and groups in payloads.
-/

namespace RuleFilter

namespace Rule

variable {limits limits' : Limits} {v : Json} {text : String} {r : Rule}

/-- The text of a decoded rule is read back as the rule without its groups of one, which is the rule
just when every group has two members or more. -/
theorem parse_text_of_ofJson (h : ofJson limits v = .ok r)
    (hsize : r.text.utf8ByteSize ≤ limits'.size) (hdepth : r.depth ≤ limits'.depth)
    (hconditions : r.leafCount ≤ limits'.conditions) :
    parse limits' r.text = .ok r.collapse ∧ (parse limits' r.text = .ok r ↔ r.Branching) := by
  have hwell := wellFormed_of_ofJson h
  have hparse := parse_collapse hwell hsize (Nat.le_succ_of_le hdepth) hconditions
  refine ⟨hparse, branching_of_parse, fun hr => ?_⟩
  rw [hparse, collapse_eq_self hr]

def lone : Rule := .group .and [.leaf ⟨"a", .isNull, .none⟩]

theorem wellFormed_lone : lone.WellFormed :=
  .group (by simp) (List.forall_mem_singleton.2 (wellFormed_nullTest (by decide) rfl))

theorem not_branching_lone : ¬ lone.Branching := by
  intro h
  cases h with
  | group hlen _ => simp at hlen

theorem size_text_lone : lone.text.utf8ByteSize ≤ Limits.size {} := by
  simp only [lone, Rule.text, Comparison.text, Operand.text]
  decide

theorem ofJson_lone : ofJson {} (.object [("combinator", "and"),
    ("rules", .array [.object [("field", "a"), ("op", "isNull")]])]) = .ok lone := by
  have hjson := @ofJson_toJson {} lone wellFormed_lone (by simp [lone, leafCount])
  rw [if_pos (by simp [lone, depth])] at hjson
  simpa [lone, toJson, Combinator.name, Comparison.toJson, Operator.name, Operand.toJson?]
    using hjson

theorem parse_text_lone : ofJson {} (.object [("combinator", "and"),
      ("rules", .array [.object [("field", "a"), ("op", "isNull")]])]) = .ok lone ∧
    parse {} lone.text = .ok (.leaf ⟨"a", .isNull, .none⟩) ∧ parse {} lone.text ≠ .ok lone := by
  have hdepth : lone.depth ≤ 32 := by simp [lone, depth]
  have hconditions : lone.leafCount ≤ 50 := by simp [lone, leafCount]
  have hparse := @parse_text_of_ofJson {} {} _ _ ofJson_lone size_text_lone hdepth hconditions
  have hcollapse : lone.collapse = .leaf ⟨"a", .isNull, .none⟩ := by simp [lone, collapse]
  refine ⟨ofJson_lone, ?_, fun h => not_branching_lone (hparse.2.1 h)⟩
  rw [← hcollapse]
  exact hparse.1

/-- The text of a decoded rule can be read back as another one. -/
theorem not_parse_text_of_ofJson : ¬ ∀ (limits limits' : Limits) (v : Json) (r : Rule),
    ofJson limits v = .ok r → r.text.utf8ByteSize ≤ limits'.size → r.depth ≤ limits'.depth →
      r.leafCount ≤ limits'.conditions → parse limits' r.text = .ok r := by
  intro h
  have hparse := h {} {} _ lone ofJson_lone size_text_lone (by simp [lone, depth])
    (by simp [lone, leafCount])
  exact not_branching_lone (branching_of_parse hparse)

/-- The structured form of a rule that was read from text is decoded to the rule where its groups
nest no deeper than the limit on parentheses allows, and refused for its depth where they do. -/
theorem ofJson_toJson_of_parse (h : parse limits text = .ok r) :
    ofJson limits r.toJson =
        (if r.depth ≤ limits.depth then .ok r else .error (.tooLarge .depth limits.depth)) ∧
      r.depth ≤ 2 * limits.depth + 2 :=
  ⟨ofJson_toJson (wellFormed_of_parse h) (leafCount_le_of_parse h), depth_le_of_parse h⟩

/-- A group in a group. Its text has one level of parentheses. -/
def nested : Rule :=
  .group .or
    [.group .and [.leaf ⟨"a", .isNull, .none⟩, .leaf ⟨"b", .isNull, .none⟩],
      .leaf ⟨"c", .isNull, .none⟩]

theorem wellFormed_nested : nested.WellFormed := by
  have ha := @wellFormed_nullTest "a" .isNull (by decide) rfl
  have hb := @wellFormed_nullTest "b" .isNull (by decide) rfl
  have hc := @wellFormed_nullTest "c" .isNull (by decide) rfl
  have hinner : (Rule.group .and
      [.leaf ⟨"a", .isNull, .none⟩, .leaf ⟨"b", .isNull, .none⟩]).WellFormed :=
    .group (by simp) (List.forall_mem_cons.2 ⟨ha, List.forall_mem_singleton.2 hb⟩)
  exact .group (by simp) (List.forall_mem_cons.2 ⟨hinner, List.forall_mem_singleton.2 hc⟩)

theorem parse_nested : parse ⟨64, 1, 3⟩ "(a IS NULL AND b IS NULL) OR c IS NULL" = .ok nested := by
  have htext : nested.text = "(a IS NULL AND b IS NULL) OR c IS NULL" := by
    simp only [nested, Rule.text, Rule.enclose, List.map, Comparison.text, Operand.text]
    decide
  have hparse := @parse_collapse ⟨64, 1, 3⟩ nested wellFormed_nested (by rw [htext]; decide)
    (by simp [nested, depth]) (by simp [nested, leafCount])
  have hcollapse : nested.collapse = nested := by simp [nested, collapse]
  rwa [hcollapse, htext] at hparse

theorem ofJson_toJson_nested :
    parse ⟨64, 1, 3⟩ "(a IS NULL AND b IS NULL) OR c IS NULL" = .ok nested ∧
      ofJson ⟨64, 1, 3⟩ nested.toJson = .error (.tooLarge .depth 1) := by
  have hdepth : ¬ nested.depth ≤ 1 := by simp [nested, depth]
  have hjson := (ofJson_toJson_of_parse parse_nested).1
  exact ⟨parse_nested, hjson.trans (if_neg hdepth)⟩

/-- The structured form of a rule that was read from text can be refused under the same limits. -/
theorem not_ofJson_toJson_of_parse : ¬ ∀ (limits : Limits) (text : String) (r : Rule),
    parse limits text = .ok r → ofJson limits r.toJson = .ok r := by
  intro h
  have hjson := h _ _ _ parse_nested
  have hdepth := (Payload.wellFormed_of_decode (ofJson_eq_ok_iff.1 hjson).1).2
  simp [nested, depth] at hdepth

end Rule

end RuleFilter
