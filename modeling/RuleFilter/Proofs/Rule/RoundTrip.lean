import RuleFilter.Proofs.Reading.Canonical
import RuleFilter.Proofs.Rule.Parse

/-!
The round trip between rules and their text. Reading the text of a rule gives back the rule, up to
groups of one, which the text does not show.
-/

namespace RuleFilter

namespace Rule

theorem wholeRule_lexemes {r : Rule} (h : r.WellFormed) {n : Nat} (hn : r.depth ≤ n)
    {ts : List Token} (hts : ts.map Token.lexeme = r.lexemes) :
    Reading.wholeRule n ts = .ok r.collapse := by
  rw [Reading.wholeRule_eq_ok_iff, hts]
  exact Reading.derivesWithin_lexemes h (Nat.le_succ_of_le hn)

/-- Within limits that the rule keeps, its text is read back as the rule without its groups of one,
which is the rule itself where every group has two members or more. -/
theorem parse_text {limits : Limits} {r : Rule} (h : r.WellFormed)
    (hsize : r.text.utf8ByteSize ≤ limits.size) (hdepth : r.depth ≤ limits.depth)
    (hconditions : r.leafCount ≤ limits.conditions) :
    parse limits r.text = .ok r.collapse ∧ (r.Branching → parse limits r.text = .ok r) := by
  have hparse : parse limits r.text = .ok r.collapse := by
    obtain ⟨ts, hscan, hts⟩ := (spells_text h).scanned
    have hcount : r.collapse.leafCount ≤ limits.conditions := by rwa [leafCount_collapse]
    exact parse_eq_ok_iff.2 ⟨hsize, ⟨ts, hscan, wholeRule_lexemes h hdepth hts⟩, hcount⟩
  refine ⟨hparse, fun hr => ?_⟩
  rw [hparse, collapse_eq_self hr]

/-- A rule with quotes, a negative number and an empty list, in which groups nest. -/
def sample : Rule :=
  .group .or
    [.leaf ⟨"note", .contains, .single (.string "say \"no\"\\\n")⟩,
      .group .and
        [.leaf ⟨"user.age", .between,
            .range (.number (.finite ⟨true, 1023 * Binary64.span, by decide⟩)) .null⟩,
          .leaf ⟨"tag", .noneOf, .list []⟩]]

theorem wellFormed_sample : sample.WellFormed := by
  refine .group (by simp) ?_
  simp only [List.forall_mem_cons, List.not_mem_nil, false_implies, implies_true, and_true]
  refine ⟨.leaf ⟨by decide, rfl, ?_⟩, .group (by simp) ?_⟩
  · simp [Operand.values, Value.IsWritable]
  simp only [List.forall_mem_cons, List.not_mem_nil, false_implies, implies_true, and_true]
  refine ⟨.leaf ⟨by decide, rfl, ?_⟩, .leaf ⟨by decide, rfl, ?_⟩⟩
  · simp [Operand.values, Value.IsWritable]
  · simp [Operand.values]

theorem branching_sample : sample.Branching := by
  refine .group (by decide) ?_
  simp only [List.forall_mem_cons, List.not_mem_nil, false_implies, implies_true, and_true]
  refine ⟨.leaf _, .group (by decide) ?_⟩
  simp only [List.forall_mem_cons, List.not_mem_nil, false_implies, implies_true, and_true]
  exact ⟨.leaf _, .leaf _⟩

theorem size_text_sample : sample.text.utf8ByteSize ≤ Limits.size {} := by
  simp only [sample, text, enclose, List.map, Comparison.text, Operand.text, Value.text]
  decide +kernel

/-- The sample is read back, also from inside a group of one. -/
theorem parse_text_sample :
    parse {} sample.text = .ok sample ∧ parse {} (group .or [sample]).text = .ok sample := by
  have hdepth : sample.depth = 2 := by simp [sample, depth]
  have hcount : sample.leafCount = 3 := by simp [sample, leafCount]
  have hgroup : (group .or [sample]).WellFormed := .group (by simp) (by simp [wellFormed_sample])
  constructor
  · exact (parse_text wellFormed_sample size_text_sample (by simp [hdepth])
      (by simp [hcount])).2 branching_sample
  · have hparse : parse {} (group .or [sample]).text = .ok (group .or [sample]).collapse :=
      (parse_text hgroup (by simpa [text] using size_text_sample) (by simp [depth, hdepth])
        (by simp [leafCount, hcount])).1
    rwa [collapse_singleton, collapse_eq_self branching_sample] at hparse

end Rule

end RuleFilter
