import RuleFilter.Proofs.Predicate.Collapse
import RuleFilter.Proofs.Rule.Canonical
import RuleFilter.Proofs.Rule.Compile

/-!
Rules kept as canonical text. Text does not show groups of one. Compilation carries them over to the
predicate and reports the same first error without them, and the text of a predicate does not show
them either, so that the rule read back stands for the same query.
-/

namespace RuleFilter

namespace Rule

variable {source : FieldSource} {chain : Guesser.Chain} {limits : Limits} {r : Rule}

theorem compile_group [Formats] (k : Combinator) (rs : List Rule) :
    compile source chain (.group k rs) = if rs = [] then .error .emptyGroup
      else (compileAll source chain rs).map (Predicate.ofGroup k) := by
  cases rs with
  | nil => rw [compile, if_pos rfl]
  | cons r rs =>
    rw [compile, compileAll, if_neg (List.cons_ne_nil r rs)]
    cases compile source chain r with
    | error e => rfl
    | ok p => cases compileAll source chain rs <;> rfl

theorem compile_singleton [Formats] (k : Combinator) (r : Rule) :
    compile source chain (.group k [r]) =
      (compile source chain r).map fun p => Predicate.ofGroup k [p] := by
  rw [compile, compileAll]
  cases compile source chain r <;> rfl

theorem compileAll_map_collapse [Formats] {rs : List Rule}
    (ih : ∀ r ∈ rs, compile source chain r.collapse =
      (compile source chain r).map Predicate.collapse) :
    compileAll source chain (rs.map collapse) =
      (compileAll source chain rs).map (List.map Predicate.collapse) := by
  induction rs with
  | nil => rfl
  | cons r rs ih' =>
    rw [List.forall_mem_cons] at ih
    rw [List.map_cons, compileAll, compileAll, ih.1, ih' ih.2]
    cases compile source chain r with
    | error e => rfl
    | ok p => cases compileAll source chain rs <;> rfl

/-- Without its groups of one a rule fails with the same error or gives the same predicate without
its groups of one. -/
theorem compile_collapse [Formats] (r : Rule) : compile source chain r.collapse =
    (compile source chain r).map Predicate.collapse := by
  induction r using induct with
  | leaf c =>
    rw [collapse, compile]
    cases c.compile source chain with
    | error e => rfl
    | ok e => exact congrArg Except.ok (Predicate.collapse_condition e).symm
  | group k rs ih =>
    by_cases hlen : rs.length = 1
    · obtain ⟨r, rfl⟩ := List.length_eq_one_iff.1 hlen
      rw [collapse_singleton, ih r (by simp), compile_singleton]
      cases compile source chain r with
      | error e => rfl
      | ok p => exact congrArg Except.ok (Predicate.collapse_ofGroup_singleton k p).symm
    · rw [collapse_group hlen, compile_group, compile_group, compileAll_map_collapse ih]
      simp only [List.map_eq_nil_iff]
      split
      · rfl
      · cases hps : compileAll source chain rs with
        | error e => rfl
        | ok ps =>
          have hlength := (compileAll_eq_ok_iff.1 hps).length_eq
          rw [hlength] at hlen
          exact congrArg Except.ok (Predicate.collapse_ofGroup k hlen).symm

/-- Unless limits refuse the canonical text of a rule, it is read as a rule that stands for the same
query: against every schema both fail with the same error, or both give the same text and the same
parameters, and the same conditions with the same forms. -/
theorem compile_parse_text [Formats] (h : r.WellFormed)
    (hlimits : ∀ limit, parse limits r.text ≠ .error (.tooLarge limit (limits.of limit))) :
    ∃ s, parse limits r.text = .ok s ∧ ∀ source chain d tableAlias params,
      (compile source chain s).map (fun p => (p.toSql d tableAlias params, p.conditions)) =
        (compile source chain r).map fun p => (p.toSql d tableAlias params, p.conditions) := by
  obtain hparse | ⟨limit, hparse⟩ : parse limits r.text = .ok r.collapse ∨ _ := parse_canonical_or h
  · refine ⟨r.collapse, hparse, fun source chain d tableAlias params => ?_⟩
    rw [compile_collapse]
    cases compile source chain r with
    | error e => rfl
    | ok p =>
      simp only [Except.map, Predicate.toSql_collapse, Predicate.conditions_collapse]
  · exact absurd hparse (hlimits limit)

def bookSchema : Schema where
  entity := "book"
  fields := [{ name := "title", type := .string }, { name := "author", type := .string }]

/-- Groups of one around a group, around a group of one and around a comparison. -/
def wrapped (field : String) : Rule :=
  .group .or
    [.group .and [.group .or [.group .and
        [.leaf ⟨"title", .isNull, .none⟩, .leaf ⟨field, .isNotNull, .none⟩]]],
      .group .and [.leaf ⟨"title", .eq, .single (.string "x")⟩]]

theorem wellFormed_wrapped {field : String} (h : Text.isFieldName field) :
    (wrapped field).WellFormed := by
  have hgroup {k : Combinator} {r : Rule} (hr : r.WellFormed) : (Rule.group k [r]).WellFormed :=
    .group (by simp) (List.forall_mem_singleton.2 hr)
  have hnull : (Rule.leaf ⟨"title", .isNull, .none⟩).WellFormed :=
    wellFormed_nullTest (by decide) rfl
  have hnotNull : (Rule.leaf ⟨field, .isNotNull, .none⟩).WellFormed := wellFormed_nullTest h rfl
  have heq : (Rule.leaf ⟨"title", .eq, .single (.string "x")⟩).WellFormed :=
    .leaf ⟨by decide, rfl, by simp [Operand.values, Value.IsWritable]⟩
  have hpair : (Rule.group .and
      [.leaf ⟨"title", .isNull, .none⟩, .leaf ⟨field, .isNotNull, .none⟩]).WellFormed :=
    .group (by simp) (List.forall_mem_cons.2 ⟨hnull, List.forall_mem_singleton.2 hnotNull⟩)
  exact .group (by simp) (List.forall_mem_cons.2
    ⟨hgroup (hgroup hpair), List.forall_mem_singleton.2 (hgroup heq)⟩)

theorem size_text_wrapped : ∀ field ∈ ["author", "year"],
    (wrapped field).text.utf8ByteSize ≤ Limits.size {} := by
  simp only [wrapped, text, enclose, List.map, Comparison.text, Operand.text, Value.text]
  decide

def wrappedPredicate : Predicate :=
  .any
    [.all [.any [.all [.condition ⟨"title", "title", .string, .isNull, .none, {}⟩,
        .condition ⟨"author", "author", .string, .isNotNull, .none, {}⟩]]],
      .all [.condition ⟨"title", "title", .string, .eq, .single (.string "x"), {}⟩]]

theorem toSql_wrappedPredicate : wrappedPredicate.toSql .sqlite "" [] =
    ("(title IS NULL AND author IS NOT NULL) OR title = ?", [.string "x"]) := by
  simp [wrappedPredicate, Predicate.toSql, Predicate.text, Predicate.texts, Predicate.bound,
    Predicate.conditions, Predicate.joinParts]
  decide

/-- The rule read back gives the same text, and where a field is unknown the same error. -/
theorem compile_parse_text_wrapped :
    let query (r : Rule) := (compile bookSchema.field? [] r).map fun p =>
      (p.toSql .sqlite "" [], p.conditions)
    (∃ s, parse {} (wrapped "author").text = .ok s ∧ query s =
        .ok (("(title IS NULL AND author IS NOT NULL) OR title = ?", [.string "x"]),
          wrappedPredicate.conditions)) ∧
      ∃ s, parse {} (wrapped "year").text = .ok s ∧ query s = .error (.unknownField "year") := by
  intro query
  have hnames : ∀ field ∈ ["author", "year"], Text.isFieldName field := by decide
  have hstored : ∀ field ∈ ["author", "year"],
      ∃ s, parse {} (wrapped field).text = .ok s ∧ query s = query (wrapped field) := by
    intro field hfield
    have hwell := wellFormed_wrapped (hnames field hfield)
    have hparse : parse {} (wrapped field).text = .ok (wrapped field).collapse :=
      parse_collapse hwell (size_text_wrapped field hfield) (by simp [wrapped, depth])
        (by simp [wrapped, leafCount])
    have hlimits : ∀ limit, parse {} (wrapped field).text ≠
        .error (.tooLarge limit (Limits.of {} limit)) := by simp [hparse]
    obtain ⟨s, hs, hquery⟩ := compile_parse_text hwell hlimits
    exact ⟨s, hs, hquery bookSchema.field? [] .sqlite "" []⟩
  obtain ⟨s, hs, hauthor⟩ := hstored "author" (by simp)
  obtain ⟨t, ht, hyear⟩ := hstored "year" (by simp)
  have hcompile : compile bookSchema.field? [] (wrapped "author") = .ok wrappedPredicate := rfl
  refine ⟨⟨s, hs, ?_⟩, t, ht, hyear.trans rfl⟩
  rw [hauthor, ← toSql_wrappedPredicate]
  simp only [query, hcompile, Except.map]

end Rule

end RuleFilter
