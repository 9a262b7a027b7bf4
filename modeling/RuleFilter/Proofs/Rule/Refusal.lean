import RuleFilter.Proofs.Rule.Compile
import RuleFilter.Proofs.Schema.Index

/-!
Why a rule does not compile. The faults of a rule are its groups without members and the comparisons
that do not compile alone; the error is that of the first one in reading order, and if that is a
comparison the error names its field.
-/

namespace RuleFilter

namespace FilterError

/-- The field that an error names. -/
def field? : FilterError → Option String
  | .unknownField field | .badColumn field _ | .unsupported field _ _ | .badOperand field _ =>
    some field
  | .malformed _ _ | .badPayload _ _ | .tooLarge _ _ | .emptyGroup => none

/-- Whatever error a check ends with has a property. -/
def Fulfils (p : FilterError → Prop) (check : Except FilterError Unit) : Prop :=
  ∀ e, check = .error e → p e

end FilterError

namespace Schema.Field

open FilterError

section Values

variable {f : Field} {op : Operator} {p : FilterError → Prop}

theorem fulfils_ok : Fulfils p (.ok ()) := fun _ h => nomatch h

theorem fulfils_error {e : FilterError} (h : p e) : Fulfils p (.error e) := by
  rintro _ ⟨⟩
  exact h

theorem fulfils_ite {q : Prop} [Decidable q] {x y : Except FilterError Unit}
    (hx : Fulfils p x) (hy : Fulfils p y) : Fulfils p (if q then x else y) := by
  split
  · exact hx
  · exact hy

-- A field refuses values in one way only.
variable (h : ∀ fault, p (.badOperand f.name fault))
include h

theorem fulfils_refuse (fault : OperandFault) : Fulfils p (f.refuse fault) :=
  fulfils_error (h fault)

theorem fulfils_checkNull : Fulfils p (f.checkNull op) :=
  fulfils_ite (fulfils_refuse h _) (fulfils_ite (fulfils_refuse h _) fulfils_ok)

theorem fulfils_checkInteger (x : Binary64) : Fulfils p (f.checkInteger x) := by
  cases x with
  | finite y => exact fulfils_ite (fulfils_refuse h _) (fulfils_ite (fulfils_refuse h _) fulfils_ok)
  | infinite negative => exact fulfils_refuse h _
  | nan => exact fulfils_refuse h _

variable [Formats]

theorem fulfils_checkValue (v : Value) : Fulfils p (f.checkValue op v) := by
  unfold checkValue
  split
  case h_1 => exact fulfils_checkNull h
  case h_3 => exact fulfils_checkInteger h _
  case h_6 | h_7 | h_8 => exact fulfils_ite fulfils_ok (fulfils_refuse h _)
  case h_9 => exact fulfils_refuse h _
  all_goals exact fulfils_ok

theorem fulfils_checkValues (vs : List Value) : Fulfils p (f.checkValues op vs) := by
  induction vs with
  | nil => exact fulfils_ok
  | cons v vs ih =>
    intro e he
    rw [checkValues] at he
    cases hv : f.checkValue op v with
    | error e' =>
      rw [hv] at he
      cases he
      exact fulfils_checkValue h v e hv
    | ok _ =>
      rw [hv] at he
      exact ih e he

end Values

variable [Formats]

/-- The error of a comparison names the field by the comparison or by its description, which comes
to the same. -/
theorem field?_of_check {f : Field} {c : Comparison} (h : f.name = c.field) :
    Fulfils (·.field? = some c.field) (f.check c) := by
  have hrefuse (fault : OperandFault) :
      (FilterError.badOperand f.name fault).field? = some c.field := congrArg some h
  exact fulfils_ite (fulfils_error rfl) (fulfils_ite (fulfils_error rfl)
    (fulfils_ite (fulfils_refuse hrefuse _)
      (fulfils_ite (fulfils_error rfl) (fulfils_checkValues hrefuse _))))

/-- A field with a valid column is never refused for its column. -/
theorem ne_badColumn_of_check {f : Field} {c : Comparison} (h : Sql.isColumn f.column)
    (field column : String) : Fulfils (· ≠ .badColumn field column) (f.check c) := by
  have hrefuse (fault : OperandFault) :
      FilterError.badOperand f.name fault ≠ .badColumn field column := by simp
  rw [check, if_neg (not_not.2 h)]
  exact fulfils_ite (fulfils_error (by simp)) (fulfils_ite (fulfils_refuse hrefuse _)
    (fulfils_ite (fulfils_error (by simp)) (fulfils_checkValues hrefuse _)))

end Schema.Field

namespace Comparison

variable [Formats] {source : FieldSource} {chain : Guesser.Chain} {c : Comparison}

theorem field?_of_compile (hsource : ∀ name f, source name = some f → f.name = name)
    {e : FilterError} (h : c.compile source chain = .error e) : e.field? = some c.field := by
  rw [compile] at h
  cases hf : source c.field with
  | none =>
    rw [hf] at h
    cases h
    rfl
  | some f =>
    rw [hf] at h
    cases hcheck : f.check c with
    | error e' =>
      simp only [hcheck] at h
      cases h
      exact Schema.Field.field?_of_check (hsource _ _ hf) e hcheck
    | ok _ =>
      simp only [hcheck] at h
      cases h

theorem compile_ne_badColumn (hsource : ∀ name f, source name = some f → Sql.isColumn f.column)
    (field column : String) : c.compile source chain ≠ .error (.badColumn field column) := by
  intro h
  rw [compile] at h
  cases hf : source c.field with
  | none =>
    rw [hf] at h
    cases h
  | some f =>
    simp only [hf] at h
    obtain h | ⟨_, -, h⟩ := bind_eq_error_iff.1 h
    · exact Schema.Field.ne_badColumn_of_check (hsource _ f hf) field column _ h rfl
    · cases h

theorem exists_compile_eq_ok_iff : (∃ e, c.compile source chain = .ok e) ↔
    ∃ f, source c.field = some f ∧ Sql.isColumn f.column ∧ f.supports c.operator ∧
      (c.operator.isNullTest → f.nullable) ∧ c.operand.shape = c.operator.shape ∧
      ∀ v ∈ c.operand.values, v = .null ∧ c.operator.isEquality ∧ f.nullable ∨ f.Takes v := by
  simp only [compile_eq_ok_iff, Schema.Field.check_eq_ok_iff, Schema.Field.checkValue_eq_ok_iff]
  constructor
  · rintro ⟨_, f, hf, hcheck, -⟩
    exact ⟨f, hf, hcheck⟩
  · rintro ⟨f, hf, hcheck⟩
    exact ⟨_, f, hf, hcheck, rfl⟩

end Comparison

namespace Rule

/-- A rule and all rules within it in reading order, each group before its members. -/
def nodes : Rule → List Rule
  | .leaf c => [.leaf c]
  | .group k rs => .group k rs :: rs.flatMap fun r => nodes r

theorem nodes_leaf (c : Comparison) : (leaf c).nodes = [.leaf c] := by rw [nodes]

theorem nodes_group (k : Combinator) (rs : List Rule) :
    (group k rs).nodes = .group k rs :: rs.flatMap nodes := by rw [nodes]

theorem leaf_mem_nodes_iff {c : Comparison} {r : Rule} : .leaf c ∈ r.nodes ↔ c ∈ r.leaves := by
  induction r using induct with
  | leaf d => simp [nodes_leaf, leaves]
  | group k rs ih =>
    rw [nodes_group, leaves, List.mem_cons, List.mem_flatMap, List.mem_flatMap,
      or_iff_right (by simp)]
    exact exists_congr fun r => and_congr_right fun hr => ih r hr

variable [Formats] {source : FieldSource} {chain : Guesser.Chain}

/-- What is wrong with a rule other than in its members. -/
def fault? (source : FieldSource) (chain : Guesser.Chain) : Rule → Option FilterError
  | .leaf c => error? (c.compile source chain)
  | .group _ [] => some .emptyGroup
  | .group _ (_ :: _) => none

theorem error?_compileAll {rs : List Rule}
    (h : ∀ r ∈ rs, error? (r.compile source chain) = r.nodes.findSome? (fault? source chain)) :
    error? (compileAll source chain rs) = (rs.flatMap nodes).findSome? (fault? source chain) := by
  induction rs with
  | nil => rfl
  | cons r rs ih =>
    rw [List.forall_mem_cons] at h
    rw [compileAll, error?_bind_bind, List.flatMap_cons, List.findSome?_append, h.1, ih h.2]

theorem error?_compile (r : Rule) :
    error? (r.compile source chain) = r.nodes.findSome? (fault? source chain) := by
  induction r using induct with
  | leaf c => rw [compile, error?_map, nodes_leaf, List.findSome?_singleton, fault?]
  | group k rs ih =>
    cases rs with
    | nil => rw [compile, nodes_group, List.findSome?_cons, fault?, error?]
    | cons r rs =>
      rw [nodes_group, List.findSome?_cons, fault?, ← error?_compileAll ih, compileAll,
        error?_bind_bind, compile, error?_bind_bind]

/-- Where all columns are valid no rule is refused for a column. -/
theorem compile_ne_badColumn (hsource : ∀ name f, source name = some f → Sql.isColumn f.column)
    (r : Rule) (field column : String) :
    r.compile source chain ≠ .error (.badColumn field column) := by
  intro h
  rw [← error?_eq_some_iff, error?_compile] at h
  obtain ⟨n, -, hn⟩ := List.exists_of_findSome?_eq_some h
  match n with
  | .leaf c => exact Comparison.compile_ne_badColumn hsource field column (error?_eq_some_iff.1 hn)
  | .group k [] => cases hn
  | .group k (_ :: _) => cases hn

theorem forall_fault?_eq_none_iff {r : Rule} : (∀ n ∈ r.nodes, n.fault? source chain = none) ↔
    (∀ k, .group k [] ∉ r.nodes) ∧ ∀ c ∈ r.leaves, ∃ e, c.compile source chain = .ok e := by
  simp only [← leaf_mem_nodes_iff, ← error?_eq_none_iff]
  constructor
  · intro h
    exact ⟨fun k hk => (nomatch h _ hk), fun c hc => h _ hc⟩
  · rintro ⟨hgroups, hleaves⟩ n hn
    match n with
    | .leaf c => exact hleaves c hn
    | .group k [] => exact absurd hn (hgroups k)
    | .group k (_ :: _) => rfl

/-- A rule compiles if it has no group without members and its comparisons all compile alone, and
otherwise ends with the error of its first fault. An error of a comparison names its field. A
comparison compiles alone if the schema has its field with a valid column, and the field supports
its operator and takes its operand. -/
theorem first_fault_of_compile (entity : String) (puts : List Schema.Field)
    (chain : Guesser.Chain) (r : Rule) :
    let s := puts.foldl Schema.put { entity }
    ((∃ p, r.compile s.field? chain = .ok p) ↔ (∀ k, .group k [] ∉ r.nodes) ∧
        ∀ c ∈ r.leaves, ∃ e, c.compile s.field? chain = .ok e) ∧
      (∀ e, r.compile s.field? chain = .error e ↔ ∃ before n after,
        r.nodes = before ++ n :: after ∧ n.fault? s.field? chain = some e ∧
          ∀ m ∈ before, m.fault? s.field? chain = none) ∧
      (∀ (c : Comparison) e, c.compile s.field? chain = .error e → e.field? = some c.field) ∧
      ∀ c : Comparison, (∃ e, c.compile s.field? chain = .ok e) ↔ ∃ f ∈ s.fields, f.name = c.field ∧
        Sql.isColumn f.column ∧ f.supports c.operator ∧ (c.operator.isNullTest → f.nullable) ∧
        c.operand.shape = c.operator.shape ∧
        ∀ v ∈ c.operand.values, v = .null ∧ c.operator.isEquality ∧ f.nullable ∨ f.Takes v := by
  intro s
  have hindexed : s.Indexed := (Schema.indexed_empty entity).foldl_put puts
  refine ⟨?_, fun e => ?_, fun c e => ?_, fun c => ?_⟩
  · rw [← error?_eq_none_iff, error?_compile, List.findSome?_eq_none_iff, forall_fault?_eq_none_iff]
  · rw [← error?_eq_some_iff, error?_compile, List.findSome?_eq_some_iff]
  · exact Comparison.field?_of_compile fun name f hf => (hindexed.field?_eq_some_iff.1 hf).2
  · rw [Comparison.exists_compile_eq_ok_iff]
    simp only [hindexed.field?_eq_some_iff, and_assoc]

end Rule

end RuleFilter
