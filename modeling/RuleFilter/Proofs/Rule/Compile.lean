import Mathlib.Data.List.Forall2
import RuleFilter.Proofs.Schema.Value
import RuleFilter.Proofs.Success

/-! When compilation succeeds, part by part, and what it gives. -/

namespace RuleFilter

theorem Rule.exists_of_mem_forall₂ {α β : Type} {rel : α → β → Prop} {as : List α} {bs : List β}
    (h : List.Forall₂ rel as bs) {b : β} (hb : b ∈ bs) : ∃ a ∈ as, rel a b := by
  induction h with
  | nil => simp at hb
  | @cons a b' as bs hab _ ih =>
    obtain rfl | hb := List.mem_cons.1 hb
    · exact ⟨a, by simp, hab⟩
    · obtain ⟨a', ha', hrel⟩ := ih hb
      exact ⟨a', by simp [ha'], hrel⟩

variable [Formats]

namespace Schema.Field

theorem checkValues_eq_ok_iff {f : Field} {op : Operator} {vs : List Value} :
    f.checkValues op vs = .ok () ↔ ∀ v ∈ vs, f.checkValue op v = .ok () := by
  induction vs with
  | nil => simp [checkValues]
  | cons v vs ih =>
    rw [checkValues, bind_eq_ok_iff, List.forall_mem_cons, ih]
    constructor
    · intro h
      rcases h with ⟨_, hv, hvs⟩
      exact ⟨hv, hvs⟩
    · intro h
      rcases h with ⟨hv, hvs⟩
      exact ⟨(), hv, hvs⟩

/-- A field takes a comparison just when the column, the operator, the shape of the operand and all
its values are right. -/
theorem check_eq_ok_iff {f : Field} {c : Comparison} : f.check c = .ok () ↔
    Sql.isColumn f.column ∧ f.supports c.operator ∧ (c.operator.isNullTest → f.nullable) ∧
      c.operand.shape = c.operator.shape ∧
      ∀ v ∈ c.operand.values, f.checkValue c.operator v = .ok () := by
  rw [check, ← checkValues_eq_ok_iff]
  split
  · next hcolumn => simp [hcolumn]
  · next hcolumn =>
    rw [not_not] at hcolumn
    split
    · next hsupports => simp [hsupports]
    · next hsupports =>
      rw [not_not] at hsupports
      split
      · next hnull => simp [hnull, refuse]
      · next hnull =>
        rw [not_and, not_not] at hnull
        split
        · next hshape => simp [hshape]
        · next hshape =>
          rw [ne_eq, not_not] at hshape
          exact ⟨fun h => ⟨hcolumn, hsupports, hnull, hshape, h⟩, fun h => h.2.2.2.2⟩

/-- The values that a field takes are not null except under equality. -/
theorem ne_null_of_check {f : Schema.Field} {c : Comparison} (h : f.check c = .ok ())
    (hop : c.operator.isEquality = false) : ∀ v ∈ c.operand.values, v ≠ .null := by
  rintro v hv rfl
  obtain ⟨-, -, -, -, hvalues⟩ := check_eq_ok_iff.1 h
  obtain ⟨-, hequality, -⟩ | htakes := checkValue_eq_ok_iff.1 (hvalues .null hv)
  · simp [hop] at hequality
  · cases htakes

theorem mem_operators_of_check {f : Schema.Field} {c : Comparison} (h : f.check c = .ok ()) :
    c.operator ∈ f.operators := by
  obtain ⟨-, hsupports, -⟩ := check_eq_ok_iff.1 h
  simpa [supports] using hsupports

/-- An operator that looks for a text has one value, which is not null. -/
theorem exists_single_of_check {f : Schema.Field} {c : Comparison} (h : f.check c = .ok ())
    (hop : c.operator.isTextual) : ∃ v, c.operand = .single v ∧ f.Takes v := by
  obtain ⟨-, -, -, hshape, hvalues⟩ := check_eq_ok_iff.1 h
  have hsingle : c.operator.shape = .single ∧ c.operator.isEquality = false := by
    revert hop
    generalize c.operator = op
    cases op <;> decide
  rw [hsingle.1] at hshape
  cases hoperand : c.operand with
  | single v =>
    have hv := hvalues v (by simp [hoperand, Operand.values])
    obtain ⟨-, hequality, -⟩ | htakes := checkValue_eq_ok_iff.1 hv
    · simp [hsingle.2] at hequality
    · exact ⟨v, rfl, htakes⟩
  | none => simp [hoperand, Operand.shape] at hshape
  | list vs => simp [hoperand, Operand.shape] at hshape
  | range low high => simp [hoperand, Operand.shape] at hshape

/-- Where fields allow no more than the operators of their types, what is looked for is a text. -/
theorem exists_string_of_check {f : Schema.Field} {c : Comparison}
    (h : f.check c = .ok ()) (hops : ∀ op ∈ f.operators, op ∈ f.type.operators)
    (hop : c.operator.isTextual) : ∃ s, c.operand = .single (.string s) := by
  have htype := FieldType.eq_string_of_isTextual hop (hops _ (mem_operators_of_check h))
  obtain ⟨v, hv, htakes⟩ := exists_single_of_check h hop
  have hkind : v.kind = .string := by rw [htakes.kind_eq, htype]; rfl
  cases v with
  | string s => exact ⟨s, hv⟩
  | number x => cases hkind
  | bool b => cases hkind
  | null => cases hkind

end Schema.Field

theorem Comparison.compile_eq_ok_iff {source : FieldSource} {chain : Guesser.Chain}
    {c : Comparison} {e : Condition} : c.compile source chain = .ok e ↔
    ∃ f, source c.field = some f ∧ f.check c = .ok () ∧
      e = ⟨c.field, f.column, f.type, c.operator, c.operand, chain.run c f⟩ := by
  rw [compile]
  cases hf : source c.field with
  | none => simp
  | some f =>
    simp only [bind_eq_ok_iff, Option.some.injEq, exists_eq_left']
    constructor
    · intro h
      rcases h with ⟨_, hcheck, he⟩
      cases he
      exact ⟨hcheck, rfl⟩
    · intro h
      rcases h with ⟨hcheck, rfl⟩
      exact ⟨(), hcheck, rfl⟩

namespace Rule

variable {source : FieldSource} {chain : Guesser.Chain} {p : Predicate} {ps : List Predicate}

theorem compile_leaf_eq_ok_iff {c : Comparison} : compile source chain (.leaf c) = .ok p ↔
    ∃ e, c.compile source chain = .ok e ∧ p = .condition e := by
  rw [compile, map_eq_ok_iff]
  constructor
  · intro h
    rcases h with ⟨e, he, rfl⟩
    exact ⟨e, he, rfl⟩
  · intro h
    rcases h with ⟨e, he, rfl⟩
    exact ⟨e, he, rfl⟩

theorem compile_leaf_of_check {c : Comparison} {f : Schema.Field} {e : Condition}
    (hf : source c.field = some f) (hcheck : f.check c = .ok ())
    (he : e = ⟨c.field, f.column, f.type, c.operator, c.operand, chain.run c f⟩) :
    compile source chain (.leaf c) = .ok (.condition e) :=
  compile_leaf_eq_ok_iff.2 ⟨e, Comparison.compile_eq_ok_iff.2 ⟨f, hf, hcheck, he⟩, rfl⟩

theorem compileAll_eq_ok_iff {rs : List Rule} : compileAll source chain rs = .ok ps ↔
    List.Forall₂ (fun r p => compile source chain r = .ok p) rs ps := by
  induction rs generalizing ps with
  | nil =>
    rw [compileAll, List.forall₂_nil_left_iff]
    constructor
    · intro h
      cases h
      rfl
    · rintro rfl
      rfl
  | cons r rs ih =>
    simp only [compileAll, bind_eq_ok_iff, List.forall₂_cons_left_iff, ih]
    constructor
    · intro h
      rcases h with ⟨p, hp, qs, hqs, he⟩
      cases he
      exact ⟨p, qs, hp, hqs, rfl⟩
    · intro h
      rcases h with ⟨p, qs, hp, hqs, rfl⟩
      exact ⟨p, hp, qs, hqs, rfl⟩

/-- A group compiles just when it has members and all of them compile. -/
theorem compile_group_eq_ok_iff {k : Combinator} {rs : List Rule} :
    compile source chain (.group k rs) = .ok p ↔ rs ≠ [] ∧ ∃ ps, p = Predicate.ofGroup k ps ∧
      List.Forall₂ (fun r p => compile source chain r = .ok p) rs ps := by
  cases rs with
  | nil => simp [compile]
  | cons r rs =>
    simp only [compile, bind_eq_ok_iff, compileAll_eq_ok_iff, List.forall₂_cons_left_iff]
    constructor
    · intro h
      rcases h with ⟨q, hq, qs, hqs, he⟩
      cases he
      exact ⟨by simp, _, rfl, q, qs, hq, hqs, rfl⟩
    · intro h
      rcases h with ⟨-, _, rfl, q, qs, hq, hqs, rfl⟩
      exact ⟨q, hq, qs, hqs, rfl⟩

theorem map_eq_map_of_compiled {β : Type} {rs : List Rule} {f : Rule → β} {g : Predicate → β}
    (h : List.Forall₂ (fun r p => compile source chain r = .ok p) rs ps)
    (hfg : ∀ r ∈ rs, ∀ p, compile source chain r = .ok p → g p = f r) : ps.map g = rs.map f := by
  induction h with
  | nil => rfl
  | @cons r p rs ps hp _ ih =>
    have htail := ih fun r' hr' => hfg r' (by simp [hr'])
    rw [List.map_cons, List.map_cons, hfg r (by simp) p hp, htail]

/-- The conditions of a compiled rule are its comparisons, each one compiled, in the same order. -/
theorem compiled_leaves {r : Rule} (h : compile source chain r = .ok p) :
    List.Forall₂ (fun c e => c.compile source chain = .ok e) r.leaves p.conditions := by
  induction r using induct generalizing p with
  | leaf c =>
    obtain ⟨e, hc, rfl⟩ := compile_leaf_eq_ok_iff.1 h
    rw [leaves, Predicate.conditions_condition]
    exact .cons hc .nil
  | group k rs ih =>
    obtain ⟨-, ps, rfl, hps⟩ := compile_group_eq_ok_iff.1 h
    rw [leaves, Predicate.conditions_ofGroup]
    clear h
    induction hps with
    | nil => exact .nil
    | @cons r p rs ps hp _ ih' =>
      rw [List.forall_mem_cons] at ih
      rw [List.flatMap_cons, List.flatMap_cons]
      exact List.rel_append (ih.1 hp) (ih' ih.2)

/-- The conditions of a compiled rule are comparisons that their fields take. -/
theorem exists_check_of_mem_conditions {r : Rule} (h : compile source chain r = .ok p)
    {e : Condition} (he : e ∈ p.conditions) : ∃ c f, source c.field = some f ∧ f.check c = .ok () ∧
      e = ⟨c.field, f.column, f.type, c.operator, c.operand, chain.run c f⟩ := by
  obtain ⟨c, -, hc⟩ := exists_of_mem_forall₂ (compiled_leaves h) he
  exact ⟨c, Comparison.compile_eq_ok_iff.1 hc⟩

end Rule

end RuleFilter
