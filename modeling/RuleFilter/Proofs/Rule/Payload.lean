import RuleFilter.Proofs.Rule.Encoding
import RuleFilter.Proofs.Rule.Shape

/-!
Rules and their structured form. What is decoded has a form that text can express, and the
structured form of such a rule is decoded to the rule, unless its groups nest too deep.
-/

namespace RuleFilter

namespace Payload

section Encoded

variable {v : Json} {r : Rule}

theorem IsScalar.isWritable {u : Value} (h : IsScalar v u) : u.IsWritable := by
  cases h with
  | @integer _ x _ | real x => exact ⟨x, rfl⟩
  | _ => exact trivial

theorem EncodesOperand.shape_eq {shape : Shape} {x : Option Json} {operand : Operand}
    (h : EncodesOperand shape x operand) : operand.shape = shape := by
  cases h <;> rfl

theorem EncodesOperand.isWritable {shape : Shape} {x : Option Json} {operand : Operand}
    (h : EncodesOperand shape x operand) : ∀ u ∈ operand.values, u.IsWritable := by
  cases h with
  | absent | null => exact List.forall_mem_nil _
  | single hu => exact List.forall_mem_singleton.2 hu.isWritable
  | list hus => exact (forall₂_and_right.1 (hus.imp fun _ _ hu => ⟨hu, hu.isWritable⟩)).2
  | range hlow hhigh =>
    exact List.forall_mem_cons.2 ⟨hlow.isWritable, List.forall_mem_singleton.2 hhigh.isWritable⟩

/-- What a payload encodes can be written as text. -/
theorem Encodes.wellFormed (h : Encodes v r) : r.WellFormed := by
  induction r using Rule.induct generalizing v with
  | leaf c =>
    cases h with
    | leaf _ _ hword hreserved _ hoperand =>
      have hfield := Text.isFieldName_iff.2 ⟨hword, Keyword.ofWord?_eq_none_iff.2 hreserved⟩
      exact .leaf ⟨hfield, hoperand.shape_eq, hoperand.isWritable⟩
  | group combinator children ih =>
    cases h with
    | group _ hne _ _ hchildren =>
      have hnil : children ≠ [] := by
        rintro rfl
        exact hne (List.forall₂_nil_right_iff.1 hchildren)
      have hmembers : List.Forall₂ (fun v r => Encodes v r ∧ r.WellFormed) _ children :=
        (forall₂_and_right.2 ⟨hchildren, ih⟩).imp fun _ _ h => ⟨h.1, h.2 h.1⟩
      exact .group hnil (forall₂_and_right.1 hmembers).2

/-- What is decoded can be written as text, and its groups nest no deeper than was allowed. -/
theorem wellFormed_of_decode {limits : Limits} {n : Nat} {rules : List Nat}
    (h : decode limits n rules v = .ok r) : r.WellFormed ∧ r.depth ≤ n := by
  rcases encodes_of_decode h with ⟨hencodes, hdepth⟩
  exact ⟨hencodes.wellFormed, hdepth⟩

end Encoded

section Written

theorem isScalar_toJson {v : Value} (h : v.IsWritable) : IsScalar v.toJson v := by
  cases v with
  | number x =>
    obtain ⟨y, rfl⟩ := h
    exact .real y
  | _ => constructor

theorem isScalar_map_toJson {vs : List Value} (h : ∀ v ∈ vs, v.IsWritable) :
    List.Forall₂ IsScalar (vs.map Value.toJson) vs := by
  rw [List.forall₂_map_left_iff, List.forall₂_same]
  exact fun v hv => isScalar_toJson (h v hv)

theorem encodesOperand_toJson {v : Operand} (h : ∀ u ∈ v.values, u.IsWritable) :
    EncodesOperand v.shape v.toJson? v := by
  cases v with
  | none => exact .absent
  | single v => exact .single (isScalar_toJson (h v (by simp [Operand.values])))
  | list vs => exact .list (isScalar_map_toJson h)
  | range low high =>
    exact .range (isScalar_toJson (h low (by simp [Operand.values])))
      (isScalar_toJson (h high (by simp [Operand.values])))

theorem encodes_comparison {c : Comparison} (h : c.WellFormed) : Encodes c.toJson (.leaf c) := by
  obtain ⟨hword, hreserved⟩ := Text.isFieldName_iff.1 h.field
  have hoperand : EncodesOperand c.operator.shape c.operand.toJson? c.operand :=
    h.shape ▸ encodesOperand_toJson h.values
  refine .leaf ?_ rfl hword (Keyword.ofWord?_eq_none_iff.1 hreserved) rfl ?_
  · cases c.operand.toJson? <;> rfl
  · revert hoperand
    cases c.operand.toJson? <;> exact id

theorem encodes_toJson {r : Rule} (h : r.WellFormed) : Encodes r.toJson r := by
  induction h with
  | leaf hc =>
    rw [Rule.toJson]
    exact encodes_comparison hc
  | @group combinator children hne _ ih =>
    have hname : Text.sameWord combinator.name combinator.name := by simp [Text.sameWord]
    rw [Rule.toJson]
    refine .group rfl (List.map_eq_nil_iff.not.2 hne) rfl hname ?_
    rw [List.forall₂_map_left_iff, List.forall₂_same]
    exact ih

/-- The structured form of a rule is decoded to the rule, unless its groups nest too deep. -/
theorem decode_toJson {rules : List Nat} {limits : Limits} {n : Nat} {r : Rule}
    (h : r.WellFormed) : decode limits n rules r.toJson =
      if r.depth ≤ n then .ok r else .error (.tooLarge .depth limits.depth) :=
  decode_of_encodes (encodes_toJson h)

end Written

end Payload

namespace Rule

variable {limits : Limits} {v : Json} {r : Rule}

theorem wellFormed_of_ofJson (h : ofJson limits v = .ok r) : r.WellFormed :=
  (Payload.wellFormed_of_decode (ofJson_eq_ok_iff.1 h).1).1

/-- The structured form of a rule with few enough comparisons is decoded to the rule, or refused for
its depth. -/
theorem ofJson_toJson (h : r.WellFormed) (hconditions : r.leafCount ≤ limits.conditions) :
    ofJson limits r.toJson =
      if r.depth ≤ limits.depth then .ok r else .error (.tooLarge .depth limits.depth) := by
  have hdecode := @Payload.decode_toJson [] limits limits.depth r h
  split
  · next hdepth =>
    rw [if_pos hdepth] at hdecode
    exact ofJson_eq_ok_iff.2 ⟨hdecode, hconditions⟩
  · next hdepth =>
    rw [if_neg hdepth] at hdecode
    rw [ofJson, hdecode]
    rfl

/-- Just the rules that text can express are what their structured form is decoded to, groups of one
included, where the limits leave room for them. -/
theorem ofJson_toJson_iff : ofJson limits r.toJson = .ok r ↔
    r.WellFormed ∧ r.depth ≤ limits.depth ∧ r.leafCount ≤ limits.conditions := by
  constructor
  · intro h
    obtain ⟨hdecode, hconditions⟩ := ofJson_eq_ok_iff.1 h
    obtain ⟨hwell, hdepth⟩ := Payload.wellFormed_of_decode hdecode
    exact ⟨hwell, hdepth, hconditions⟩
  · intro h
    obtain ⟨hwell, hdepth, hconditions⟩ := h
    rw [ofJson_toJson hwell hconditions, if_pos hdepth]

end Rule

end RuleFilter
