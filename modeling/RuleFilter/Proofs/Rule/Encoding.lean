import Mathlib.Data.List.Forall2
import RuleFilter.Proofs.Binary64.Whole
import RuleFilter.Proofs.Reading.Grammar
import RuleFilter.Proofs.Success
import RuleFilter.Rule.Payload

/-!
The structured format, as payloads have it: what a payload encodes is told by its form alone.
Decoding finds the rule that a payload encodes and nothing else, unless the limits refuse that rule.
-/

namespace RuleFilter

namespace Payload

/-- A value that is no array and no object. An integer stands for the number nearest to it. -/
inductive IsScalar : Json → Value → Prop
  | string (s : String) : IsScalar (.string s) (.string s)
  | integer {i : Int} {x : Binary64.Finite} :
      Binary64.ofInt i = .finite x → IsScalar (.integer i) (.number x)
  | real (x : Binary64.Finite) : IsScalar (.real x) (.number x)
  | bool (b : Bool) : IsScalar (.bool b) (.bool b)
  | null : IsScalar .null .null

theorem exists_isScalar_integer {i : Int} (h : i.natAbs ≤ 2 ^ 64) :
    ∃ x, IsScalar (.integer i) (.number x) := by
  have hbits : i.natAbs < 2 ^ 65 := by omega
  rcases Binary64.exists_finite_ofInt (by decide) hbits with ⟨x, hx⟩
  exact ⟨x, .integer hx⟩

/-- The value member of a comparison, if it has one, by the shape that the operator takes. -/
inductive EncodesOperand : Shape → Option Json → Operand → Prop
  | absent : EncodesOperand .none none .none
  | null : EncodesOperand .none (some .null) .none
  | single {v : Json} {u : Value} : IsScalar v u → EncodesOperand .single (some v) (.single u)
  | list {vs : List Json} {us : List Value} :
      List.Forall₂ IsScalar vs us → EncodesOperand .list (some (.array vs)) (.list us)
  | range {v w : Json} {low high : Value} : IsScalar v low → IsScalar w high →
      EncodesOperand .range (some (.array [v, w])) (.range low high)

/-- A group is an object with rules, whatever else it has, and a comparison is one without. -/
inductive Encodes : Json → Rule → Prop
  | leaf {members : Json.Members} {field : String} {op : Operator} {operand : Operand} :
      members.value? "rules" = none →
      members.value? "field" = some (.string field) → Text.isWord field.toList →
      (∀ k : Keyword, ¬ Text.sameWord k.text field) →
      members.value? "op" = some (.string op.name) →
      EncodesOperand op.shape (members.value? "value") operand →
      Encodes (.object members) (.leaf ⟨field, op, operand⟩)
  | group {members : Json.Members} {s : String} {combinator : Combinator} {items : List Json}
      {children : List Rule} :
      members.value? "rules" = some (.array items) → items ≠ [] →
      members.value? "combinator" = some (.string s) → Text.sameWord s combinator.name →
      List.Forall₂ Encodes items children →
      Encodes (.object members) (.group combinator children)

section Members

variable {rules : List Nat} {v : Json} {members : Json.Members}

theorem bind_string?_eq_some_iff {x : Option Json} {s : String} :
    x.bind Json.string? = some s ↔ x = some (.string s) := by
  cases x with
  | none => simp
  | some v => cases v <;> simp [Json.string?]

theorem decodeField_eq_ok_iff {field : String} : decodeField rules members = .ok field ↔
    members.value? "field" = some (.string field) ∧ Text.isFieldName field := by
  rw [← bind_string?_eq_some_iff, decodeField]
  split
  · next hnone => simp [hnone, fail]
  · next name hname =>
    rw [hname, Option.some.injEq]
    by_cases hempty : name = ""
    · subst hempty
      rw [if_pos rfl]
      constructor
      · intro h
        cases h
      · rintro ⟨rfl, hfield⟩
        cases hfield
    · rw [if_neg hempty]
      by_cases hfield : Text.isFieldName name
      · rw [if_pos hfield, Except.ok.injEq]
        constructor
        · rintro rfl
          exact ⟨rfl, hfield⟩
        · exact And.left
      · rw [if_neg hfield]
        constructor
        · intro h
          cases h
        · rintro ⟨rfl, hfield'⟩
          exact absurd hfield' hfield

theorem decodeOperator_eq_ok_iff {op : Operator} : decodeOperator rules members = .ok op ↔
    members.value? "op" = some (.string op.name) := by
  rw [← bind_string?_eq_some_iff, decodeOperator]
  split
  · next hnone => simp [hnone, fail]
  · next name hname =>
    rw [hname, Option.some.injEq]
    constructor
    · intro h
      split at h
      · next op' hop =>
        cases h
        exact (Operator.name_of_ofName? hop).symm
      · cases h
    · rintro rfl
      rw [Operator.ofName?_name]

theorem decodeCombinator_eq_ok_iff {k : Combinator} : decodeCombinator rules members = .ok k ↔
    ∃ s, members.value? "combinator" = some (.string s) ∧ Text.sameWord s k.name := by
  simp only [← bind_string?_eq_some_iff, decodeCombinator]
  split
  · next hnone => simp [hnone, fail]
  · next s hs =>
    simp only [hs, Option.some.injEq, exists_eq_left']
    have hapart : Text.sameWord s "and" → Text.sameWord s "or" → False := by
      simp only [Text.sameWord, beq_iff_eq]
      intro hand hor
      rw [hand] at hor
      revert hor
      decide
    by_cases hand : Text.sameWord s "and"
    · rw [if_pos hand]
      cases k with
      | and => simpa [Combinator.name] using hand
      | or => simpa [Combinator.name] using hapart hand
    · rw [if_neg hand]
      by_cases hor : Text.sameWord s "or"
      · rw [if_pos hor]
        cases k with
        | and => simpa [Combinator.name] using hand
        | or => simpa [Combinator.name] using hor
      · rw [if_neg hor]
        cases k with
        | and => simpa [Combinator.name, fail] using hand
        | or => simpa [Combinator.name, fail] using hor

theorem decodeRules_eq_ok_iff {items : List Json} :
    decodeRules rules v = .ok items ↔ v = .array items ∧ items ≠ [] := by
  cases v with
  | array vs =>
    cases vs with
    | nil =>
      rw [decodeRules, Json.array.injEq]
      constructor
      · intro h
        cases h
      · rintro ⟨rfl, hne⟩
        exact absurd rfl hne
    | cons v vs =>
      rw [decodeRules, Except.ok.injEq, Json.array.injEq]
      · constructor
        · rintro rfl
          exact ⟨rfl, by simp⟩
        · exact And.left
      · simp
  | _ => simp [decodeRules, fail]

end Members

section Values

variable {rules : List Nat} {v : Json}

theorem decodeValue_eq_ok_iff {part : PayloadPart} {u : Value} :
    decodeValue rules part v = .ok u ↔ IsScalar v u := by
  -- By the cases of the function: with those of the value, the nearest number to an integer would
  -- be computed to see which error it is.
  fun_cases decodeValue rules part v with
  | case1 s | case4 x | case5 b | case6 =>
    rw [Except.ok.injEq]
    constructor
    · rintro rfl
      constructor
    · intro h
      cases h
      rfl
  | case2 i x hx =>
    rw [Except.ok.injEq]
    constructor
    · rintro rfl
      exact .integer hx
    · intro h
      cases h with
      | integer hx' =>
        cases hx.symm.trans hx'
        rfl
  | case3 i hinfinite =>
    constructor
    · intro h
      cases h
    · intro h
      cases h with
      | integer hx => exact absurd hx (hinfinite _)
  | case7 | case8 =>
    constructor
    · intro h
      cases h
    · intro h
      cases h

end Values

theorem forall₂_and_right {α β : Type} {R : α → β → Prop} {p : β → Prop} {as : List α}
    {bs : List β} :
    List.Forall₂ (fun a b => R a b ∧ p b) as bs ↔ List.Forall₂ R as bs ∧ ∀ b ∈ bs, p b := by
  induction as generalizing bs with
  | nil =>
    rw [List.forall₂_nil_left_iff, List.forall₂_nil_left_iff]
    constructor
    · rintro rfl
      exact ⟨rfl, List.forall_mem_nil p⟩
    · exact And.left
  | cons a as ih =>
    cases bs with
    | nil => simp
    | cons b bs =>
      rw [List.forall₂_cons, List.forall₂_cons, List.forall_mem_cons, ih]
      exact and_and_and_comm

section Items

variable {α : Type} {decode : Nat → Json → Except FilterError α} {encodes : Json → α → Prop}
  {i : Nat} {vs : List Json} {as : List α}

theorem decodeItems_cons_eq_ok_iff {v : Json} : decodeItems decode i (v :: vs) = .ok as ↔
    ∃ a as', decode i v = .ok a ∧ decodeItems decode (i + 1) vs = .ok as' ∧ as = a :: as' := by
  simp only [decodeItems, bind_eq_ok_iff]
  constructor
  · intro h
    rcases h with ⟨a, ha, as', has, heq⟩
    cases heq
    exact ⟨a, as', ha, has, rfl⟩
  · intro h
    rcases h with ⟨a, as', ha, has, rfl⟩
    exact ⟨a, ha, as', has, rfl⟩

theorem forall₂_of_decodeItems (h : decodeItems decode i vs = .ok as)
    (hitem : ∀ i v a, decode i v = .ok a → encodes v a) : List.Forall₂ encodes vs as := by
  induction vs generalizing i as with
  | nil =>
    cases h
    exact .nil
  | cons v vs ih =>
    rcases decodeItems_cons_eq_ok_iff.1 h with ⟨a, as', ha, has, rfl⟩
    exact .cons (hitem i v a ha) (ih has)

theorem decodeItems_of_forall₂ (h : List.Forall₂ encodes vs as)
    (hitem : ∀ i v a, encodes v a → decode i v = .ok a) : decodeItems decode i vs = .ok as := by
  induction h generalizing i with
  | nil => rfl
  | cons ha _ ih => exact decodeItems_cons_eq_ok_iff.2 ⟨_, _, hitem i _ _ ha, ih, rfl⟩

/-- Items that are decoded unless they lack a property, for one and the same error, are decoded
unless one of them lacks it. -/
theorem decodeItems_eq_ite {p : α → Prop} [DecidablePred p] {e : FilterError}
    (h : List.Forall₂ (fun v a => ∀ i, decode i v = if p a then .ok a else .error e) vs as) :
    decodeItems decode i vs = if ∀ a ∈ as, p a then .ok as else .error e := by
  induction h generalizing i with
  | nil => simp [decodeItems]
  | @cons v a vs as hv _ ih =>
    rw [decodeItems, hv, ih]
    by_cases ha : p a
    · by_cases has : ∀ b ∈ as, p b
      · rw [if_pos ha, if_pos has, if_pos (List.forall_mem_cons.2 ⟨ha, has⟩)]
        rfl
      · rw [if_pos ha, if_neg has, if_neg fun hall => has (List.forall_mem_cons.1 hall).2]
        rfl
    · rw [if_neg ha, if_neg fun hall => ha (List.forall_mem_cons.1 hall).1]
      rfl

end Items

section Rules

variable {limits : Limits} {rules : List Nat} {v : Json} {members : Json.Members} {r : Rule}

theorem decodeOperand_eq_ok_iff {op : Operator} {x : Option Json} {operand : Operand} :
    decodeOperand rules op x = .ok operand ↔ EncodesOperand op.shape x operand := by
  constructor
  · intro h
    unfold decodeOperand at h
    split at h
    · next hshape =>
      cases h
      exact hshape ▸ .absent
    · next hshape =>
      cases h
      exact hshape ▸ .null
    · cases h
    · next v hshape =>
      rcases map_eq_ok_iff.1 h with ⟨u, hu, rfl⟩
      exact hshape ▸ .single (decodeValue_eq_ok_iff.1 hu)
    · cases h
    · next vs hshape =>
      rcases map_eq_ok_iff.1 h with ⟨us, hus, rfl⟩
      exact hshape ▸ .list (forall₂_of_decodeItems hus fun _ _ _ => decodeValue_eq_ok_iff.1)
    · cases h
    · next v w hshape =>
      simp only [bind_eq_ok_iff] at h
      rcases h with ⟨low, hlow, high, hhigh, heq⟩
      cases heq
      exact hshape ▸ .range (decodeValue_eq_ok_iff.1 hlow) (decodeValue_eq_ok_iff.1 hhigh)
    · cases h
  · intro h
    unfold decodeOperand
    generalize op.shape = shape at h
    cases h with
    | absent => rfl
    | null => rfl
    | single hu => exact map_eq_ok_iff.2 ⟨_, decodeValue_eq_ok_iff.2 hu, rfl⟩
    | list hus =>
      exact map_eq_ok_iff.2
        ⟨_, decodeItems_of_forall₂ hus fun _ _ _ => decodeValue_eq_ok_iff.2, rfl⟩
    | range hlow hhigh =>
      simp only [bind_eq_ok_iff]
      exact ⟨_, decodeValue_eq_ok_iff.2 hlow, _, decodeValue_eq_ok_iff.2 hhigh, rfl⟩

theorem decodeComparison_eq_ok_iff {c : Comparison} : decodeComparison rules members = .ok c ↔
    members.value? "field" = some (.string c.field) ∧ Text.isFieldName c.field ∧
      members.value? "op" = some (.string c.operator.name) ∧
      EncodesOperand c.operator.shape (members.value? "value") c.operand := by
  simp only [decodeComparison, bind_eq_ok_iff, decodeField_eq_ok_iff, decodeOperator_eq_ok_iff,
    decodeOperand_eq_ok_iff]
  constructor
  · rintro ⟨field, ⟨hfield, hname⟩, op, hop, operand, hoperand, heq⟩
    cases heq
    exact ⟨hfield, hname, hop, hoperand⟩
  · rintro ⟨hfield, hname, hop, hoperand⟩
    exact ⟨c.field, ⟨hfield, hname⟩, c.operator, hop, c.operand, hoperand, rfl⟩

/-- A comparison is decoded from an object without rules, and a group, where there is room for one
more level, from an object with some. -/
theorem decode_eq_ok_iff {n : Nat} :
    decode limits n rules v = .ok r ↔ ∃ members : Json.Members, v = .object members ∧
      (members.value? "rules" = none ∧
          (∃ c, decodeComparison rules members = .ok c ∧ .leaf c = r) ∨
        ∃ w combinator items m children, members.value? "rules" = some w ∧
          decodeCombinator rules members = .ok combinator ∧ decodeRules rules w = .ok items ∧
          n = m + 1 ∧
          decodeItems (fun i v => decode limits m (rules ++ [i]) v) 0 items = .ok children ∧
          .group combinator children = r) := by
  cases v with
  | object members =>
    cases hmembers : Entries.value? members "rules" with
    | none => simp [decode, hmembers, map_eq_ok_iff]
    | some w =>
      cases n with
      | zero => simp [decode, hmembers, bind_eq_ok_iff]
      | succ n =>
        simp [decode, hmembers, bind_eq_ok_iff, Functor.map, map_eq_ok_iff]
  | _ => simp [decode, fail]

theorem decode_group {n : Nat} {w : Json} {combinator : Combinator} {items : List Json}
    (hmembers : members.value? "rules" = some w)
    (hcombinator : decodeCombinator rules members = .ok combinator)
    (hrules : decodeRules rules w = .ok items) : decode limits n rules (.object members) =
      match n with
      | 0 => .error (.tooLarge .depth limits.depth)
      | m + 1 => (decodeItems (fun i v => decode limits m (rules ++ [i]) v) 0 items).map
          (.group combinator) := by
  cases n with
  | zero =>
    simp only [decode, hmembers, hcombinator, hrules]
    rfl
  | succ m =>
    simp only [decode, hmembers, hcombinator, hrules]
    rfl

theorem decode_leaf_iff {n : Nat} {c : Comparison} :
    decode limits n rules v = .ok (.leaf c) ↔ Encodes v (.leaf c) := by
  rw [decode_eq_ok_iff]
  constructor
  · rintro ⟨members, rfl, ⟨hrules, c', hc, heq⟩ | ⟨_, _, _, _, _, _, _, _, _, _, heq⟩⟩
    · cases heq
      obtain ⟨hfield, hname, hop, hoperand⟩ := decodeComparison_eq_ok_iff.1 hc
      obtain ⟨hword, hreserved⟩ := Text.isFieldName_iff.1 hname
      exact .leaf hrules hfield hword (Keyword.ofWord?_eq_none_iff.1 hreserved) hop hoperand
    · cases heq
  · intro h
    cases h with
    | leaf hrules hfield hword hreserved hop hoperand =>
      have hname := Text.isFieldName_iff.2 ⟨hword, Keyword.ofWord?_eq_none_iff.2 hreserved⟩
      exact ⟨_, rfl, .inl ⟨hrules, _,
        decodeComparison_eq_ok_iff.2 ⟨hfield, hname, hop, hoperand⟩, rfl⟩⟩

/-- What a payload encodes is decoded, unless its groups nest too deep. -/
theorem decode_of_encodes {n : Nat} (h : Encodes v r) : decode limits n rules v =
    if r.depth ≤ n then .ok r else .error (.tooLarge .depth limits.depth) := by
  induction r using Rule.induct generalizing n rules v with
  | leaf c => rw [decode_leaf_iff.2 h, Rule.depth, if_pos (Nat.zero_le n)]
  | group combinator children ih =>
    cases h with
    | group hrules hne hs hsame hchildren =>
      rw [decode_group hrules (decodeCombinator_eq_ok_iff.2 ⟨_, hs, hsame⟩)
        (decodeRules_eq_ok_iff.2 ⟨rfl, hne⟩)]
      cases n with
      | zero =>
        have hdeep : ¬ (Rule.group combinator children).depth ≤ 0 := by
          rw [Rule.depth]
          omega
        rw [if_neg hdeep]
      | succ n =>
        have hitems := (forall₂_and_right.2 ⟨hchildren, ih⟩).imp
          fun v r h i => @h.2 (rules ++ [i]) v n h.1
        simp only [decodeItems_eq_ite hitems, Rule.depth_group_le_iff]
        split <;> rfl

theorem encodes_of_decode {n : Nat} (h : decode limits n rules v = .ok r) :
    Encodes v r ∧ r.depth ≤ n := by
  induction r using Rule.induct generalizing n rules v with
  | leaf c =>
    rw [Rule.depth]
    exact ⟨decode_leaf_iff.1 h, Nat.zero_le n⟩
  | group combinator children ih =>
    rcases decode_eq_ok_iff.1 h with ⟨members, rfl, ⟨_, _, _, heq⟩ | ⟨w, _, items, m, _, hrules,
      hcombinator, hitems, rfl, hchildren, heq⟩⟩
    · cases heq
    · cases heq
      rcases decodeCombinator_eq_ok_iff.1 hcombinator with ⟨s, hs, hsame⟩
      rcases decodeRules_eq_ok_iff.1 hitems with ⟨rfl, hne⟩
      have hdecoded : List.Forall₂ (fun v r => ∃ i, decode limits m (rules ++ [i]) v = .ok r)
          items children := forall₂_of_decodeItems hchildren fun i _ _ hr => ⟨i, hr⟩
      have hencodes : List.Forall₂ (fun v r => Encodes v r ∧ r.depth ≤ m) items children := by
        refine (forall₂_and_right.2 ⟨hdecoded, ih⟩).imp fun v r h => ?_
        rcases h with ⟨⟨i, hr⟩, ih⟩
        exact ih hr
      rcases forall₂_and_right.1 hencodes with ⟨hencodes, hdepth⟩
      exact ⟨.group hrules hne hs hsame hencodes, Rule.depth_group_le hdepth⟩

/-- What a payload encodes is decoded just where its groups do not nest too deep. -/
theorem decode_eq_ok_iff_encodes {n : Nat} :
    decode limits n rules v = .ok r ↔ Encodes v r ∧ r.depth ≤ n := by
  constructor
  · exact encodes_of_decode
  · intro h
    rw [decode_of_encodes h.1, if_pos h.2]

end Rules

end Payload

namespace Rule

variable {limits : Limits} {v : Json} {r : Rule}

theorem ofJson_eq_ok_iff : ofJson limits v = .ok r ↔
    Payload.decode limits limits.depth [] v = .ok r ∧ r.leafCount ≤ limits.conditions := by
  have hcount : limits.check .conditions r.leafCount = .ok () ↔ r.leafCount ≤ limits.conditions :=
    Limits.check_eq_ok_iff
  rw [← hcount]
  simp only [ofJson, bind_eq_ok_iff]
  constructor
  · intro h
    rcases h with ⟨r', hr, _, hcount, heq⟩
    cases heq
    exact ⟨hr, hcount⟩
  · intro h
    rcases h with ⟨hr, hcount⟩
    exact ⟨r, hr, (), hcount, rfl⟩

/-- A payload is decoded to what it encodes, unless the limits refuse that. Integers of 64 bits are
scalars, and other integers JSON text does not have. -/
theorem ofJson_eq_ok_iff_encodes :
    (ofJson limits v = .ok r ↔
      Payload.Encodes v r ∧ r.depth ≤ limits.depth ∧ r.leafCount ≤ limits.conditions) ∧
    (∀ n : UInt64, ∃ x, Payload.IsScalar (.integer n.toNat) (.number x)) ∧
    ∀ n : Int64, ∃ x, Payload.IsScalar (.integer n.toInt) (.number x) := by
  refine ⟨?_, fun n => ?_, fun n => ?_⟩
  · rw [ofJson_eq_ok_iff, Payload.decode_eq_ok_iff_encodes, and_assoc]
  · have hlt := n.toNat_lt
    exact Payload.exists_isScalar_integer (by omega)
  · have hle := n.le_toInt
    have hlt := n.toInt_lt
    exact Payload.exists_isScalar_integer (by omega)

end Rule

end RuleFilter
