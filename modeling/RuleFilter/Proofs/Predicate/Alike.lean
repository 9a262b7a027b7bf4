import RuleFilter.Proofs.Predicate.Text
import RuleFilter.Proofs.Sql.Places

/-!
Texts do not show values. Predicates that differ only in what their values hold, not in the kind of
any of them, have the same text.
-/

namespace RuleFilter

/-- Operands of one shape with values of the same kinds. -/
structure Operand.Alike (v w : Operand) : Prop where
  shape : v.shape = w.shape
  kinds : v.values.map Value.kind = w.values.map Value.kind

/-- Operands that are alike are built alike, from values of the same kinds. -/
theorem Operand.Alike.cases {v w : Operand} (h : v.Alike w) :
    (v = .none ∧ w = .none) ∨
      (∃ x y, v = .single x ∧ w = .single y ∧ x.kind = y.kind) ∨
      (∃ vs ws, v = .list vs ∧ w = .list ws ∧ vs.length = ws.length) ∨
      ∃ low high low' high', v = .range low high ∧ w = .range low' high' := by
  obtain ⟨hshape, hkinds⟩ := h
  cases v with
  | none =>
    cases w with
    | none => exact .inl ⟨rfl, rfl⟩
    | _ => cases hshape
  | single x =>
    cases w with
    | single y =>
      have hkind : x.kind = y.kind := by simpa [Operand.values] using hkinds
      exact .inr (.inl ⟨x, y, rfl, rfl, hkind⟩)
    | _ => cases hshape
  | list vs =>
    cases w with
    | list ws =>
      have hlength : vs.length = ws.length := by
        simpa [Operand.values] using congrArg List.length hkinds
      exact .inr (.inr (.inl ⟨vs, ws, rfl, rfl, hlength⟩))
    | _ => cases hshape
  | range low high =>
    cases w with
    | range low' high' => exact .inr (.inr (.inr ⟨low, high, low', high', rfl, rfl⟩))
    | _ => cases hshape

structure Condition.Alike (c e : Condition) : Prop where
  column : c.column = e.column
  operator : c.operator = e.operator
  operand : c.operand.Alike e.operand

/-- Clauses that no text tells apart. -/
structure Clause.Alike (c e : Clause) : Prop where
  text : ∀ d column n, c.text d column n = e.text d column n
  length_bound : c.bound.length = e.bound.length

namespace Clause

theorem alike_compare (relation : Sql.Relation) (v w : Value) :
    Alike (compare relation v) (compare relation w) := ⟨fun _ _ _ => rfl, rfl⟩

theorem alike_between (low high low' high' : Value) :
    Alike (between low high) (between low' high') := ⟨fun _ _ _ => rfl, rfl⟩

theorem alike_like (pattern pattern' : String) : Alike (like pattern) (like pattern') :=
  ⟨fun _ _ _ => rfl, rfl⟩

theorem alike_among (negated : Bool) {vs ws : List Value} (h : vs.length = ws.length) :
    Alike (among negated vs) (among negated ws) := by
  refine ⟨fun d column n => ?_, h⟩
  rw [text, text, Sql.map_placeholders, Sql.map_placeholders, h]

theorem Alike.refl (c : Clause) : Alike c c := ⟨fun _ _ _ => rfl, rfl⟩

theorem alike_ofEquality (relation : Sql.Relation) (nullTest : Clause) {v w : Operand}
    (h : v.Alike w) : Alike (ofEquality relation nullTest v) (ofEquality relation nullTest w) := by
  rcases h.cases with ⟨rfl, rfl⟩ | ⟨x, y, rfl, rfl, hkind⟩ | ⟨vs, ws, rfl, rfl, -⟩ |
    ⟨low, high, low', high', rfl, rfl⟩
  · exact .refl _
  · cases x <;> cases y <;> first
      | exact .refl _
      | exact alike_compare _ _ _
      | cases hkind
  · exact .refl _
  · exact .refl _

theorem alike_ofOrder (relation : Sql.Relation) {v w : Operand} (h : v.Alike w) :
    Alike (ofOrder relation v) (ofOrder relation w) := by
  rcases h.cases with ⟨rfl, rfl⟩ | ⟨x, y, rfl, rfl, -⟩ | ⟨vs, ws, rfl, rfl, -⟩ |
    ⟨low, high, low', high', rfl, rfl⟩
  · exact .refl _
  · exact alike_compare _ _ _
  · exact .refl _
  · exact .refl _

theorem alike_ofMembership (negated : Bool) {v w : Operand} (h : v.Alike w) :
    Alike (ofMembership negated v) (ofMembership negated w) := by
  rcases h.cases with ⟨rfl, rfl⟩ | ⟨x, y, rfl, rfl, -⟩ | ⟨vs, ws, rfl, rfl, hlength⟩ |
    ⟨low, high, low', high', rfl, rfl⟩
  · exact .refl _
  · exact .refl _
  · cases vs <;> cases ws <;> first
      | exact .refl _
      | exact alike_among _ hlength
      | cases hlength
  · exact .refl _

theorem alike_ofPattern (before after : String) {v w : Operand} (h : v.Alike w) :
    Alike (ofPattern before after v) (ofPattern before after w) := by
  rcases h.cases with ⟨rfl, rfl⟩ | ⟨x, y, rfl, rfl, hkind⟩ | ⟨vs, ws, rfl, rfl, -⟩ |
    ⟨low, high, low', high', rfl, rfl⟩
  · exact .refl _
  · cases x <;> cases y <;> first
      | exact .refl _
      | exact alike_like _ _
      | cases hkind
  · exact .refl _
  · exact .refl _

/-- No text shows which values of the same kinds an operand holds. -/
theorem alike_of (op : Operator) {v w : Operand} (h : v.Alike w) : Alike (of op v) (of op w) := by
  cases op with
  | eq | neq => exact alike_ofEquality _ _ h
  | lt | lte | gt | gte => exact alike_ofOrder _ h
  | oneOf | noneOf => exact alike_ofMembership _ h
  | contains | startsWith | endsWith => exact alike_ofPattern _ _ h
  | isNull | isNotNull => exact .refl _
  | between =>
    rcases h.cases with ⟨rfl, rfl⟩ | ⟨x, y, rfl, rfl, -⟩ | ⟨vs, ws, rfl, rfl, -⟩ |
      ⟨low, high, low', high', rfl, rfl⟩
    · exact .refl _
    · exact .refl _
    · exact .refl _
    · exact alike_between _ _ _ _

end Clause

namespace Predicate

mutual

/-- Predicates of one shape with the same columns and operators, whose operands differ at most in
what their values hold. -/
def Alike : Predicate → Predicate → Prop
  | .condition c, .condition e => c.Alike e
  | .all ps, .all qs => AlikeAll ps qs
  | .any ps, .any qs => AlikeAll ps qs
  | _, _ => False

def AlikeAll : List Predicate → List Predicate → Prop
  | [], [] => True
  | p :: ps, q :: qs => Alike p q ∧ AlikeAll ps qs
  | _, _ => False

end

theorem exists_ofGroup_of_alike {k : Combinator} {ps : List Predicate} {q : Predicate}
    (h : (ofGroup k ps).Alike q) : ∃ qs, q = ofGroup k qs ∧ AlikeAll ps qs := by
  cases k with
  | and =>
    cases q with
    | all qs => exact ⟨qs, rfl, by simpa [ofGroup, Alike] using h⟩
    | any qs => simp [ofGroup, Alike] at h
    | condition e => simp [ofGroup, Alike] at h
  | or =>
    cases q with
    | any qs => exact ⟨qs, rfl, by simpa [ofGroup, Alike] using h⟩
    | all qs => simp [ofGroup, Alike] at h
    | condition e => simp [ofGroup, Alike] at h

/-- Predicates that no text tells apart. -/
structure SameText (p q : Predicate) : Prop where
  text : ∀ d tableAlias nested n, p.text d tableAlias nested n = q.text d tableAlias nested n
  length_bound : p.bound.length = q.bound.length

theorem forall₂_of_alikeAll {ps qs : List Predicate}
    (ih : ∀ p ∈ ps, ∀ q, p.Alike q → p.SameText q) (h : AlikeAll ps qs) :
    List.Forall₂ SameText ps qs := by
  induction ps generalizing qs with
  | nil =>
    cases qs with
    | nil => exact .nil
    | cons q qs => simp [AlikeAll] at h
  | cons p ps ih' =>
    cases qs with
    | nil => simp [AlikeAll] at h
    | cons q qs =>
      rw [AlikeAll] at h
      exact .cons (ih p (by simp) q h.1) (ih' (fun r hr => ih r (by simp [hr])) h.2)

theorem sameText_ofGroup {ps qs : List Predicate} (h : List.Forall₂ SameText ps qs)
    (k : Combinator) : (ofGroup k ps).SameText (ofGroup k qs) where
  text d tableAlias :=
    text_ofGroup_congr (h.imp fun _ _ hp => ⟨hp.length_bound, hp.text d tableAlias⟩) k
  length_bound := by
    rw [bound_ofGroup, bound_ofGroup]
    induction h with
    | nil => rfl
    | cons hp _ ih =>
      rw [List.flatMap_cons, List.flatMap_cons, List.length_append, List.length_append,
        hp.length_bound, ih]

theorem sameText_of_alike {p q : Predicate} (h : p.Alike q) : p.SameText q := by
  induction p using induct_ofGroup generalizing q with
  | condition c =>
    cases q with
    | condition e =>
      rw [Alike] at h
      have hclause : c.clause.Alike e.clause := by
        rw [Condition.clause, Condition.clause, h.operator]
        exact Clause.alike_of _ h.operand
      refine ⟨fun d tableAlias nested n => ?_, ?_⟩
      · rw [text_condition, text_condition, h.column, hclause.text]
      · rw [bound_condition, bound_condition, hclause.length_bound]
    | all qs => simp [Alike] at h
    | any qs => simp [Alike] at h
  | group k ps ih =>
    obtain ⟨qs, rfl, hqs⟩ := exists_ofGroup_of_alike h
    exact sameText_ofGroup (forall₂_of_alikeAll (fun p hp q => ih p hp) hqs) k

/-- Predicates that differ only in what their values hold have the same text, after as many
parameters, and bind the same number of values. -/
theorem toSql_eq_of_alike {p q : Predicate} (h : p.Alike q) (d : Dialect) (tableAlias : String)
    {params params' : List Value} (hparams : params.length = params'.length) :
    (p.toSql d tableAlias params).1 = (q.toSql d tableAlias params').1 ∧
      ∃ values values', (p.toSql d tableAlias params).2 = params ++ values ∧
        (q.toSql d tableAlias params').2 = params' ++ values' ∧
        values.length = values'.length := by
  obtain ⟨htext, hbound⟩ := sameText_of_alike h
  refine ⟨?_, p.bound, q.bound, rfl, rfl, hbound⟩
  rw [toSql, toSql, htext, hparams]

/-- A predicate with a text to look for in a name, a list and a pattern. -/
def lookup (s : String) : Predicate :=
  .any [.condition ⟨"name", "name", .string, .eq, .single (.string s), {}⟩,
    .all [.condition ⟨"tag", "tag", .string, .oneOf, .list [.string "a", .string s], {}⟩,
      .condition ⟨"note", "note", .string, .contains, .single (.string s), {}⟩]]

theorem toSql_lookup :
    ((lookup "ada").toSql .postgres "t" [.null]).1 =
        ((lookup "' OR 1=1 -- %").toSql .postgres "t" [.bool true]).1 ∧
      ∃ values values', ((lookup "ada").toSql .postgres "t" [.null]).2 = [.null] ++ values ∧
        ((lookup "' OR 1=1 -- %").toSql .postgres "t" [.bool true]).2 = [.bool true] ++ values' ∧
        values.length = values'.length := by
  have halike : (lookup "ada").Alike (lookup "' OR 1=1 -- %") := by
    simp only [lookup, Alike, AlikeAll]
    exact ⟨⟨rfl, rfl, rfl, rfl⟩, ⟨⟨rfl, rfl, rfl, rfl⟩, ⟨rfl, rfl, rfl, rfl⟩, trivial⟩, trivial⟩
  exact toSql_eq_of_alike halike .postgres "t" rfl

end Predicate

end RuleFilter
