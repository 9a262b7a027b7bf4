import RuleFilter.Proofs.Predicate.Text
import RuleFilter.Proofs.Sql.Name
import RuleFilter.Proofs.Sql.Places

/-!
Places and parameters line up. The text of a predicate has one place for each value that the
predicate binds, condition by condition, and the places count on from the parameters that were there
before.
-/

namespace RuleFilter

namespace Condition

/-- The values that a condition asks for: those of its operand, or one pattern for a text operator;
none for null tests and for an operand that the operator cannot take. -/
def parameters (c : Condition) : List Value :=
  match c.operator, c.operand with
  | .isNull, _ | .isNotNull, _ | .eq, .single .null | .neq, .single .null => []
  | .contains, .single (.string s) => [.string ("%" ++ Sql.literalPattern s ++ "%")]
  | .startsWith, .single (.string s) => [.string (Sql.literalPattern s ++ "%")]
  | .endsWith, .single (.string s) => [.string ("%" ++ Sql.literalPattern s)]
  | .contains, _ | .startsWith, _ | .endsWith, _ => []
  | op, v => if v.shape = op.shape then v.values else []

theorem bound_clause (c : Condition) : c.clause.bound = c.parameters := by
  obtain ⟨field, column, type, op, v, form⟩ := c
  cases v with
  | none => cases op <;> rfl
  | single v => cases v <;> cases op <;> simp [clause, Clause.of, Clause.ofEquality,
      Clause.ofOrder, Clause.ofMembership, Clause.ofPattern, Clause.bound, parameters,
      Operand.shape, Operator.shape, Operand.values]
  | list vs => cases vs <;> cases op <;> rfl
  | range low high => cases op <;> rfl

end Condition

namespace Predicate

variable {d : Dialect} {tableAlias : String} {p : Predicate}

theorem bound_eq_parameters (p : Predicate) :
    p.bound = p.conditions.flatMap Condition.parameters := by
  rw [bound]
  congr 1
  funext c
  exact c.bound_clause

/-- The text has the clauses of the conditions in order and no places but theirs, numbered from the
one after `n`. -/
def Lays (d : Dialect) (tableAlias : String) : TextReader Condition := fun n cs conditions =>
  Sql.places cs = Sql.numbered d n (conditions.flatMap Condition.parameters).length ∧
    ∀ before c after, conditions = before ++ c :: after → ∃ left right,
      let m := n + (before.flatMap Condition.parameters).length
      let clause := (c.clause.text d (Sql.qualify tableAlias c.column) m).toList
      cs = left ++ clause ++ right ∧
        Sql.places left = Sql.numbered d n (before.flatMap Condition.parameters).length ∧
        Sql.places clause = Sql.numbered d m c.parameters.length ∧
        Sql.places right = Sql.numbered d (m + c.parameters.length)
          (after.flatMap Condition.parameters).length

theorem Lays.plain {n : Nat} {cs rest : List Char} {conditions : List Condition}
    (h : Lays d tableAlias n rest conditions) (hcs : ∀ c ∈ cs, c ≠ '?' ∧ c ≠ '$') :
    Lays d tableAlias n (cs ++ rest) conditions := by
  obtain ⟨hplaces, hclauses⟩ := h
  refine ⟨by rw [Sql.places_plain_append hcs, hplaces], fun before c after he => ?_⟩
  obtain ⟨left, right, rfl, hleft, hclause, hright⟩ := hclauses before c after he
  refine ⟨cs ++ left, right, by simp, ?_, hclause, hright⟩
  rw [Sql.places_plain_append hcs, hleft]

theorem spans_lays {c : Condition} (h : Text.isWord (Sql.qualify tableAlias c.column).toList)
    (n : Nat) : TextReader.Spans (Lays d tableAlias) n (n + c.clause.bound.length)
      (c.clause.text d (Sql.qualify tableAlias c.column) n).toList [c] := by
  intro rest conditions hstop hlays
  have hclause := Clause.places_text h d n c.clause
  rw [c.bound_clause] at hclause hlays
  obtain ⟨hplaces, hclauses⟩ := hlays
  have hstop' := TextReader.stops_isDigit hstop
  refine ⟨?_, fun before c' after he => ?_⟩
  · rw [Sql.places_append hstop', hclause, hplaces, Sql.numbered_append]
    simp
  · cases before with
    | nil =>
      obtain ⟨rfl, rfl⟩ := List.cons.inj he
      exact ⟨[], rest, by simp, rfl, by simpa using hclause, by simpa using hplaces⟩
    | cons b before =>
      obtain ⟨rfl, hconditions⟩ := List.cons.inj he
      obtain ⟨left, right, hrest, hleft, hclause', hright⟩ := hclauses before c' after hconditions
      have hm : n + ((c :: before).flatMap Condition.parameters).length =
          n + c.parameters.length + (before.flatMap Condition.parameters).length := by
        rw [List.flatMap_cons, List.length_append, Nat.add_assoc]
      rw [List.append_assoc] at hrest
      have hleft' : Text.Stops Char.isDigit left := (hrest ▸ hstop').left
      refine ⟨(c.clause.text d (Sql.qualify tableAlias c.column) n).toList ++ left, right, ?_, ?_,
        hm ▸ hclause', hm ▸ hright⟩
      · rw [hm, hrest]
        simp
      · rw [Sql.places_append hleft', hclause, hleft, Sql.numbered_append, List.flatMap_cons,
          List.length_append]

/-- No places stand between the members of a group. -/
theorem plain_of_mem_separator (k : Combinator) :
    ∀ c ∈ ' ' :: (k.keyword.toList ++ [' ']), c ≠ '?' ∧ c ≠ '$' := by
  cases k <;> simp [Combinator.keyword]

theorem composes_lays : TextReader.Composes (Lays d tableAlias) Part.conditions where
  always _ _ _ _ h := h.plain (by simp)
  join k _ rest _ h := by simpa [Part.conditions] using h.plain (plain_of_mem_separator k)
  openParen _ rest _ h := by
    have hplain : ∀ c ∈ ['('], c ≠ '?' ∧ c ≠ '$' := by simp
    exact h.plain hplain
  closeParen _ rest _ h := by
    have hplain : ∀ c ∈ [')'], c ≠ '?' ∧ c ≠ '$' := by simp
    exact h.plain hplain

theorem lays_nil (n : Nat) : Lays d tableAlias n [] [] := by
  refine ⟨rfl, fun before c after he => ?_⟩
  cases before <;> cases he

theorem lays_text (halias : tableAlias = "" ∨ Sql.isIdentifier tableAlias)
    (hcolumns : ∀ c ∈ p.conditions, Sql.isColumn c.column) (params : List Value) :
    Lays d tableAlias params.length (p.toSql d tableAlias params).1.toList p.conditions := by
  have hclauses : ∀ c ∈ p.conditions, TextReader.ReadsCondition (Lays d tableAlias)
      Part.conditions d tableAlias (p.toSql d tableAlias params).2 c :=
    fun c hc n _ => spans_lays (Sql.isWord_qualify halias (hcolumns c hc)) n
  have hbound : p.bound <+: (p.toSql d tableAlias params).2.drop params.length := by
    simp [toSql]
  have hspans := composes_lays.readsPredicate hclauses false params.length hbound
  have htext := hspans [] [] (Text.stops_nil _) (lays_nil _)
  rwa [List.append_nil, List.append_nil, flatMap_conditions_parts] at htext

/-- Binding adds the values that the conditions ask for, in document order, after the parameters
that were there. The places in the text are as many, each once and in this order, and the clause of
every condition has the places of its own values. -/
theorem places_toSql (d : Dialect) (params : List Value)
    (halias : tableAlias = "" ∨ Sql.isIdentifier tableAlias)
    (hcolumns : ∀ c ∈ p.conditions, Sql.isColumn c.column) :
    let sql := p.toSql d tableAlias params
    let values := p.conditions.flatMap Condition.parameters
    sql.2 = params ++ values ∧
      (d = .postgres → Sql.places sql.1.toList =
        (List.range' (params.length + 1) values.length).map fun i => '$' :: (toString i).toList) ∧
      (d ≠ .postgres → sql.1.toList.count '?' = values.length) ∧
      ∀ before c after, p.conditions = before ++ c :: after → ∃ left right,
        let n := params.length + (before.flatMap Condition.parameters).length
        let clause := (c.clause.text d (Sql.qualify tableAlias c.column) n).toList
        sql.1.toList = left ++ clause ++ right ∧
          Sql.places left = Sql.numbered d params.length
            (before.flatMap Condition.parameters).length ∧
          Sql.places clause = Sql.numbered d n c.parameters.length ∧
          Sql.places right = Sql.numbered d (n + c.parameters.length)
            (after.flatMap Condition.parameters).length := by
  obtain ⟨hplaces, hclauses⟩ := lays_text (d := d) halias hcolumns params
  refine ⟨by rw [toSql, bound_eq_parameters], fun hd => ?_, fun hd => ?_, hclauses⟩
  · subst hd
    rw [hplaces, Sql.numbered]
    congr 1
    funext i
    simp [Sql.toList_placeholder_postgres]
  · rw [← Sql.count_places, hplaces, Sql.count_numbered hd]

/-- A predicate with an empty group, an operand of the wrong shape and a group of one. -/
def mixed : Predicate :=
  .any [.all [], .condition ⟨"age", "u.age", .integer, .between, .range .null (.bool true), {}⟩,
    .all [.condition ⟨"age", "u.age", .integer, .eq, .list [.null], {}⟩,
      .any [.condition ⟨"note", "note", .string, .contains, .single (.string "50%"), {}⟩]]]

theorem places_toSql_mixed :
    (mixed.toSql .postgres "t" [.null]).2 =
        [.null, .null, .bool true, .string "%50\\%%"] ∧
      Sql.places (mixed.toSql .postgres "t" [.null]).1.toList =
        [['$', '2'], ['$', '3'], ['$', '4']] ∧
      (mixed.toSql .sqlite "t" [.null]).1.toList.count '?' = 3 := by
  have halias : "t" = "" ∨ Sql.isIdentifier "t" := .inr (by decide)
  have hcolumns : ∀ c ∈ mixed.conditions, Sql.isColumn c.column := by
    simp [mixed, conditions]
    decide
  have hvalues : mixed.conditions.flatMap Condition.parameters =
      [.null, .bool true, .string "%50\\%%"] := by
    simp [mixed, conditions, Condition.parameters, Operand.shape, Operator.shape, Operand.values]
    decide
  obtain ⟨hparams, hplaces, -⟩ := places_toSql .postgres [.null] halias hcolumns
  obtain ⟨-, -, hcount, -⟩ := places_toSql .sqlite [.null] halias hcolumns
  rw [hvalues] at hparams hplaces hcount
  exact ⟨hparams, (hplaces rfl).trans (by decide), hcount (by decide)⟩

end Predicate

end RuleFilter
