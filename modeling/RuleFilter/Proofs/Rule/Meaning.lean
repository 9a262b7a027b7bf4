import RuleFilter.Proofs.Predicate.Reading
import RuleFilter.Proofs.Rule.Compile

/-!
The meaning of rules on rows, and that the text of a compiled rule has this meaning. A comparison
tests the column of its field and is unknown where that is null, unless it asks about null.
-/

namespace RuleFilter

section Truth

variable {D : Type} (engine : Sql.Engine D)

def Comparison.holds (c : Comparison) (d : D) : Bool :=
  match c.operator, c.operand with
  | .eq, .single v => engine.holds .eq d v
  | .neq, .single v => engine.holds .ne d v
  | .lt, .single v => engine.holds .lt d v
  | .lte, .single v => engine.holds .le d v
  | .gt, .single v => engine.holds .gt d v
  | .gte, .single v => engine.holds .ge d v
  | .between, .range low high => engine.holds .ge d low && engine.holds .le d high
  | .oneOf, .list vs => vs.any fun v => engine.holds .eq d v
  | .noneOf, .list vs => !vs.any fun v => engine.holds .eq d v
  | .contains, .single (.string s) => s.toList <:+: (engine.text d).toList
  | .startsWith, .single (.string s) => s.toList <+: (engine.text d).toList
  | .endsWith, .single (.string s) => s.toList <:+ (engine.text d).toList
  | _, _ => false

/-- The truth of a comparison where the column of its field holds a value or null. -/
def Comparison.truth (c : Comparison) (x : Option D) : Sql.Truth :=
  match c.operator, c.operand with
  | .isNull, _ | .eq, .single .null => .ofBool x.isNone
  | .isNotNull, _ | .neq, .single .null => .ofBool x.isSome
  | .oneOf, .list [] | .noneOf, .list [] => .true
  | _, _ => x.elim .unknown fun d => .ofBool (c.holds engine d)

/-- The truth of a rule where the columns of the fields hold values or null. -/
def Rule.truth (value : String → Option D) : Rule → Sql.Truth
  | .leaf c => c.truth engine (value c.field)
  | .group k rs => .combine k (rs.map fun r => truth value r)

end Truth

section Clauses

variable {D : Type} {engine : Sql.Engine D} {x : Option D}

theorem Sql.Engine.compare_of_ne_null {v : Value} (hv : v ≠ .null) (relation : Sql.Relation) :
    engine.compare relation x v = x.elim .unknown fun d => .ofBool (engine.holds relation d v) := by
  cases x with
  | none => rfl
  | some d => cases v <;> first | rfl | exact absurd rfl hv

theorem Sql.Engine.compare_any {vs : List Value} (hne : vs ≠ []) (hvs : ∀ v ∈ vs, v ≠ .null) :
    Sql.Truth.combine .or (vs.map fun v => engine.compare .eq x v) =
      x.elim .unknown fun d => .ofBool (vs.any fun v => engine.holds .eq d v) := by
  rw [List.map_congr_left fun v hv => Sql.Engine.compare_of_ne_null (hvs v hv) .eq]
  cases x with
  | none => exact Sql.Truth.combine_or_unknown hne
  | some d => exact Sql.Truth.combine_or_ofBool _ vs

variable {reference : String} {value : String → Option D}

/-- The truth of an equation or its negation, which is a null test where the operand is null. -/
theorem Clause.truth_ofEquality (relation : Sql.Relation) {nullTest : Clause} {v : Value}
    {t : Sql.Truth} (hnull : (nullTest.atom reference).truth engine value = t) :
    ((ofEquality relation nullTest (.single v)).atom reference).truth engine value =
      if v = .null then t
      else (value reference).elim .unknown fun d => .ofBool (engine.holds relation d v) := by
  by_cases hv : v = .null
  · rw [if_pos hv, hv]
    exact hnull
  · rw [if_neg hv]
    have hclause : ofEquality relation nullTest (.single v) = .compare relation v := by
      cases v <;> first | rfl | exact absurd rfl hv
    rw [hclause]
    exact Sql.Engine.compare_of_ne_null hv relation

theorem Clause.truth_among {vs : List Value} (hne : vs ≠ []) (hvs : ∀ v ∈ vs, v ≠ .null)
    (negated : Bool) : ((among negated vs).atom reference).truth engine value =
      (value reference).elim .unknown fun d =>
        .ofBool ((vs.any fun v => engine.holds .eq d v) != negated) := by
  have hany := @Sql.Engine.compare_any D engine (value reference) vs hne hvs
  simp only [atom, Sql.Atom.truth, Sql.Test.truth, hany]
  cases value reference with
  | none => cases negated <;> rfl
  | some d =>
    cases negated with
    | false => simp
    | true =>
      show (Sql.Truth.ofBool (vs.any fun v => engine.holds .eq d v)).not = .ofBool (_ != true)
      rw [Sql.Truth.not_ofBool, Bool.bne_true]

theorem Clause.truth_like {pattern : String} {p : List Char → Prop} [DecidablePred p]
    (hpattern : ∀ cs, Sql.like '\\' pattern.toList cs ↔ p cs) :
    ((like pattern).atom reference).truth engine value =
      (value reference).elim .unknown fun d => .ofBool (p (engine.text d).toList) := by
  simp only [atom, Sql.Atom.truth, Sql.Test.truth]
  cases value reference with
  | none => rfl
  | some d =>
    show Sql.Truth.ofBool _ = Sql.Truth.ofBool _
    congr 1
    exact Bool.eq_iff_iff.2 ((hpattern _).trans (decide_eq_true_iff).symm)

/-- On every row the clause of a comparison that its field takes has the truth of the comparison. -/
theorem Comparison.truth_clause [Formats] {f : Schema.Field} {c : Comparison}
    (h : f.check c = .ok ())
    (hops : ∀ op ∈ f.operators, op ∈ f.type.operators) :
    ((Clause.of c.operator c.operand).atom reference).truth engine value =
      c.truth engine (value reference) := by
  obtain ⟨-, -, -, hshape, -⟩ := Schema.Field.check_eq_ok_iff.1 h
  have hnonnull := Schema.Field.ne_null_of_check h
  have hstring := Schema.Field.exists_string_of_check h hops
  obtain ⟨field, op, v⟩ := c
  cases op with
  | isNull => simp [Clause.of, Clause.atom, Sql.Atom.truth, Sql.Test.truth, truth]
  | isNotNull => cases hx : value reference <;>
      simp [Clause.of, Clause.atom, Sql.Atom.truth, Sql.Test.truth, truth, hx]
  | eq =>
    cases v with
    | single w =>
      have hnull : ((Clause.isNull).atom reference).truth engine value =
          .ofBool (value reference).isNone := by
        simp [Clause.atom, Sql.Atom.truth, Sql.Test.truth]
      rw [Clause.of, Clause.truth_ofEquality .eq hnull]
      cases w <;> simp [truth, holds]
    | none | list _ | range _ _ => cases hshape
  | neq =>
    cases v with
    | single w =>
      have hnull : ((Clause.isNotNull).atom reference).truth engine value =
          .ofBool (value reference).isSome := by
        cases hx : value reference <;> simp [Clause.atom, Sql.Atom.truth, Sql.Test.truth, hx]
      rw [Clause.of, Clause.truth_ofEquality .ne hnull]
      cases w <;> simp [truth, holds]
    | none | list _ | range _ _ => cases hshape
  | lt | lte | gt | gte =>
    cases v with
    | single w =>
      have hw := hnonnull rfl w (by simp [Operand.values])
      exact Sql.Engine.compare_of_ne_null hw _
    | none | list _ | range _ _ => cases hshape
  | between =>
    cases v with
    | range low high =>
      have hlow := hnonnull rfl low (by simp [Operand.values])
      have hhigh := hnonnull rfl high (by simp [Operand.values])
      simp only [Clause.of, Clause.atom, Sql.Atom.truth, Sql.Test.truth,
        Sql.Engine.compare_of_ne_null hlow, Sql.Engine.compare_of_ne_null hhigh, truth]
      cases value reference with
      | none => rfl
      | some d => simp [holds]
    | none | single _ | list _ => cases hshape
  | oneOf | noneOf =>
    cases v with
    | list vs =>
      cases vs with
      | nil => rfl
      | cons w ws =>
        simp only [Clause.of, Clause.ofMembership, Clause.truth_among (List.cons_ne_nil w ws)
          (hnonnull rfl), truth, holds, Bool.bne_false, Bool.bne_true]
    | none | single _ | range _ _ => cases hshape
  | contains =>
    obtain ⟨s, rfl⟩ := hstring rfl
    exact Clause.truth_like fun cs => Sql.like_infix s
  | startsWith =>
    obtain ⟨s, rfl⟩ := hstring rfl
    have hpattern : ∀ cs, Sql.like '\\' ("" ++ Sql.literalPattern s ++ "%").toList cs ↔
        s.toList <+: cs := by
      intro cs
      rw [String.empty_append]
      exact Sql.like_prefix s
    exact Clause.truth_like hpattern
  | endsWith =>
    obtain ⟨s, rfl⟩ := hstring rfl
    have hpattern : ∀ cs, Sql.like '\\' ("%" ++ Sql.literalPattern s ++ "").toList cs ↔
        s.toList <:+ cs := by
      intro cs
      rw [String.append_empty]
      exact Sql.like_suffix s
    exact Clause.truth_like hpattern

end Clauses

section Rules

variable {D : Type} {engine : Sql.Engine D} {tableAlias : String}

theorem Predicate.truth_expr_ofGroup (f : Sql.Atom → Sql.Truth) (k : Combinator)
    {ps : List Predicate} (hne : ps ≠ []) :
    ((Predicate.ofGroup k ps).expr tableAlias).truth f =
      .combine k (ps.map fun p => (p.expr tableAlias).truth f) := by
  match ps, hne with
  | [p], _ => rw [expr_singleton, List.map_singleton, Sql.Truth.combine_singleton]
  | p :: q :: ps, _ =>
    rw [expr_ofGroup k (by simp), Sql.Expr.truth, List.map_map]
    rfl

/-- The value that a row has in the column of a field. -/
def FieldSource.value (source : FieldSource) (row : String → Option D) (name : String) : Option D :=
  (source name).bind fun f => row f.column

/-- The tree of clauses of a compiled rule has the truth of the rule. -/
theorem Rule.truth_expr [Formats] {source : FieldSource} {chain : Guesser.Chain}
    (hops : ∀ name f, source name = some f → ∀ op ∈ f.operators, op ∈ f.type.operators)
    (row : String → Option D) {r : Rule} {p : Predicate} (h : r.compile source chain = .ok p) :
    (p.expr tableAlias).truth (fun a => a.truth engine fun reference =>
        row (Sql.columnOf tableAlias reference)) =
      r.truth engine (source.value row) := by
  induction r using induct generalizing p with
  | leaf c =>
    obtain ⟨e, hc, rfl⟩ := compile_leaf_eq_ok_iff.1 h
    obtain ⟨f, hf, hcheck, rfl⟩ := Comparison.compile_eq_ok_iff.1 hc
    have hvalue : source.value row c.field = row f.column := by
      rw [FieldSource.value, hf, Option.bind_some]
    rw [Predicate.expr_condition, Sql.Expr.truth, truth, hvalue]
    have hclause := @Comparison.truth_clause D engine (Sql.qualify tableAlias f.column)
      (fun reference => row (Sql.columnOf tableAlias reference)) _ f c hcheck (hops _ _ hf)
    rwa [Sql.columnOf_qualify] at hclause
  | group k rs ih =>
    obtain ⟨hne, ps, rfl, hps⟩ := compile_group_eq_ok_iff.1 h
    have hne' : ps ≠ [] := by
      rintro rfl
      exact hne (List.forall₂_nil_right_iff.1 hps)
    rw [Predicate.truth_expr_ofGroup _ k hne', truth]
    congr 1
    exact map_eq_map_of_compiled hps fun r hr p hp => ih r hr hp

/-- The text of a compiled rule, with its parameters, has the truth of the rule on every row, where
fields allow no more than the operators of their types and no column is a keyword. -/
theorem Rule.evaluate_toSql [Formats] {schema : Schema} {chain : Guesser.Chain} {r : Rule}
    {p : Predicate}
    (hops : ∀ f ∈ schema.fields, ∀ ops, f.operators? = some ops → ∀ op ∈ ops, op ∈ f.type.operators)
    (hcolumns : ∀ f ∈ schema.fields, Sql.Keyword.ofWord? f.column = none)
    (hr : r.compile schema.field? chain = .ok p) (d : Dialect)
    (halias : tableAlias = "" ∨ Sql.isIdentifier tableAlias) (params : List Value)
    (engine : Sql.Engine D) (row : String → Option D) :
    let sql := p.toSql d tableAlias params
    Sql.evaluate engine tableAlias row sql.2 params.length sql.1 =
      some (r.truth engine (FieldSource.value schema.field? row)) := by
  have hfields : ∀ name f, schema.field? name = some f → f ∈ schema.fields :=
    fun _ _ hf => Schema.mem_of_field? hf
  have hops' : ∀ name f, schema.field? name = some f →
      ∀ op ∈ f.operators, op ∈ f.type.operators := by
    intro name f hf op hop
    rw [Schema.Field.operators] at hop
    cases hdeclared : f.operators? with
    | none => simpa [hdeclared] using hop
    | some ops => exact hops f (hfields name f hf) ops hdeclared op (by simpa [hdeclared] using hop)
  have hconditions : ∀ e ∈ p.conditions, Sql.isColumn e.column ∧
      Sql.Keyword.ofWord? (Sql.qualify tableAlias e.column) = none := by
    intro e he
    obtain ⟨c, f, hf, hcheck, rfl⟩ := exists_check_of_mem_conditions hr he
    exact ⟨(Schema.Field.check_eq_ok_iff.1 hcheck).1,
      Sql.Keyword.ofWord?_qualify tableAlias (hcolumns f (hfields _ f hf))⟩
  have hread := Predicate.readText_toSql d params halias (fun e he => (hconditions e he).1)
    fun e he => (hconditions e he).2
  show Option.map _ (Sql.readText _ _ _) = _
  rw [hread, Option.map_some, truth_expr hops' row hr]

end Rules

namespace Rule

/-- Notes of an author, who may be unknown. -/
def noteSchema : Schema where
  entity := "note"
  fields := [{ name := "text", type := .string, column? := some "body" },
    { name := "author", type := .string, operators? := some [.eq, .noneOf] }]

def noteRule : Rule :=
  .group .and [.leaf ⟨"text", .contains, .single (.string "50%")⟩,
    .group .or [.leaf ⟨"author", .eq, .single .null⟩,
      .leaf ⟨"author", .noneOf, .list [.string "ada"]⟩]]

def notePredicate : Predicate :=
  .all [.condition ⟨"text", "body", .string, .contains, .single (.string "50%"), {}⟩,
    .any [.condition ⟨"author", "author", .string, .eq, .single .null, {}⟩,
      .condition ⟨"author", "author", .string, .noneOf, .list [.string "ada"], {}⟩]]

def textEngine : Sql.Engine String where
  holds relation d v :=
    match relation, v with
    | .eq, .string s => d == s
    | .ne, .string s => d != s
    | _, _ => false
  text d := d

def noteRow (body author : Option String) (column : String) : Option String :=
  if column = "body" then body else if column = "author" then author else none

/-- A text that holds what the rule looks for passes unless its author is the one excluded, and of
no text at all nothing is known. -/
theorem evaluate_note :
    let sql := notePredicate.toSql .sqlite "n" [.null]
    let evaluate body author :=
      Sql.evaluate textEngine "n" (noteRow body author) sql.2 1 sql.1
    evaluate (some "up 50% now") none = some .true ∧
      evaluate (some "up 50% now") (some "ada") = some .false ∧
      evaluate none (some "bob") = some .unknown := by
  have hcompile : noteRule.compile noteSchema.field? [] = .ok notePredicate := rfl
  have halias : "n" = "" ∨ Sql.isIdentifier "n" := .inr (by decide)
  have hnote (row : String → Option String) := evaluate_toSql (by decide) (by decide) hcompile
    .sqlite halias [.null] textEngine row
  refine ⟨(hnote _).trans ?_, (hnote _).trans ?_, (hnote _).trans ?_⟩
  all_goals
    simp only [noteRule, truth, List.map]
    decide

end Rule

end RuleFilter
