import RuleFilter.Proofs.Predicate.Places
import RuleFilter.Proofs.Sql.Unnumbered

/-!
One fragment in every dialect. The texts of a predicate differ in the numbers of their places alone,
and the parameters not at all.
-/

namespace RuleFilter.Predicate

variable {d : Dialect} {f : List Char → List Char} {tableAlias : String} {p : Predicate}

/-- The text of a part where every place is a question mark. -/
def Part.text (tableAlias : String) : Part → List Char
  | .condition c => (c.clause.text .sqlite (Sql.qualify tableAlias c.column) 0).toList
  | .always => ['1', '=', '1']
  | .join k => ' ' :: (k.keyword.toList ++ [' '])
  | .openParen => ['(']
  | .closeParen => [')']

/-- The text is read as what a function makes of it. -/
def Shows (f : List Char → List Char) : TextReader Char := fun _ cs outs => f cs = outs

theorem Shows.plain {n m : Nat} {cs rest outs : List Char} (hf : Sql.Unnumbers d f)
    (h : Shows f n rest outs) (hcs : ∀ c ∈ cs, c ≠ '$') : Shows f m (cs ++ rest) (cs ++ outs) := by
  rw [Shows, hf.append hcs, h]

theorem composes_shows (hf : Sql.Unnumbers d f) :
    TextReader.Composes (Shows f) (Part.text tableAlias) where
  always _ _ _ _ h := h.plain hf (by simp)
  join k n rest outs h := by
    have hplain : ∀ c ∈ ' ' :: (k.keyword.toList ++ [' ']), c ≠ '$' := fun c hc =>
      (plain_of_mem_separator k c hc).2
    simpa [Part.text] using (h.plain hf hplain : Shows f n _ _)
  openParen _ _ _ h := by
    have hplain : ∀ c ∈ ['('], c ≠ '$' := by simp
    exact h.plain hf hplain
  closeParen _ _ _ h := by
    have hplain : ∀ c ∈ [')'], c ≠ '$' := by simp
    exact h.plain hf hplain

/-- Without their numbers the texts of all dialects are put together from the same parts. -/
theorem unnumbers_toSql (hf : Sql.Unnumbers d f)
    (halias : tableAlias = "" ∨ Sql.isIdentifier tableAlias)
    (hcolumns : ∀ c ∈ p.conditions, Sql.isColumn c.column) (params : List Value) :
    f (p.toSql d tableAlias params).1.toList = (p.parts false).flatMap (Part.text tableAlias) := by
  have hclauses : ∀ c ∈ p.conditions, TextReader.ReadsCondition (Shows f) (Part.text tableAlias) d
      tableAlias (p.toSql d tableAlias params).2 c := by
    intro c hc n _ rest outs hstop hout
    have hword := Sql.isWord_qualify halias (hcolumns c hc)
    rw [Shows, c.clause.unnumbers_text hf hword n (TextReader.stops_isDigit hstop), hout]
    rfl
  have hbound : p.bound <+: (p.toSql d tableAlias params).2.drop params.length := by
    simp [toSql]
  have hspans := (composes_shows hf).readsPredicate hclauses false params.length hbound
  have htext := hspans [] [] (Text.stops_nil _) hf.nil
  rwa [List.append_nil, List.append_nil] at htext

/-- All dialects bind the same parameters. Those that do not number places write the same text, and
it is what is left of the text of the one that does when every number is gone. -/
theorem toSql_dialects (params : List Value)
    (halias : tableAlias = "" ∨ Sql.isIdentifier tableAlias)
    (hcolumns : ∀ c ∈ p.conditions, Sql.isColumn c.column) :
    (∀ d, (p.toSql d tableAlias params).2 = (p.toSql .sqlite tableAlias params).2) ∧
      (p.toSql .duckdb tableAlias params).1 = (p.toSql .sqlite tableAlias params).1 ∧
      Sql.unnumbered (p.toSql .postgres tableAlias params).1.toList =
        (p.toSql .sqlite tableAlias params).1.toList := by
  have hsqlite := unnumbers_toSql (Sql.unnumbers_id (d := .sqlite) (by decide)) halias hcolumns
    params
  have hduckdb := unnumbers_toSql (Sql.unnumbers_id (d := .duckdb) (by decide)) halias hcolumns
    params
  have hpostgres := unnumbers_toSql Sql.unnumbers_unnumbered halias hcolumns params
  refine ⟨fun d => rfl, ?_, hpostgres.trans hsqlite.symm⟩
  exact String.toList_inj.1 (hduckdb.trans hsqlite.symm)

theorem toSql_dialects_mixed :
    let params := List.replicate 8 Value.null
    (mixed.toSql .postgres "t" params).2 = (mixed.toSql .sqlite "t" params).2 ∧
      (mixed.toSql .duckdb "t" params).1 = (mixed.toSql .sqlite "t" params).1 ∧
      Sql.unnumbered (mixed.toSql .postgres "t" params).1.toList =
        (mixed.toSql .sqlite "t" params).1.toList := by
  have hcolumns : ∀ c ∈ mixed.conditions, Sql.isColumn c.column := by
    simp [mixed, conditions]
    decide
  intro params
  obtain ⟨hparams, htexts⟩ := toSql_dialects params (.inr (by decide : Sql.isIdentifier "t"))
    hcolumns
  exact ⟨hparams .postgres, htexts⟩

end RuleFilter.Predicate
