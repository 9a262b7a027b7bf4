import RuleFilter.Proofs.Predicate.Places
import RuleFilter.Proofs.Rule.Compile
import RuleFilter.Proofs.Rule.Lexemes
import RuleFilter.Proofs.Rule.Parse
import RuleFilter.Proofs.Token.Number

/-!
Integers in filter text. An integer that a field of integers is compared with is checked once it has
been rounded. What passes was not changed by rounding, so that it is bound as it is written.
-/

namespace RuleFilter.Rule

open Grammar

variable {limits : Limits} {source : FieldSource} {chain : Guesser.Chain} {f : Schema.Field}
  {name literal : String} {x : Binary64.Finite} {z : Int} {r : Rule} {p : Predicate}

/-- A field compared with a number under equality. -/
def equation (name : String) (x : Binary64.Finite) : Rule := .leaf ⟨name, .eq, .single (.number x)⟩

theorem scanned_equation_iff (hname : Text.isFieldName name)
    (hliteral : Decimal.int? literal.toList = some z) {ls : List Lexeme} :
    Token.Scanned (name ++ " = " ++ literal).toList ls ↔ ∃ x,
      Token.number? literal.toList = some x ∧ ls = [.word name, .compare .eq, .number x] := by
  have hfront : Token.Scanned (name.toList ++ [' ', '=']) [.word name, .compare .eq] :=
    ((Token.spells_word (Text.isFieldName_iff.1 hname).1).blank_append
      (Operator.spells_symbol .eq)).scanned
  obtain ⟨ts, hts, hlexemes⟩ := hfront
  have hblank : ∀ c ∈ [' '], Text.isBlank c := List.forall_mem_singleton.2 rfl
  have hscan := Token.scan_append_blanks hts (by simp : [' '] ≠ []) hblank literal.toList
  have htext : (name ++ " = " ++ literal).toList =
      name.toList ++ [' ', '='] ++ [' '] ++ literal.toList := by simp
  rw [htext]
  constructor
  · rintro ⟨us, hus, rfl⟩
    rw [hscan, map_eq_ok_iff] at hus
    obtain ⟨vs, hvs, rfl⟩ := hus
    obtain ⟨x, hx, hls⟩ := (Token.scanned_iff_of_int? hliteral).1 ⟨vs, hvs, rfl⟩
    exact ⟨x, hx, by simp [Function.comp_def, hlexemes, hls]⟩
  · rintro ⟨x, hx, rfl⟩
    obtain ⟨vs, hvs, hls⟩ := (Token.scanned_iff_of_int? hliteral).2 ⟨x, hx, rfl⟩
    refine ⟨_, by rw [hscan, hvs]; rfl, by simp [Function.comp_def, hlexemes, hls]⟩

theorem derives_equation (hname : Text.isFieldName name) (x : Binary64.Finite) :
    Derives (.chain .or) [.word name, .compare .eq, .number x] (equation name x) := by
  have hfield : IsField (.word name) name :=
    isField_word_iff.2 ⟨rfl, (Text.isFieldName_iff.1 hname).2⟩
  exact .single .or (.single .and (.comparison (.test hfield (.compare .eq (.number x)))))

/-- An equation with an integer is read where the integer is a number, and as nothing else. -/
theorem parse_equation_iff (hname : Text.isFieldName name)
    (hliteral : Decimal.int? literal.toList = some z)
    (hlimits : ∀ limit, (name ++ " = " ++ literal).utf8ByteSize ≤ limits.of limit) :
    parse limits (name ++ " = " ++ literal) = .ok r ↔
      ∃ x, Token.number? literal.toList = some x ∧ r = equation name x := by
  rw [parse_iff_derives hlimits]
  constructor
  · rintro ⟨ts, hts, hr⟩
    obtain ⟨x, hx, hls⟩ := (scanned_equation_iff hname hliteral).1 ⟨ts, hts, rfl⟩
    rw [hls] at hr
    exact ⟨x, hx, Reading.derives_unique hr (derives_equation hname x)⟩
  · rintro ⟨x, hx, rfl⟩
    obtain ⟨ts, hts, hls⟩ := (scanned_equation_iff hname hliteral).2 ⟨x, hx, rfl⟩
    exact ⟨ts, hts, by rw [hls]; exact derives_equation hname x⟩

theorem compile_equation_iff [Formats] (hsource : source name = some f) (htype : f.type = .integer)
    (hop : f.supports .eq) : (∃ p, compile source chain (equation name x) = .ok p) ↔
      Sql.isColumn f.column ∧
        ∃ m, (Binary64.finite x).IsInteger m ∧ m.natAbs ≤ Binary64.Finite.maxExact := by
  have hvalue : f.checkValue .eq (.number x) = f.checkInteger x := by
    simp [Schema.Field.checkValue, htype]
  have hcheck : f.check ⟨name, .eq, .single (.number x)⟩ = .ok () ↔
      Sql.isColumn f.column ∧ f.checkInteger x = .ok () := by
    simp [Schema.Field.check_eq_ok_iff, hop, hvalue, Operand.shape, Operator.shape, Operand.values,
      Operator.isNullTest]
  rw [← Schema.Field.checkInteger_eq_ok_iff, ← hcheck]
  constructor
  · rintro ⟨p, hp⟩
    obtain ⟨e, he, -⟩ := compile_leaf_eq_ok_iff.1 hp
    obtain ⟨f', hf', hok, -⟩ := Comparison.compile_eq_ok_iff.1 he
    cases hsource.symm.trans hf'
    exact hok
  · intro hok
    exact ⟨_, compile_leaf_of_check hsource hok rfl⟩

theorem bound_of_compile_equation [Formats] (h : compile source chain (equation name x) = .ok p) :
    p.bound = [.number x] := by
  obtain ⟨e, he, rfl⟩ := compile_leaf_eq_ok_iff.1 h
  obtain ⟨f, -, -, rfl⟩ := Comparison.compile_eq_ok_iff.1 he
  rw [Predicate.bound_condition]
  rfl

/-- The text is read under the limits, and what it is read as compiles to the predicate. -/
def Accepts [Formats] (limits : Limits) (source : FieldSource) (chain : Guesser.Chain)
    (text : String)
    (p : Predicate) : Prop := ∃ r, parse limits text = .ok r ∧ compile source chain r = .ok p

theorem accepts_equation_iff [Formats] (hname : Text.isFieldName name)
    (hliteral : Decimal.int? literal.toList = some z)
    (hlimits : ∀ limit, (name ++ " = " ++ literal).utf8ByteSize ≤ limits.of limit) :
    Accepts limits source chain (name ++ " = " ++ literal) p ↔
      ∃ x, Token.number? literal.toList = some x ∧
        compile source chain (equation name x) = .ok p := by
  simp only [Accepts, parse_equation_iff hname hliteral hlimits]
  constructor
  · rintro ⟨_, ⟨x, hx, rfl⟩, hp⟩
    exact ⟨x, hx, hp⟩
  · rintro ⟨x, hx, hp⟩
    exact ⟨_, ⟨x, hx, rfl⟩, hp⟩

section Integers

variable (hname : Text.isFieldName name) (hsource : source name = some f)
  (htype : f.type = .integer) (hop : f.supports .eq)
include hname hsource htype hop

theorem exists_accepts_iff [Formats] (hliteral : Decimal.int? literal.toList = some z)
    (hlimits : ∀ limit, (name ++ " = " ++ literal).utf8ByteSize ≤ limits.of limit) :
    (∃ p, Accepts limits source chain (name ++ " = " ++ literal) p) ↔
      Sql.isColumn f.column ∧ z.natAbs ≤ 2 ^ 53 - 1 := by
  have hexact : Binary64.Finite.maxExact = 2 ^ 53 - 1 := rfl
  simp only [accepts_equation_iff hname hliteral hlimits]
  constructor
  · rintro ⟨p, x, hx, hp⟩
    obtain ⟨hcolumn, m, hm, hle⟩ := (compile_equation_iff hsource htype hop).1 ⟨p, hp⟩
    have hlt := Token.natAbs_lt_of_number? hliteral hx hm (by omega)
    exact ⟨hcolumn, by omega⟩
  · rintro ⟨hcolumn, hle⟩
    obtain ⟨x, hx, hz⟩ := Token.number?_exact hliteral (by omega)
    obtain ⟨p, hp⟩ := (compile_equation_iff hsource htype hop).2 ⟨hcolumn, z, hz, by omega⟩
    exact ⟨p, x, hx, hp⟩

/-- What is bound for an equation that is accepted is the integer as it was written. -/
theorem bound_of_accepts [Formats] (hliteral : Decimal.int? literal.toList = some z)
    (hlimits : ∀ limit, (name ++ " = " ++ literal).utf8ByteSize ≤ limits.of limit)
    (h : Accepts limits source chain (name ++ " = " ++ literal) p) :
    ∃ x : Binary64, x.IsInteger z ∧ p.bound = [.number x] := by
  obtain ⟨-, hle⟩ := (exists_accepts_iff hname hsource htype hop hliteral hlimits).1 ⟨p, h⟩
  obtain ⟨x, hx, hp⟩ := (accepts_equation_iff hname hliteral hlimits).1 h
  obtain ⟨y, hy, hz⟩ := Token.number?_exact hliteral (by omega)
  cases hx.symm.trans hy
  exact ⟨x, hz, bound_of_compile_equation hp⟩

end Integers

/-- An equation of a field of integers with an integer, where no limit is below its size, is read
and compiled just when the column of the field is valid and binary64 tells the integer apart from
all others. Then the parameter is that integer, so that integers that differ are not bound as one
value. -/
theorem equation_accepted_iff [Formats] (chain : Guesser.Chain) (hname : Text.isFieldName name)
    (hsource : source name = some f) (htype : f.type = .integer) (hop : f.supports .eq)
    (hliteral : Decimal.int? literal.toList = some z)
    (hlimits : ∀ limit, (name ++ " = " ++ literal).utf8ByteSize ≤ limits.of limit) :
    ((∃ p, Accepts limits source chain (name ++ " = " ++ literal) p) ↔
        Sql.isColumn f.column ∧ z.natAbs ≤ 2 ^ 53 - 1) ∧
      ∀ p, Accepts limits source chain (name ++ " = " ++ literal) p →
        (∃ x : Binary64, x.IsInteger z ∧
          ∀ d a params, (p.toSql d a params).2 = params ++ [.number x]) ∧
        ∀ (limits' : Limits) literal' z' p', Decimal.int? literal'.toList = some z' →
          (∀ limit, (name ++ " = " ++ literal').utf8ByteSize ≤ limits'.of limit) →
          Accepts limits' source chain (name ++ " = " ++ literal') p' →
          ∀ d a params, (p'.toSql d a params).2 = (p.toSql d a params).2 → z' = z := by
  refine ⟨exists_accepts_iff hname hsource htype hop hliteral hlimits, fun p hp => ?_⟩
  obtain ⟨x, hz, hbound⟩ := bound_of_accepts hname hsource htype hop hliteral hlimits hp
  refine ⟨⟨x, hz, fun d a params => by rw [Predicate.toSql, hbound]⟩, ?_⟩
  intro limits' literal' z' p' hliteral' hlimits' hp' d a params hparams
  obtain ⟨x', hz', hbound'⟩ := bound_of_accepts hname hsource htype hop hliteral' hlimits' hp'
  rw [Predicate.toSql, Predicate.toSql, hbound, hbound', List.append_cancel_left_eq] at hparams
  obtain rfl : x' = x := by simpa using hparams
  exact hz'.unique hz

/-- No default limit is below the size of a short text. -/
theorem le_default {text : String} (h : text.utf8ByteSize ≤ 32) (limit : Limit) :
    text.utf8ByteSize ≤ Limits.of {} limit := by
  cases limit <;> exact h.trans (by decide)

def quantity : Schema.Field := { name := "qty", type := .integer }

/-- The last integer that is accepted, behind a sign and a zero, and the first that is not. -/
theorem equation_accepted_iff_quantity :
    (∃ p, Accepts {} (fun _ => some quantity) [] "qty = -09007199254740991" p ∧
      ∃ x : Binary64, x.IsInteger (-9007199254740991) ∧
        (p.toSql .sqlite "" [.null]).2 = [.null, .number x]) ∧
    ¬ ∃ p, Accepts {} (fun _ => some quantity) [] "qty = +9007199254740992" p := by
  have hname : Text.isFieldName "qty" := by decide
  have hop : quantity.supports .eq := by decide
  have hlast : Decimal.int? "-09007199254740991".toList = some (-9007199254740991) := by
    decide +kernel
  have hnext : Decimal.int? "+9007199254740992".toList = some 9007199254740992 := by decide +kernel
  let source : FieldSource := fun _ => some quantity
  have hsource : source "qty" = some quantity := rfl
  constructor
  · obtain ⟨haccepts, hbound⟩ := equation_accepted_iff [] hname hsource rfl hop hlast
      (le_default (by decide))
    obtain ⟨p, hp⟩ := haccepts.2 ⟨by decide, by decide⟩
    obtain ⟨x, hx, hparams⟩ := (hbound p hp).1
    exact ⟨p, hp, x, hx, hparams .sqlite "" [.null]⟩
  · intro h
    have haccepts := (equation_accepted_iff [] hname hsource rfl hop hnext
      (le_default (by decide))).1
    exact absurd (haccepts.1 h).2 (by decide)

/-- A field whose column cannot stand in SQL text. -/
def stock : Schema.Field := { name := "qty", type := .integer, column? := some "stock level" }

/-- A field whose name cannot stand in filter text. -/
def price : Schema.Field := { name := "unit price", type := .integer, column? := some "unit_price" }

/-- The integer alone does not tell whether an equation is accepted. A column that is not valid is
refused whatever the name of the field is, and a name that is no word whatever its column is. -/
theorem not_forall_equation_accepted_iff :
    let told (admits : String → Schema.Field → Prop) : Prop :=
      ∀ (limits : Limits) (source : FieldSource) chain name f literal z, admits name f →
        source name = some f → f.type = .integer → f.supports .eq →
        Decimal.int? literal.toList = some z →
        (∀ limit, (name ++ " = " ++ literal).utf8ByteSize ≤ limits.of limit) →
        ((∃ p, Accepts limits source chain (name ++ " = " ++ literal) p) ↔ z.natAbs ≤ 2 ^ 53 - 1)
    ¬ told (fun name _ => Text.isFieldName name) ∧ ¬ told (fun _ f => Sql.isColumn f.column) := by
  intro told
  have hone : Decimal.int? "1".toList = some 1 := by decide +kernel
  constructor
  · intro h
    have hname : Text.isFieldName "qty" := by decide
    have hop : stock.supports .eq := by decide
    have hlimits : ∀ limit, ("qty" ++ " = " ++ "1").utf8ByteSize ≤ Limits.of {} limit :=
      le_default (by decide)
    have hstock := h {} (fun _ => some stock) [] _ _ _ _ hname rfl rfl hop hone hlimits
    obtain ⟨hcolumn, -⟩ := (exists_accepts_iff hname rfl rfl hop hone hlimits).1
      (hstock.2 (by decide))
    exact absurd hcolumn (by decide)
  · intro h
    have hcolumn : Sql.isColumn price.column := by decide
    have hprice := h {} (fun _ => some price) [] "unit price" price _ _ hcolumn rfl rfl (by decide)
      hone (le_default (by decide))
    have hrefused : (parse {} ("unit price" ++ " = " ++ "1")).toOption.isNone := by decide +kernel
    obtain ⟨p, r, hr, -⟩ := hprice.2 (by decide)
    rw [hr] at hrefused
    cases hrefused

end RuleFilter.Rule
