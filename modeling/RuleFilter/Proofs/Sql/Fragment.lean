import RuleFilter.Proofs.Sql.Like
import RuleFilter.Proofs.Sql.Structure
import RuleFilter.Proofs.Sql.Token
import RuleFilter.Proofs.Sql.Truth
import RuleFilter.Sql.Name

/-!
The meaning of WHERE fragments. The tests of a fragment are read as wholes, so that the `AND` of a
`BETWEEN` is part of its test, and a fragment is true, false or unknown on a row by the truth of its
tests. What a database does with values that are not null is left open.
-/

namespace RuleFilter.Sql

inductive Test where
  | isNull (negated : Bool)
  | compare (relation : Relation) (v : Value)
  | between (low high : Value)
  | among (negated : Bool) (vs : List Value)
  | like (pattern : String) (escape : Char)

/-- A test of a column, or an equation of numbers. -/
inductive Atom where
  | equation (m n : Nat)
  | test (reference : String) (t : Test)

section Reading

/-- One value or more between commas, up to the closing parenthesis. -/
def values? : List Token → Option (List Value × List Token)
  | .value v :: .closeParen :: ts => some ([v], ts)
  | .value v :: .comma :: ts => (values? ts).map fun (vs, rest) => (v :: vs, rest)
  | _ => none

def test? : List Token → Option (Test × List Token)
  | .keyword .is :: .keyword .null :: ts => some (.isNull false, ts)
  | .keyword .is :: .keyword .not :: .keyword .null :: ts => some (.isNull true, ts)
  | .sign relation :: .value v :: ts => some (.compare relation v, ts)
  | .keyword .between :: .value low :: .keyword .and :: .value high :: ts =>
    some (.between low high, ts)
  | .keyword .among :: .openParen :: ts =>
    (values? ts).map fun (vs, rest) => (.among false vs, rest)
  | .keyword .not :: .keyword .among :: .openParen :: ts =>
    (values? ts).map fun (vs, rest) => (.among true vs, rest)
  | .keyword .like :: .value (.string pattern) :: .keyword .escape :: .quoted [escape] :: ts =>
    some (.like pattern escape, ts)
  | _ => none

def atom? : List Token → Option (Atom × List Token)
  | .number m :: .sign .eq :: .number n :: ts => some (.equation m n, ts)
  | .name reference :: ts => (test? ts).map fun (t, rest) => (.test reference t, rest)
  | _ => none

theorem values?_length {ts rest : List Token} {vs : List Value}
    (h : values? ts = some (vs, rest)) : rest.length < ts.length := by
  fun_induction values? ts generalizing vs rest with
  | case1 => cases h; simp only [List.length_cons]; omega
  | case2 v ts ih =>
    obtain ⟨⟨vs', r⟩, hvs, he⟩ := Option.map_eq_some_iff.1 h
    cases he
    have := ih hvs
    simp only [List.length_cons]
    omega
  | case3 => cases h

theorem test?_length {ts rest : List Token} {t : Test} (h : test? ts = some (t, rest)) :
    rest.length < ts.length := by
  unfold test? at h
  split at h
  case h_5 | h_6 =>
    obtain ⟨⟨vs, r⟩, hvs, he⟩ := Option.map_eq_some_iff.1 h
    cases he
    have := values?_length hvs
    simp only [List.length_cons]
    omega
  all_goals cases h
  all_goals simp only [List.length_cons]; omega

theorem atom?_length {ts rest : List Token} {a : Atom} (h : atom? ts = some (a, rest)) :
    rest.length < ts.length := by
  unfold atom? at h
  split at h
  · cases h
    simp only [List.length_cons]
    omega
  · obtain ⟨⟨t, r⟩, ht, he⟩ := Option.map_eq_some_iff.1 h
    cases he
    have := test?_length ht
    simp only [List.length_cons]
    omega
  · cases h

/-- The tests of a fragment and what stands between them. -/
def items : List Token → Option (List (Item Atom))
  | [] => some []
  | .openParen :: ts => (items ts).map (.openParen :: ·)
  | .closeParen :: ts => (items ts).map (.closeParen :: ·)
  | .keyword .and :: ts => (items ts).map (.join .and :: ·)
  | .keyword .or :: ts => (items ts).map (.join .or :: ·)
  | t :: ts =>
    match _h : atom? (t :: ts) with
    | some (a, rest) => (items rest).map (.atom a :: ·)
    | none => none
termination_by ts => ts.length
decreasing_by
  all_goals first
    | exact atom?_length _h
    | simp

end Reading

/-- What a database does with stored values that are not null: it compares them with values that are
bound, and matches their text. -/
structure Engine (D : Type) where
  holds : Relation → D → Value → Bool
  text : D → String

section Meaning

variable {D : Type} (engine : Engine D)

/-- A comparison, which is unknown where either side is null. -/
def Engine.compare (relation : Relation) (x : Option D) (v : Value) : Truth :=
  match x, v with
  | none, _ | _, .null => .unknown
  | some d, v => .ofBool (engine.holds relation d v)

/-- The truth of a test of a column that holds a value or null. -/
def Test.truth (x : Option D) : Test → Truth
  | .isNull negated => .ofBool (x.isNone != negated)
  | .compare relation v => engine.compare relation x v
  | .between low high => (engine.compare .ge x low).and (engine.compare .le x high)
  | .among negated vs =>
    let found := Truth.combine .or (vs.map fun v => engine.compare .eq x v)
    if negated then found.not else found
  | .like pattern escape =>
    match x with
    | none => .unknown
    | some d => .ofBool (Sql.like escape pattern.toList (engine.text d).toList)

def Atom.truth (column : String → Option D) : Atom → Truth
  | .equation m n => .ofBool (m == n)
  | .test reference t => t.truth engine (column reference)

def Expr.truth {α : Type} (f : α → Truth) : Expr α → Truth
  | .atom a => f a
  | .group k es => .combine k (es.map fun e => truth f e)

/-- The column that a reference names in a statement where the table has an alias. -/
def columnOf (tableAlias reference : String) : String :=
  if tableAlias = "" then reference
  else
    match reference.toList.dropPrefix? (tableAlias ++ ".").toList with
    | some column => String.ofList column
    | none => reference

theorem columnOf_qualify (tableAlias column : String) :
    columnOf tableAlias (qualify tableAlias column) = column := by
  rw [columnOf, qualify]
  split
  · rfl
  · have hdrop : (tableAlias ++ "." ++ column).toList.dropPrefix? (tableAlias ++ ".").toList =
        some column.toList := by
      rw [String.toList_append]
      exact List.dropPrefix?_append_of_beq _ (by simp)
    rw [hdrop]
    exact String.ofList_toList

/-- A column under an alias is a keyword only if the column is one. -/
theorem Keyword.ofWord?_qualify (tableAlias : String) {column : String}
    (h : ofWord? column = none) : ofWord? (qualify tableAlias column) = none := by
  rw [qualify]
  split
  · exact h
  · rw [ofWord?, List.find?_eq_none]
    intro k _ hsame
    have hpoint : '.' ∈ (Text.lower k.text).toList := by
      rw [beq_iff_eq.1 hsame]
      simp
    cases k <;> revert hpoint <;> decide

/-- The tree of tests that a text stands for with its parameters, of which the first `n` belong to
places before the text. -/
def readText (params : List Value) (n : Nat) (text : String) : Option (Expr Atom) := do
  let ts ← scan params n text.toList
  let is ← items ts
  read is

theorem readText_eq_some {params : List Value} {n : Nat} {text : String} {ts : List Token}
    {is : List (Item Atom)} {e : Expr Atom} (hscan : scan params n text.toList = some ts)
    (hitems : items ts = some is) (hread : read is = some e) :
    readText params n text = some e := by
  rw [readText, hscan]
  show (items ts).bind read = some e
  rw [hitems]
  exact hread

/-- The truth of a fragment on a row, if the fragment can be read. -/
def evaluate (tableAlias : String) (row : String → Option D) (params : List Value) (n : Nat)
    (text : String) : Option Truth :=
  (readText params n text).map fun e =>
    e.truth fun a => a.truth engine fun reference => row (columnOf tableAlias reference)

end Meaning

end RuleFilter.Sql
