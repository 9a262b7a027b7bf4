import RuleFilter.Proofs.Predicate.Text

/-!
Writing a predicate from left to right. A value is bound where its place is written, and its place
has the number of the parameters that there are then. What is written and bound in this way is the
fragment with the places counted beforehand.
-/

namespace RuleFilter

namespace Dialect

/-- Binds one more value and writes its place. -/
def bindValue (d : Dialect) (params : List Value) (v : Value) : String × List Value :=
  let params := params ++ [v]
  (d.placeholder params.length, params)

def bindValues (d : Dialect) (params : List Value) : List Value → List String × List Value
  | [] => ([], params)
  | v :: vs =>
    let (place, params) := bindValue d params v
    let (places, params) := bindValues d params vs
    (place :: places, params)

theorem bindValue_eq (d : Dialect) (params : List Value) (v : Value) :
    bindValue d params v = (d.placeholder (params.length + 1), params ++ [v]) := by
  simp [bindValue]

theorem bindValues_eq (d : Dialect) (params vs : List Value) : bindValues d params vs =
    (vs.mapIdx fun i _ => d.placeholder (params.length + i + 1), params ++ vs) := by
  induction vs generalizing params with
  | nil => simp [bindValues]
  | cons v vs ih => simp [bindValues, bindValue_eq, ih, Nat.add_assoc, Nat.add_comm 1]

end Dialect

namespace Clause

/-- Writes the clause on a column and binds its values. -/
def write (d : Dialect) (column : String) (params : List Value) : Clause → String × List Value
  | .isNull => (column ++ " IS NULL", params)
  | .isNotNull => (column ++ " IS NOT NULL", params)
  | .compare relation v =>
    let (place, params) := d.bindValue params v
    (column ++ " " ++ relation.sign ++ " " ++ place, params)
  | .between low high =>
    let (first, params) := d.bindValue params low
    let (last, params) := d.bindValue params high
    (column ++ " BETWEEN " ++ first ++ " AND " ++ last, params)
  | .among negated vs =>
    let (places, params) := d.bindValues params vs
    (d.membership column places negated, params)
  | .like pattern =>
    let (place, params) := d.bindValue params (.string pattern)
    (d.like column place, params)
  | .always => ("1=1", params)
  | .never => ("1=0", params)

theorem write_eq (d : Dialect) (column : String) (params : List Value) (c : Clause) :
    c.write d column params = (c.text d column params.length, params ++ c.bound) := by
  cases c <;> simp [write, text, bound, Dialect.bindValue_eq, Dialect.bindValues_eq]

end Clause

namespace Predicate

variable {d : Dialect} {tableAlias : String}

mutual

/-- Writes a predicate and binds its values. -/
def write (d : Dialect) (tableAlias : String) :
    (nested : Bool) → List Value → Predicate → String × List Value
  | _, params, .condition c => c.clause.write d (Sql.qualify tableAlias c.column) params
  | _, params, .all [] | _, params, .any [] => ("1=1", params)
  | nested, params, .all [p] | nested, params, .any [p] => write d tableAlias nested params p
  | nested, params, .all ps => (writeAll d tableAlias params ps).map (joinParts nested " AND ") id
  | nested, params, .any ps => (writeAll d tableAlias params ps).map (joinParts nested " OR ") id

/-- Writes the members of a group, each with the parameters that those before it leave. -/
def writeAll (d : Dialect) (tableAlias : String) :
    List Value → List Predicate → List String × List Value
  | params, [] => ([], params)
  | params, p :: ps =>
    let (part, params) := write d tableAlias true params p
    let (parts, params) := writeAll d tableAlias params ps
    (part :: parts, params)

end

theorem write_ofGroup (k : Combinator) {nested : Bool} {params : List Value} {ps : List Predicate}
    (h : 2 ≤ ps.length) : write d tableAlias nested params (ofGroup k ps) =
      (writeAll d tableAlias params ps).map (joinParts nested (" " ++ k.keyword ++ " ")) id := by
  match ps, h with
  | p :: q :: ps, _ => cases k <;> rw [ofGroup, write] <;> first | rfl | simp

theorem writeAll_eq {ps : List Predicate} (h : ∀ p ∈ ps, ∀ params,
      p.write d tableAlias true params =
        (p.text d tableAlias true params.length, params ++ p.bound)) (params : List Value) :
    writeAll d tableAlias params ps =
      (texts d tableAlias params.length ps, params ++ ps.flatMap bound) := by
  induction ps generalizing params with
  | nil => simp [writeAll, texts]
  | cons p ps ih =>
    rw [List.forall_mem_cons] at h
    simp [writeAll, texts, h.1, ih h.2]

theorem write_eq (nested : Bool) (params : List Value) (p : Predicate) :
    p.write d tableAlias nested params =
      (p.text d tableAlias nested params.length, params ++ p.bound) := by
  induction p using induct_ofGroup generalizing nested params with
  | condition c => rw [write, text_condition, bound_condition, Clause.write_eq]
  | group k ps ih =>
    rw [bound_ofGroup]
    match ps with
    | [] => cases k <;> simp [ofGroup, write, text]
    | [p] =>
      have hp := ih p (by simp) nested params
      cases k <;> simpa [ofGroup, write, text] using hp
    | p :: q :: qs =>
      have hall := writeAll_eq (fun r hr => ih r hr true) params
      rw [write_ofGroup k (by simp), text_ofGroup k (by simp), hall]
      rfl

/-- The fragment is what is written from left to right, with the parameters bound on the way. -/
theorem toSql_eq_write (d : Dialect) (tableAlias : String) (params : List Value) (p : Predicate) :
    p.toSql d tableAlias params = p.write d tableAlias false params :=
  (write_eq false params p).symm

end Predicate

end RuleFilter
