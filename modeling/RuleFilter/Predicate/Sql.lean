import RuleFilter.Predicate.Clause
import RuleFilter.Sql.Name

/-!
Predicates as WHERE fragments with bound parameters. Only groups of two or more that stand inside
another group are in parentheses.
-/

namespace RuleFilter.Predicate

/-- The values that a predicate binds, in the order of their places in its text. -/
def bound (p : Predicate) : List Value := p.conditions.flatMap fun c => c.clause.bound

def joinParts (nested : Bool) (separator : String) (parts : List String) : String :=
  let joined := String.intercalate separator parts
  if nested then "(" ++ joined ++ ")" else joined

mutual

/-- The text of a predicate, when so many parameters are bound before it. -/
def text (d : Dialect) (tableAlias : String) :
    (nested : Bool) → (before : Nat) → Predicate → String
  | _, before, .condition c => c.clause.text d (Sql.qualify tableAlias c.column) before
  | _, _, .all [] | _, _, .any [] => "1=1"
  | nested, before, .all [p] | nested, before, .any [p] => text d tableAlias nested before p
  | nested, before, .all ps => joinParts nested " AND " (texts d tableAlias before ps)
  | nested, before, .any ps => joinParts nested " OR " (texts d tableAlias before ps)

def texts (d : Dialect) (tableAlias : String) : (before : Nat) → List Predicate → List String
  | _, [] => []
  | before, p :: ps =>
    text d tableAlias true before p :: texts d tableAlias (before + p.bound.length) ps

end

/-- The fragment, and the parameters with those of the fragment after them. An empty alias leaves
columns as they are. -/
def toSql (d : Dialect) (tableAlias : String) (params : List Value) (p : Predicate) :
    String × List Value :=
  (p.text d tableAlias false params.length, params ++ p.bound)

/-- The same for a statement where the table has no alias. -/
def toPlainSql (d : Dialect) (params : List Value) (p : Predicate) : String × List Value :=
  p.toSql d "" params

def warnings (p : Predicate) : List String := p.conditions.filterMap Condition.warning?

end RuleFilter.Predicate
