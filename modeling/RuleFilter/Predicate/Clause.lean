import RuleFilter.Predicate.Basic
import RuleFilter.Sql.Dialect
import RuleFilter.Sql.Pattern

/-!
The SQL test that a condition stands for, with the values it binds. An equality with null is a null
test, an empty list leaves nothing to test, and text operators match a pattern.
-/

namespace RuleFilter

inductive Sql.Relation where
  | eq | ne | lt | le | gt | ge
  deriving DecidableEq

def Sql.Relation.sign : Sql.Relation → String
  | .eq => "="
  | .ne => "<>"
  | .lt => "<"
  | .le => "<="
  | .gt => ">"
  | .ge => ">="

inductive Clause where
  | isNull
  | isNotNull
  | compare (relation : Sql.Relation) (v : Value)
  | between (low high : Value)
  | among (negated : Bool) (vs : List Value)
  | like (pattern : String)
  | always
  /-- For an operand that its operator cannot take. -/
  | never
  deriving DecidableEq

namespace Clause

def ofEquality (relation : Sql.Relation) (nullTest : Clause) : Operand → Clause
  | .single .null => nullTest
  | .single v => .compare relation v
  | _ => .never

def ofOrder (relation : Sql.Relation) : Operand → Clause
  | .single v => .compare relation v
  | _ => .never

def ofMembership (negated : Bool) : Operand → Clause
  | .list [] => .always
  | .list vs => .among negated vs
  | _ => .never

def ofPattern (before after : String) : Operand → Clause
  | .single (.string s) => .like (before ++ Sql.literalPattern s ++ after)
  | _ => .never

def of : Operator → Operand → Clause
  | .eq, v => ofEquality .eq .isNull v
  | .neq, v => ofEquality .ne .isNotNull v
  | .lt, v => ofOrder .lt v
  | .lte, v => ofOrder .le v
  | .gt, v => ofOrder .gt v
  | .gte, v => ofOrder .ge v
  | .between, .range low high => .between low high
  | .between, _ => .never
  | .oneOf, v => ofMembership false v
  | .noneOf, v => ofMembership true v
  | .contains, v => ofPattern "%" "%" v
  | .startsWith, v => ofPattern "" "%" v
  | .endsWith, v => ofPattern "%" "" v
  | .isNull, _ => .isNull
  | .isNotNull, _ => .isNotNull

/-- The values to bind, in the order of their places in the text. -/
def bound : Clause → List Value
  | .compare _ v => [v]
  | .between low high => [low, high]
  | .among _ vs => vs
  | .like pattern => [.string pattern]
  | .isNull | .isNotNull | .always | .never => []

/-- The text of the clause on a column, when so many parameters are bound before it. -/
def text (d : Dialect) (column : String) (before : Nat) : Clause → String
  | .isNull => column ++ " IS NULL"
  | .isNotNull => column ++ " IS NOT NULL"
  | .compare relation _ => column ++ " " ++ relation.sign ++ " " ++ d.placeholder (before + 1)
  | .between _ _ =>
    column ++ " BETWEEN " ++ d.placeholder (before + 1) ++ " AND " ++ d.placeholder (before + 2)
  | .among negated vs =>
    d.membership column (vs.mapIdx fun i _ => d.placeholder (before + i + 1)) negated
  | .like _ => d.like column (d.placeholder (before + 1))
  | .always => "1=1"
  | .never => "1=0"

end Clause

namespace Condition

def clause (c : Condition) : Clause := .of c.operator c.operand

/-- Said about a condition whose operand its operator cannot take. -/
def warning? (c : Condition) : Option String :=
  if c.clause = .never then
    some ("Skipping condition with mismatched operand field=" ++ c.field ++
      " operator=" ++ c.operator.name ++ " shape=" ++ c.operand.shape.label)
  else none

end Condition

end RuleFilter
