/-! SQL dialects, which differ in how they write the place of a bound parameter. -/

namespace RuleFilter

inductive Dialect where
  | sqlite | postgres | duckdb
  deriving DecidableEq

namespace Dialect

def all : List Dialect := [.sqlite, .postgres, .duckdb]

instance : Inhabited Dialect := ⟨.postgres⟩

def name : Dialect → String
  | .sqlite => "sqlite"
  | .postgres => "postgres"
  | .duckdb => "duckdb"

def ofName? (s : String) : Option Dialect := all.find? (·.name == s)

theorem ofName?_name (d : Dialect) : ofName? d.name = some d := by cases d <;> decide

/-- The lower case of a letter where that is a basic Latin letter. Outside basic Latin the Kelvin
sign is the only such letter. -/
def lowerLetter (c : Char) : Char := if c = '\u212A' then 'k' else c.toLower

/-- Reads a name in any case; `postgresql` is a second name of one dialect. -/
def ofText? (s : String) : Option Dialect :=
  match String.ofList (s.toList.map lowerLetter) with
  | "postgresql" => some .postgres
  | name => ofName? name

/-- Said about a text that names no dialect. -/
def unknownMessage (s : String) : String :=
  "Invalid SQL dialect '" ++ s ++ "'. Valid options: " ++ String.intercalate ", " (all.map name)

/-- The place of the parameter with an index, the first being one. -/
def placeholder : Dialect → Nat → String
  | .postgres, index => "$" ++ toString index
  | .sqlite, _ | .duckdb, _ => "?"

def like (_ : Dialect) (column pattern : String) : String :=
  column ++ " LIKE " ++ pattern ++ " ESCAPE '\\'"

def membership (_ : Dialect) (column : String) (places : List String) (negated : Bool) : String :=
  column ++ (if negated then " NOT IN (" else " IN (") ++ String.intercalate ", " places ++ ")"

end Dialect

end RuleFilter
