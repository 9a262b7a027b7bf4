import RuleFilter.Binary64.Basic
import RuleFilter.Entries

/-! JSON values. Objects are entries: their members keep the order in which the keys first came. -/

namespace RuleFilter

/-- Numbers are integers where they are written as such and fit 64 bits, and binary64 otherwise. -/
inductive Json where
  | null
  | bool (b : Bool)
  | integer (i : Int)
  | real (x : Binary64.Finite)
  | string (s : String)
  | array (items : List Json)
  | object (members : List (String × Json))

namespace Json

instance : Inhabited Json := ⟨.null⟩
instance : Coe String Json := ⟨.string⟩
instance : Coe Bool Json := ⟨.bool⟩

theorem sizeOf_member_lt {members : List (String × Json)} {m : String × Json} (h : m ∈ members) :
    sizeOf m.2 < sizeOf members := by
  have := List.sizeOf_lt_of_mem h
  rcases m with ⟨k, v⟩
  simp at this ⊢
  omega

/-- The kind as messages name it. -/
def kind : Json → String
  | .null => "null"
  | .bool _ => "boolean"
  | .integer _ | .real _ => "number"
  | .string _ => "string"
  | .array _ => "array"
  | .object _ => "object"

/-- The member of an object; other values have none. -/
def member? : Json → String → Option Json
  | .object members, key => Entries.value? members key
  | _, _ => none

def isNull : Json → Bool
  | .null => true
  | _ => false

def string? : Json → Option String
  | .string s => some s
  | _ => none

def array? : Json → Option (List Json)
  | .array items => some items
  | _ => none

/-- The number nearest to a numeric value. -/
def number? : Json → Option Binary64
  | .integer i => some (.ofInt i)
  | .real x => some (.finite x)
  | _ => none

/-- A number as JSON has it: one that is not finite is written as null. -/
def ofNumber : Binary64 → Json
  | .finite x => .real x
  | _ => .null

def strings (texts : List String) : Json := .array (texts.map .string)

end Json

/-- An object's members, also a record under the hooks and a set of form options. -/
abbrev Json.Members := Entries Json

end RuleFilter
