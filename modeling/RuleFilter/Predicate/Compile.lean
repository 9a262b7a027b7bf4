import RuleFilter.Error
import RuleFilter.Predicate.Basic
import RuleFilter.Text.Timestamp
import RuleFilter.Text.Uuid

/-!
Rules checked against the fields of an entity. Compilation keeps the shape of a rule and the order
of its comparisons, and stops at the first part, in reading order, that does not fit. Which texts
are timestamps and UUIDs is for the libraries to say that read them.
-/

namespace RuleFilter

/-- Which texts are read as timestamps and as UUIDs. -/
class Formats where
  isTimestamp : String → Bool
  isUuid : String → Bool

instance Formats.standard : Formats := ⟨Text.isTimestamp, Text.isUuid⟩

namespace Binary64.Finite

/-- Up to this magnitude every whole number is a binary64 number of its own. -/
def maxExact : Nat := Nat.pow 2 53 - 1

def isExact (x : Finite) : Bool := x.units ≤ maxExact * one

end Binary64.Finite

namespace Schema.Field

def refuse (f : Field) (fault : OperandFault) : Except FilterError Unit :=
  .error (.badOperand f.name fault)

/-- Null is a value under equality alone, where it stands for a null test. -/
def checkNull (f : Field) (op : Operator) : Except FilterError Unit :=
  if ¬ op.isEquality then f.refuse (.nullUnder op)
  else if ¬ f.nullable then f.refuse .notNullable
  else .ok ()

def checkInteger (f : Field) (x : Binary64) : Except FilterError Unit :=
  match x with
  | .finite y =>
    if ¬ y.isWhole then f.refuse (.notWhole x)
    else if ¬ y.isExact then f.refuse (.notExact x)
    else .ok ()
  | _ => f.refuse (.notWhole x)

/-- Whether a value can be compared with the field. -/
def checkValue [Formats] (f : Field) (op : Operator) (v : Value) : Except FilterError Unit :=
  match f.type, v with
  | _, .null => f.checkNull op
  | .string, .string _ => .ok ()
  | .integer, .number x => f.checkInteger x
  | .float, .number _ => .ok ()
  | .boolean, .bool _ => .ok ()
  | .datetime, .string s => if Formats.isTimestamp s then .ok () else f.refuse (.badTimestamp s)
  | .uuid, .string s => if Formats.isUuid s then .ok () else f.refuse (.badUuid s)
  | .choice, .string s => if s ∈ f.choices then .ok () else f.refuse (.notAChoice s f.choices)
  | type, v => f.refuse (.wrongKind type v.kind)

def checkValues [Formats] (f : Field) (op : Operator) : List Value → Except FilterError Unit
  | [] => .ok ()
  | v :: vs => do f.checkValue op v; checkValues f op vs

def check [Formats] (f : Field) (c : Comparison) : Except FilterError Unit :=
  if ¬ Sql.isColumn f.column then .error (.badColumn c.field f.column)
  else if ¬ f.supports c.operator then .error (.unsupported c.field c.operator f.type)
  else if c.operator.isNullTest ∧ ¬ f.nullable then f.refuse .notNullable
  else if c.operand.shape ≠ c.operator.shape then
    .error (.badOperand c.field (.wrongShape c.operator))
  else f.checkValues c.operator c.operand.values

end Schema.Field

/-- The fields by name, as far as they are known. -/
abbrev FieldSource := String → Option Schema.Field

def Comparison.compile [Formats] (source : FieldSource) (chain : Guesser.Chain)
    (c : Comparison) : Except FilterError Condition :=
  match source c.field with
  | none => .error (.unknownField c.field)
  | some f => do
    f.check c
    return ⟨c.field, f.column, f.type, c.operator, c.operand, chain.run c f⟩

namespace Rule

mutual

def compile [Formats] (source : FieldSource) (chain : Guesser.Chain) :
    Rule → Except FilterError Predicate
  | .leaf c => (c.compile source chain).map .condition
  | .group _ [] => .error .emptyGroup
  | .group combinator (r :: rs) => do
    let p ← compile source chain r
    let ps ← compileAll source chain rs
    return Predicate.ofGroup combinator (p :: ps)

def compileAll [Formats] (source : FieldSource) (chain : Guesser.Chain) :
    List Rule → Except FilterError (List Predicate)
  | [] => .ok []
  | r :: rs => do
    let p ← compile source chain r
    let ps ← compileAll source chain rs
    return p :: ps

end

end Rule

end RuleFilter
