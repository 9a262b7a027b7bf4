import RuleFilter.Json.Written
import RuleFilter.Limits

/-!
The structured form of rules. A comparison is an object with a field, an operator and, where the
operator takes one, a value; a group is an object with rules and a combinator, whatever else it has.
-/

namespace RuleFilter

def Value.toJson : Value → Json
  | .string s => .string s
  | .number x => .ofNumber x
  | .bool b => .bool b
  | .null => .null

/-- The value member, if there is one. -/
def Operand.toJson? : Operand → Option Json
  | .none => Option.none
  | .single v => some v.toJson
  | .list vs => some (.array (vs.map Value.toJson))
  | .range low high => some (.array [low.toJson, high.toJson])

def Comparison.toJson (c : Comparison) : Json :=
  .object <| [("field", .string c.field), ("op", .string c.operator.name)] ++
    (c.operand.toJson?.map fun v => ("value", v)).toList

namespace Rule

def toJson : Rule → Json
  | .leaf c => c.toJson
  | .group combinator children =>
    .object
      [("combinator", .string combinator.name), ("rules", .array (children.map fun r => toJson r))]

end Rule

namespace Payload

def fail {α : Type} (rules : List Nat) (part : PayloadPart) (fault : PayloadFault) :
    Except FilterError α :=
  .error (.badPayload ⟨rules, part⟩ fault)

/-- Decodes the items of an array in order, each with its index, and stops at the first error. -/
def decodeItems {α : Type} (decode : Nat → Json → Except FilterError α) :
    Nat → List Json → Except FilterError (List α)
  | _, [] => .ok []
  | i, v :: vs => do
    let a ← decode i v
    let as ← decodeItems decode (i + 1) vs
    return a :: as

def decodeValue (rules : List Nat) (part : PayloadPart) : Json → Except FilterError Value
  | .string s => .ok (.string s)
  | .integer i =>
    match Binary64.ofInt i with
    | .finite x => .ok (.number x)
    | _ => fail rules part .outOfRange
  | .real x => .ok (.number x)
  | .bool b => .ok (.bool b)
  | .null => .ok .null
  | .array _ | .object _ => fail rules part .notAScalar

def decodeOperand (rules : List Nat) (op : Operator) (v : Option Json) :
    Except FilterError Operand :=
  match op.shape, v with
  | .none, none | .none, some .null => .ok .none
  | .none, some _ => fail rules .value (.needlessValue op)
  | .single, some v => (decodeValue rules .value v).map .single
  | .single, none => fail rules .value (.missingValue op)
  | .list, some (.array items) =>
    (decodeItems (fun i v => decodeValue rules (.item i) v) 0 items).map .list
  | .list, _ => fail rules .value (.notAList op)
  | .range, some (.array [low, high]) => do
    return .range (← decodeValue rules (.item 0) low) (← decodeValue rules (.item 1) high)
  | .range, _ => fail rules .value (.notARange op)

def decodeField (rules : List Nat) (members : Json.Members) : Except FilterError String :=
  match (members.value? "field").bind Json.string? with
  | none => fail rules .field .missingField
  | some field =>
    if field = "" then fail rules .field .missingField
    else if Text.isFieldName field then .ok field
    else fail rules .field (.badField field)

def decodeOperator (rules : List Nat) (members : Json.Members) : Except FilterError Operator :=
  match (members.value? "op").bind Json.string? with
  | none => fail rules .operator .missingOperator
  | some name =>
    match Operator.ofName? name with
    | some op => .ok op
    | none => fail rules .operator (.unknownOperator name)

def decodeComparison (rules : List Nat) (members : Json.Members) :
    Except FilterError Comparison := do
  let field ← decodeField rules members
  let op ← decodeOperator rules members
  let operand ← decodeOperand rules op (members.value? "value")
  return ⟨field, op, operand⟩

def decodeCombinator (rules : List Nat) (members : Json.Members) : Except FilterError Combinator :=
  match (members.value? "combinator").bind Json.string? with
  | none => fail rules .combinator .missingCombinator
  | some s =>
    if Text.sameWord s "and" then .ok .and
    else if Text.sameWord s "or" then .ok .or
    else fail rules .combinator (.unknownCombinator s)

/-- The members of a group, of which there is at least one. -/
def decodeRules (rules : List Nat) : Json → Except FilterError (List Json)
  | .array [] => fail rules .rules .noRules
  | .array items => .ok items
  | _ => fail rules .rules .notAnArray

/-- Decodes a rule in which groups nest no deeper than `depth`. -/
def decode (limits : Limits) : (depth : Nat) → (rules : List Nat) → Json → Except FilterError Rule
  | depth, rules, .object members =>
    match Entries.value? members "rules" with
    | none => (decodeComparison rules members).map .leaf
    | some v => do
      let combinator ← decodeCombinator rules members
      let items ← decodeRules rules v
      match depth with
      | 0 => .error (.tooLarge .depth limits.depth)
      | depth + 1 =>
        let children ← decodeItems (fun i v => decode limits depth (rules ++ [i]) v) 0 items
        return .group combinator children
  | _, rules, _ => fail rules .whole .notAnObject

end Payload

namespace Rule

/-- Decodes a JSON value under the limits on depth and on the number of comparisons. -/
def ofJson (limits : Limits) (payload : Json) : Except FilterError Rule := do
  let r ← Payload.decode limits limits.depth [] payload
  limits.check .conditions r.leafCount
  return r

/-- Decodes JSON text, whose size is checked first. -/
def ofPayload (limits : Limits) (text : String) : Except FilterError Rule := do
  limits.check .size text.utf8ByteSize
  match Json.read? text with
  | none => Payload.fail [] .whole .notJson
  | some payload => ofJson limits payload

end Rule

end RuleFilter
