import RuleFilter.Json.Written

/-!
Decoding documents with a fixed set of named parts. Such a document is an object, in which a part
may not repeat and members of other names are ignored, or an array of the parts in their order.
-/

namespace RuleFilter.Json

/-- Whether a part may be left out: never, of an object, or also at the end of an array. -/
inductive Presence where
  | required | optional | trailing
  deriving DecidableEq

abbrev Layout := List (String × Presence)

namespace Written

/-- The value of a part among members, none for a part left out; no result where it repeats. -/
def part? (members : List (String × Written)) (name : String) : Option (Option Written) :=
  match members.filter (·.1 == name) with
  | [] => some none
  | [m] => some (some m.2)
  | _ :: _ :: _ => none

def partOfObject? (members : List (String × Written)) (p : String × Presence) :
    Option (Option Written) :=
  (part? members p.1).bind fun v =>
    if v.isNone && p.2 == .required then none else some v

def partsOfArray? : Layout → List Written → Option (List (Option Written))
  | [], [] => some []
  | [], _ :: _ => none
  | (_, presence) :: parts, [] =>
    if presence = .trailing then (partsOfArray? parts []).map (none :: ·) else none
  | _ :: parts, v :: vs => (partsOfArray? parts vs).map (some v :: ·)

/-- The parts of a document in the order of the layout. -/
def parts? (layout : Layout) : Written → Option (List (Option Written))
  | .object members => do
    let members ← members.mapM fun (k, v) => (textOf k).map (·, v)
    layout.mapM (partOfObject? members)
  | .array items => partsOfArray? layout items
  | _ => none

def string? : Written → Option String
  | .string s => textOf s
  | _ => none

def bool? : Written → Option Bool
  | .bool b => some b
  | _ => none

/-- A whole number that fits 64 bits without a sign. -/
def nat? : Written → Option Nat
  | .number n =>
    match n.toJson? with
    | some (.integer (.ofNat i)) => some i
    | _ => none
  | _ => none

/-- One of a fixed set of names, or an object with nothing but that name, under null. -/
def named? {α : Type} (ofName? : String → Option α) : Written → Option α
  | .string s => (textOf s).bind ofName?
  | .object [(k, .null)] => (textOf k).bind ofName?
  | _ => none

def list? {α : Type} (decode : Written → Option α) : Written → Option (List α)
  | .array items => items.mapM decode
  | _ => none

/-- A part that may be null, which counts as left out. -/
def nullable? {α : Type} (decode : Written → Option α) : Option Written → Option (Option α)
  | none | some .null => some none
  | some v => (decode v).map some

def withDefault? {α : Type} (default : α) (decode : Written → Option α) :
    Option Written → Option α
  | none => some default
  | some v => decode v

end Written

end RuleFilter.Json
